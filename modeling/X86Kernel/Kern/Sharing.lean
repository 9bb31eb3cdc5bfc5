import X86Kernel.Kern.Good

/-!
Parent and child between `fork` and the reaping of the child. The frames that
nobody but the child uses, the free ones included, stay the same set through
everything the child does; when the parent gets a copy of a page, one frame
leaves that set and one joins it. Once the child is gone the set is the free
list.
-/

namespace X86Kernel.Kern

open Lib Paging

/-- The frame is used by somebody other than the process with PML4 `c`. -/
def UsedBeside (c : Nat) (G : Ghost) (f : Nat) : Prop :=
  G.role f = .kernel ∨ (∃ q l k, q ≠ c ∧ G.tab (q, l, k) = some f) ∨
    (∃ q, q ≠ c ∧ G.role f = .vma q) ∨ G.held f ≠ 0 ∨ ∃ q n, q ≠ c ∧ G.mapped (q, n) = some f

/-- The frames that are free, or would be without the process `c`. -/
def spare (c : Nat) (G : Ghost) : Set Nat := {f | ¬ UsedBeside c G f}

section Spare

variable {m m' : Mem} {G G' : Ghost} {c : Nat}

theorem mapped_role (h : Inv m G) {x : Nat × Nat} {f : Nat} (hf : G.mapped x = some f) :
    G.role f = .data := by
  obtain ⟨e, he, rfl⟩ := Option.map_eq_some_iff.mp hf
  exact h.refs.target x e he

theorem mapped_inj (h : Inv m G) {p n n' f : Nat} (hn : G.mapped (p, n) = some f)
    (hn' : G.mapped (p, n') = some f) : n = n' := by
  obtain ⟨e, he, rfl⟩ := Option.map_eq_some_iff.mp hn
  obtain ⟨e', he', heq⟩ := Option.map_eq_some_iff.mp hn'
  exact h.refs.inj p n n' e e' he he' heq.symm

theorem free_not_usedBeside (h : Inv m G) {f : Nat} (hf : G.role f = .free) :
    ¬ UsedBeside c G f := by
  rintro (hk | ⟨q, l, k, -, ht⟩ | ⟨q, -, hv⟩ | hheld | ⟨q, n, -, hn⟩)
  · simp [hf] at hk
  · simp [(h.trees.role _ _ _ _).mp ht] at hf
  · simp [hf] at hv
  · exact hheld (h.refs.held f (by simp [hf]))
  · simp [mapped_role h hn] at hf

theorem spare_finite (h : Inv m G) : (spare c G).Finite := by
  refine (Set.finite_lt_nat capacity).subset (fun f hf => ?_)
  refine h.role_lt (fun hk => hf (.inl hk))

/-- What happens in the space `c` alone is not seen. -/
theorem spare_frame (hF : Frame (· = c) m G m' G') (hheld : G'.held = G.held) :
    spare c G' = spare c G := by
  ext f
  refine not_congr ?_
  unfold UsedBeside
  rw [hF.kernel f, hheld]
  refine or_congr Iff.rfl (or_congr ?_ (or_congr ?_ (or_congr Iff.rfl ?_)))
  · refine exists_congr fun q => exists_congr fun l => exists_congr fun k =>
      and_congr_right fun hq => ?_
    rw [hF.tab q l k hq]
  · exact exists_congr fun q => and_congr_right fun hq => hF.vma q f hq
  · refine exists_congr fun q => exists_congr fun n => and_congr_right fun hq => ?_
    rw [hF.mapped q n hq]

/-- Without the process `c` the spare frames are the free ones. -/
theorem spare_eq_free (h : Inv m G) (hhome : Homed G) (hc : G.tab (c, 3, 0) = none) :
    spare c G = {f | G.role f = .free} := by
  have hnotab : ∀ l k, G.tab (c, l, k) = none := by
    intro l k
    by_contra hcon
    rw [h.trees.to_root hcon] at hc
    cases hc
  ext f
  refine ⟨fun hf => ?_, free_not_usedBeside h⟩
  cases hrole : G.role f with
  | free => exact hrole
  | kernel => exact absurd (.inl hrole) hf
  | table q l k =>
      have htab := (h.trees.role _ _ _ _).mpr hrole
      refine absurd (.inr (.inl ⟨q, l, k, ?_, htab⟩)) hf
      rintro rfl
      rw [hnotab] at htab
      cases htab
  | vma q =>
      refine absurd (.inr (.inr (.inl ⟨q, ?_, hrole⟩))) hf
      rintro rfl
      rw [hhome f q hrole] at hc
      cases hc
  | data =>
      have hpos := h.refs.pos f hrole
      have hcount := h.refs.count f hrole
      by_cases hheld : G.held f = 0
      · have hsome : ¬ ∀ x, G.mapped x ≠ some f := by
          intro hno
          have := (refCount_eq_zero_iff h.refs.finite f).mpr hno
          omega
        obtain ⟨⟨q, n⟩, hx⟩ := not_forall.mp hsome
        have hx := not_not.mp hx
        refine absurd (.inr (.inr (.inr (.inr ⟨q, n, ?_, hx⟩)))) hf
        rintro rfl
        obtain ⟨e, he, -⟩ := Option.map_eq_some_iff.mp hx
        have hleaf : G.leaf (q, n) ≠ none := by simp [he]
        exact h.trees.leaf q n hleaf (hnotab _ _)
      · exact absurd (.inr (.inr (.inr (.inl hheld)))) hf

end Spare

/-- Nobody but the parent and the child had a reference to the frame. -/
def Unclaimed (p c : Nat) (G₀ : Ghost) (f : Nat) : Prop :=
  G₀.held f = 0 ∧ ∀ q n, q ≠ p → q ≠ c → G₀.mapped (q, n) ≠ some f

/-- What is kept beside the child `c` since the `fork` that its parent `p` made in
`G₀`, where the counts were `rc₀`. A page of the parent has the frame it had, or
another one in place of a frame that was the parent's alone. -/
structure Kept (p c : Nat) (rc₀ : Nat → Nat) (G₀ G : Ghost) : Prop where
  held : G.held = G₀.held
  others : ∀ q n, q ≠ p → q ≠ c → G.mapped (q, n) = G₀.mapped (q, n)
  unmapped : ∀ n, G₀.mapped (p, n) = none → G.mapped (p, n) = none
  parent : ∀ n f₀, G₀.mapped (p, n) = some f₀ →
    ∃ f, G.mapped (p, n) = some f ∧ (f = f₀ ∨ rc₀ f₀ = 1 ∧ Unclaimed p c G₀ f)

/-- Parent and child at some point between the `fork` and the reaping of the
child. The child gives up a frame of its parent only where the parent was the
only one to have it. -/
structure Sharing (p c : Nat) (rc₀ : Nat → Nat) (G₀ G : Ghost) : Prop
    extends Kept p c rc₀ G₀ G where
  child : ∀ n f₀, G₀.mapped (p, n) = some f₀ → G.mapped (c, n) = some f₀ ∨ rc₀ f₀ = 1
  count : (spare c G).ncard = (spare c G₀).ncard

section Sharing

variable {m₀ m m' : Mem} {G₀ G G' : Ghost} {p c : Nat}

/-- What happens in the space of the child is not seen beside it. -/
theorem Kept.frame {rc₀ : Nat → Nat} (hK : Kept p c rc₀ G₀ G) (hpc : p ≠ c)
    (hF : Frame (· = c) m G m' G') (hheld : G'.held = G.held) : Kept p c rc₀ G₀ G' := by
  refine ⟨by rw [hheld, hK.held], ?_, ?_, ?_⟩
  · intro q n hqp hqc
    rw [hF.mapped q n hqc, hK.others q n hqp hqc]
  · intro n hn
    rw [hF.mapped p n hpc, hK.unmapped n hn]
  · intro n f₀ hf₀
    obtain ⟨f, hf, hcase⟩ := hK.parent n f₀ hf₀
    exact ⟨f, by rw [hF.mapped p n hpc, hf], hcase⟩

/-- The relation reads off a ghost only what is mapped, held and used. -/
theorem Sharing.congr {rc₀ : Nat → Nat} (hS : Sharing p c rc₀ G₀ G) (hmap : G'.mapped = G.mapped)
    (hrole : G'.role = G.role) (htab : G'.tab = G.tab) (hheld : G'.held = G.held) :
    Sharing p c rc₀ G₀ G' := by
  have hspare : spare c G' = spare c G := by
    unfold spare UsedBeside
    rw [hmap, hrole, htab, hheld]
  refine ⟨⟨by rw [hheld, hS.held], ?_, ?_, ?_⟩, ?_, by rw [hspare, hS.count]⟩
  · rw [hmap]
    exact hS.others
  · rw [hmap]
    exact hS.unmapped
  · rw [hmap]
    exact hS.parent
  · rw [hmap]
    exact hS.child

/-- A frame with two references, one of the parent and one of the child, had
only the parent's before the `fork`. -/
theorem Sharing.two_sharers (hS : Sharing p c (fun f => (m₀.page f).refCount) G₀ G)
    (h₀ : Inv m₀ G₀) (h : Inv m G) (hpc : p ≠ c) (hc₀ : ∀ n, G₀.mapped (c, n) = none)
    {n f : Nat} (hf₀ : G₀.mapped (p, n) = some f) (hp : G.mapped (p, n) = some f)
    (hc : G.mapped (c, n) = some f) (htwo : (m.page f).refCount = 2) :
    (m₀.page f).refCount = 1 := by
  have hcount := h.refs.count f (mapped_role h hp)
  have hcount₀ := h₀.refs.count f (mapped_role h₀ hf₀)
  have hsub : ({(p, n), (c, n)} : Set (Nat × Nat)) ⊆ refs G.mapped f := by
    rintro x (rfl | rfl)
    · exact hp
    · exact hc
  have hpair : ({(p, n), (c, n)} : Set (Nat × Nat)).ncard = 2 :=
    Set.ncard_pair (by simpa using hpc)
  have hfin := h.refs.finite.refs f
  have hle := Set.ncard_le_ncard hsub hfin
  have heq : ({(p, n), (c, n)} : Set (Nat × Nat)) = refs G.mapped f :=
    Set.eq_of_subset_of_ncard_le hsub (by unfold refCount at hcount; omega) hfin
  have hheld : G₀.held f = 0 := by
    rw [← hS.held]
    unfold refCount at hcount
    omega
  have hone : refs G₀.mapped f = {(p, n)} := by
    ext ⟨q, k⟩
    refine ⟨fun hx => ?_, ?_⟩
    · have hx : G₀.mapped (q, k) = some f := hx
      by_cases hqp : q = p
      · subst hqp
        rw [mapped_inj h₀ hx hf₀]
        exact Set.mem_singleton _
      · have hqc : q ≠ c := by
          rintro rfl
          rw [hc₀] at hx
          cases hx
        have hmem : (q, k) ∈ refs G.mapped f := by
          rw [← hS.others q k hqp hqc] at hx
          exact hx
        rw [← heq] at hmem
        obtain hcon | hcon := hmem
        · exact absurd (congrArg Prod.fst hcon) hqp
        · exact absurd (congrArg Prod.fst hcon) hqc
    · rintro ⟨rfl, rfl⟩
      exact hf₀
  rw [hcount₀, hheld, refCount, hone, Set.ncard_singleton]

/-- The child does something in its own space. It gives a frame up only where
two hold it. -/
theorem Sharing.child_step (hS : Sharing p c (fun f => (m₀.page f).refCount) G₀ G)
    (h₀ : Inv m₀ G₀) (h : Inv m G) (hpc : p ≠ c) (hc₀ : ∀ n, G₀.mapped (c, n) = none)
    (hF : Frame (· = c) m G m' G') (hheld : G'.held = G.held)
    (hkeep : ∀ n f, G.mapped (c, n) = some f →
      G'.mapped (c, n) = some f ∨ (m.page f).refCount = 2) :
    Sharing p c (fun f => (m₀.page f).refCount) G₀ G' := by
  refine ⟨hS.toKept.frame hpc hF hheld, ?_, by rw [spare_frame hF hheld, hS.count]⟩
  intro n f₀ hf₀
  obtain hc | hone := hS.child n f₀ hf₀
  · obtain hsame | htwo := hkeep n f₀ hc
    · exact .inl hsame
    · obtain ⟨f, hf, rfl | ⟨hone, -⟩⟩ := hS.parent n f₀ hf₀
      · exact .inr (hS.two_sharers h₀ h hpc hc₀ hf₀ hf hc htwo)
      · exact .inr hone
  · exact .inr hone

/-- When a page of the parent goes from the frame `f` to the free frame `g`, the
two change places, provided that only the child may still use `f`. -/
theorem spare_exchange (h : Inv m G) (hpc : p ≠ c) {n f g : Nat} (hf : G.mapped (p, n) = some f)
    (hg : G.role g = .free) (hrole : G'.role = Function.update G.role g .data)
    (htab : G'.tab = G.tab) (hheld : G'.held = G.held)
    (hmap : G'.mapped = Function.update G.mapped (p, n) (some g)) (hzero : G.held f = 0)
    (hclaim : ∀ q k, q ≠ p → q ≠ c → G.mapped (q, k) ≠ some f) :
    spare c G' = insert f (spare c G \ {g}) := by
  have hdata := mapped_role h hf
  have hgf : g ≠ f := by
    rintro rfl
    simp [hdata] at hg
  have hmap_ne : ∀ x, x ≠ (p, n) → G'.mapped x = G.mapped x := by
    intro x hx
    rw [hmap, Function.update_of_ne hx]
  have hmap_n : G'.mapped (p, n) = some g := by rw [hmap, Function.update_self]
  ext x
  by_cases hxf : x = f
  · subst hxf
    refine iff_of_true ?_ (Set.mem_insert _ _)
    have hrole' : G'.role x = .data := by rw [hrole, Function.update_of_ne (Ne.symm hgf), hdata]
    rintro (hk | ⟨q, l, k, -, ht⟩ | ⟨q, -, hv⟩ | hh | ⟨q, k, hqc, hk⟩)
    · simp [hrole'] at hk
    · rw [htab] at ht
      simp [(h.trees.role _ _ _ _).mp ht] at hdata
    · simp [hrole'] at hv
    · exact hh (by rw [hheld, hzero])
    · by_cases hqp : q = p
      · subst hqp
        by_cases hkn : k = n
        · subst hkn
          rw [hmap_n] at hk
          exact hgf (Option.some.inj hk)
        · rw [hmap_ne _ (by simpa using hkn)] at hk
          exact hkn (mapped_inj h hk hf)
      · rw [hmap_ne _ (fun hcon => hqp (congrArg Prod.fst hcon))] at hk
        exact hclaim q k hqp hqc hk
  · by_cases hxg : x = g
    · subst hxg
      refine iff_of_false ?_ ?_
      · exact fun hcon => hcon (.inr (.inr (.inr (.inr ⟨p, n, hpc, hmap_n⟩))))
      · simp [hxf]
    · have hsame : ∀ y, G'.mapped y = some x ↔ G.mapped y = some x := by
        intro y
        by_cases hy : y = (p, n)
        · subst hy
          rw [hmap_n, hf]
          simp [Ne.symm hxg, Ne.symm hxf]
        · rw [hmap_ne y hy]
      have hused : UsedBeside c G' x ↔ UsedBeside c G x := by
        unfold UsedBeside
        rw [htab, hheld, hrole, Function.update_of_ne hxg]
        simp only [hsame]
      simp only [spare, Set.mem_ofPred_eq, Set.mem_insert_iff, hxf, false_or, Set.mem_sdiff,
        Set.mem_singleton_iff, hxg, not_false_eq_true, and_true, hused]

/-- The parent gets a copy of a page: a free frame in place of one that, without
the parent, only the child may still use. -/
theorem Sharing.parent_copy (hS : Sharing p c (fun f => (m₀.page f).refCount) G₀ G)
    (h₀ : Inv m₀ G₀) (h : Inv m G) (hpc : p ≠ c) (hc₀ : ∀ n, G₀.mapped (c, n) = none)
    {n f g : Nat} (hf : G.mapped (p, n) = some f) (htwo : (m.page f).refCount = 2)
    (hg : G.role g = .free) (hrole : G'.role = Function.update G.role g .data)
    (htab : G'.tab = G.tab) (hheld : G'.held = G.held)
    (hmap : G'.mapped = Function.update G.mapped (p, n) (some g)) :
    Sharing p c (fun f => (m₀.page f).refCount) G₀ G' := by
  obtain ⟨f₀, hf₀⟩ : ∃ f₀, G₀.mapped (p, n) = some f₀ := by
    by_contra hcon
    have hnone : G₀.mapped (p, n) = none := by
      cases hx : G₀.mapped (p, n) with
      | none => rfl
      | some f₀ => exact absurd ⟨f₀, hx⟩ hcon
    rw [hS.unmapped n hnone] at hf
    cases hf
  have hmap_ne : ∀ x, x ≠ (p, n) → G'.mapped x = G.mapped x := by
    intro x hx
    rw [hmap, Function.update_of_ne hx]
  -- the frame the page had was the parent's alone, or took the place of one that was
  have hcase : (m₀.page f₀).refCount = 1 ∧ Unclaimed p c G₀ f := by
    obtain ⟨f', hf', hor⟩ := hS.parent n f₀ hf₀
    obtain rfl : f' = f := by
      rw [hf] at hf'
      exact (Option.some.inj hf').symm
    obtain rfl | hor := hor
    · have hone : (m₀.page f').refCount = 1 := by
        obtain hc | hone := hS.child n f' hf₀
        · exact hS.two_sharers h₀ h hpc hc₀ hf₀ hf hc htwo
        · exact hone
      have hcount₀ := h₀.refs.count f' (mapped_role h₀ hf₀)
      have hpos := refCount_pos h₀.refs.finite hf₀
      refine ⟨hone, by omega, fun q k hqp _ hq => ?_⟩
      have hsame := eq_of_refCount_le_one h₀.refs.finite (f := f') (by omega) hq hf₀
      exact hqp (congrArg Prod.fst hsame)
    · exact hor
  obtain ⟨hone, hheld₀, hclaim⟩ := hcase
  have hfresh : Unclaimed p c G₀ g := by
    refine ⟨?_, fun q k hqp hqc hq => ?_⟩
    · rw [← hS.held]
      exact h.refs.held g (by simp [hg])
    · rw [← hS.others q k hqp hqc] at hq
      simp [mapped_role h hq] at hg
  refine ⟨⟨by rw [hheld, hS.held], ?_, ?_, ?_⟩, ?_, ?_⟩
  · intro q k hqp hqc
    rw [hmap_ne _ (fun hcon => hqp (congrArg Prod.fst hcon)), hS.others q k hqp hqc]
  · intro k hk
    have hkn : (p, k) ≠ (p, n) := by
      intro hcon
      rw [hcon, hf₀] at hk
      cases hk
    rw [hmap_ne _ hkn, hS.unmapped k hk]
  · intro k fk hk
    by_cases hkn : k = n
    · subst hkn
      obtain rfl : f₀ = fk := by
        rw [hf₀] at hk
        exact Option.some.inj hk
      exact ⟨g, by rw [hmap, Function.update_self], .inr ⟨hone, hfresh⟩⟩
    · obtain ⟨f', hf', hor⟩ := hS.parent k fk hk
      exact ⟨f', by rw [hmap_ne _ (by simpa using hkn), hf'], hor⟩
  · intro k fk hk
    obtain hc | hone := hS.child k fk hk
    · exact .inl (by rw [hmap_ne _ (fun hcon => hpc (congrArg Prod.fst hcon).symm), hc])
    · exact .inr hone
  · have hswap := spare_exchange h hpc hf hg hrole htab hheld hmap (by rw [hS.held, hheld₀])
      (fun q k hqp hqc => by rw [hS.others q k hqp hqc]; exact hclaim q k hqp hqc)
    have hfin := spare_finite (c := c) h
    have hfnot : f ∉ spare c G := fun hcon => hcon (.inr (.inr (.inr (.inr ⟨p, n, hpc, hf⟩))))
    have hgin : g ∈ spare c G := free_not_usedBeside h hg
    rw [hswap, Set.ncard_exchange hfnot hgin, hS.count]

/-- Right after `fork`. -/
theorem Sharing.start {rc₀ : Nat → Nat} (hpc : p ≠ c) (hF : Frame (· = c) m₀ G₀ m G)
    (hheld : G.held = G₀.held) (hc : ∀ n, G.mapped (c, n) = G₀.mapped (p, n)) :
    Sharing p c rc₀ G₀ G := by
  refine ⟨⟨hheld, fun q n _ hqc => hF.mapped q n hqc, ?_, ?_⟩, ?_, by rw [spare_frame hF hheld]⟩
  · intro n hn
    rw [hF.mapped p n hpc, hn]
  · intro n f₀ hf₀
    exact ⟨f₀, by rw [hF.mapped p n hpc, hf₀], .inl rfl⟩
  · intro n f₀ hf₀
    exact .inl (by rw [hc, hf₀])

/-- Once the child is gone, every page of the parent has the count it had. -/
theorem Kept.counts (hK : Kept p c (fun f => (m₀.page f).refCount) G₀ G)
    (h₀ : Inv m₀ G₀) (h : Inv m G) (hc₀ : ∀ n, G₀.mapped (c, n) = none)
    (hc : ∀ n, G.mapped (c, n) = none) {n f₀ : Nat} (hf₀ : G₀.mapped (p, n) = some f₀) :
    ∃ f, G.mapped (p, n) = some f ∧ (m.page f).refCount = (m₀.page f₀).refCount ∧
      (f = f₀ ∨ (m₀.page f₀).refCount = 1) := by
  obtain ⟨f, hf, hor⟩ := hK.parent n f₀ hf₀
  refine ⟨f, hf, ?_, hor.imp_right And.left⟩
  have hcount := h.refs.count f (mapped_role h hf)
  have hcount₀ := h₀.refs.count f₀ (mapped_role h₀ hf₀)
  obtain rfl | ⟨hone, hheld, hclaim⟩ := hor
  · have hrefs : refs G.mapped f = refs G₀.mapped f := by
      ext ⟨q, k⟩
      change G.mapped (q, k) = some f ↔ G₀.mapped (q, k) = some f
      by_cases hqp : q = p
      · subst hqp
        refine ⟨fun hk => ?_, fun hk => ?_⟩
        · rw [mapped_inj h hk hf, hf₀]
        · rw [mapped_inj h₀ hk hf₀, hf]
      · by_cases hqc : q = c
        · subst hqc
          rw [hc, hc₀]
        · rw [hK.others q k hqp hqc]
    rw [hcount, hcount₀, refCount, refCount, hrefs, hK.held]
  · have hrefs : refs G.mapped f = {(p, n)} := by
      ext ⟨q, k⟩
      refine ⟨fun hk => ?_, ?_⟩
      · have hk : G.mapped (q, k) = some f := hk
        by_cases hqp : q = p
        · subst hqp
          rw [mapped_inj h hk hf]
          exact Set.mem_singleton _
        · by_cases hqc : q = c
          · subst hqc
            rw [hc] at hk
            cases hk
          · rw [hK.others q k hqp hqc] at hk
            exact absurd hk (hclaim q k hqp hqc)
      · rintro ⟨rfl, rfl⟩
        exact hf
    rw [hcount, refCount, hrefs, Set.ncard_singleton, hK.held, hheld, hone]

end Sharing

end X86Kernel.Kern
