import X86Kernel.Paging.Walk

/-!
`init_pages_for_process` and the kernel's `map`. The four branches of the first
are one descent that makes the missing tables; on the linear map the second
rewrites an entry with what it holds already.
-/

namespace X86Kernel.Paging

open Lib

theorem Mem.set_setFrame_comm (m : Mem) {t f : Nat} (i : Nat) (w : Word) (ws : Nat → Word)
    (h : t ≠ f) : (m.set t i w).setFrame f ws = (m.setFrame f ws).set t i w := by
  unfold Mem.set Mem.setFrame
  congr 1
  rw [Function.update_comm h.symm]
  simp [Function.update_of_ne h]

/-- The entry on the way down, made when it is missing. -/
def Mem.ensure (m : Mem) (t i : Nat) : Option (Nat × Mem) :=
  if present (m.word t i) then some (frameOf (m.word t i), m) else Mem.newTable 7 true m t i

theorem Mem.newTable_zero {m m' : Mem} {t i f : Nat}
    (h : Mem.newTable 7 true m t i = some (f, m')) : m'.word f = fun _ => 0 := by
  unfold Mem.newTable at h
  obtain ⟨⟨a, m₁⟩, -, h⟩ := Option.bind_eq_some_iff.mp h
  simp only [if_true, Option.some.injEq, Prod.mk.injEq] at h
  obtain ⟨rfl, rfl⟩ := h
  simp

theorem Mem.ensure_present {m : Mem} {t i : Nat} (h : present (m.word t i) = true) :
    m.ensure t i = some (frameOf (m.word t i), m) := if_pos h

theorem Mem.ensure_absent {m : Mem} {t i : Nat} (h : ¬ present (m.word t i) = true) :
    m.ensure t i = Mem.newTable 7 true m t i := if_neg h

/-- Below a new table every entry is missing. -/
theorem Mem.ensure_new {m m' : Mem} {t i f : Nat}
    (h : Mem.newTable 7 true m t i = some (f, m')) (j : Nat) :
    m'.ensure f j = Mem.newTable 7 true m' f j := by
  apply Mem.ensure_absent
  rw [Mem.newTable_zero h, present_zero]
  exact Bool.false_ne_true

/-- The branches of `init_pages_for_process` are one descent. -/
theorem Mem.mapAt_eq (m : Mem) (vaddr phy pml4 : Nat) :
    Mem.mapAt 7 true m vaddr phy pml4 = (m.ensure pml4 (idx vaddr 39)).bind fun r3 =>
      (r3.2.ensure r3.1 (idx vaddr 30)).bind fun r2 =>
      (r2.2.ensure r2.1 (idx vaddr 21)).bind fun r1 =>
      some (r1.2.set r1.1 (idx vaddr 12) (entry phy 7)) := by
  unfold Mem.mapAt
  dsimp only
  by_cases h4 : present (m.word pml4 (idx vaddr 39)) = true
  · rw [if_pos h4, Mem.ensure_present h4, Option.bind_some]
    by_cases h3 : present (m.word (frameOf (m.word pml4 (idx vaddr 39))) (idx vaddr 30)) = true
    · rw [if_pos h3, Mem.ensure_present h3, Option.bind_some]
      by_cases h2 : present (m.word (frameOf (m.word (frameOf (m.word pml4 (idx vaddr 39)))
          (idx vaddr 30))) (idx vaddr 21)) = true
      · rw [if_pos h2, Mem.ensure_present h2, Option.bind_some]
      · rw [if_neg h2, Mem.ensure_absent h2]
        rfl
    · rw [if_neg h3, Mem.ensure_absent h3]
      apply Option.bind_congr
      rintro ⟨p2, m₂⟩ hn
      rw [Mem.ensure_new hn]
      rfl
  · rw [if_neg h4, Mem.ensure_absent h4]
    apply Option.bind_congr
    rintro ⟨p3, m₃⟩ hn
    rw [Mem.ensure_new hn]
    apply Option.bind_congr
    rintro ⟨p2, m₂⟩ hn'
    rw [Mem.ensure_new hn']
    rfl

/-- A frame fresh from the list, cleared, becomes the table behind entry `i` of
`t`. -/
theorem Inv.hangFresh {m m₁ : Mem} {G : Ghost} (h : Inv m G) {p l k t i f : Nat}
    (hfree : G.role f = .free) (hw : m₁.word = m.word) (hkp : m₁.kpml4 = m.kpml4)
    (hrc : (m₁.page f).refCount = 1) (h₁ : Inv m₁ ((G.setRole f .data).setHeld f 1))
    (ht : G.tab (p, l + 1, k) = some t) (hi : i < 512) (hkey : k * 512 + i < keys l)
    (hnone : G.tab (p, l, k * 512 + i) = none) :
    ∃ G', Inv ((m₁.memset0 f).set t i (tableWord (some f))) G' ∧
      Grows p m G ((m₁.memset0 f).set t i (tableWord (some f))) G' ∧ G'.leaf = G.leaf ∧
      G'.held = G.held ∧ G'.tab = Function.update G.tab (p, l, k * 512 + i) (some f) := by
  have hl : l < 3 := by
    have := h.trees.level_le (p := p) (l := l + 1) (k := k) (by simp [ht])
    omega
  have htrole := (h.trees.role _ _ _ _).mp ht
  have h₂ := h₁.setFrame (f := f) (by simp [Ghost.setHeld, Ghost.setRole])
    (by simp [Ghost.setHeld, Ghost.setRole]) (fun _ => 0)
  have ht₁ : ((G.setRole f .data).setHeld f 1).tab (p, l + 1, k) = some t := ht
  have h₃ := h₂.hang (f := f) ht₁ hi hkey hnone (by simp [Ghost.setHeld, Ghost.setRole])
    (by simpa using hrc) (by simp [Ghost.setHeld]) (by simp)
  refine ⟨_, h₃, ⟨?_, ?_, ?_, hkp⟩, rfl, ?_, rfl⟩
  · intro g hg
    have hne : g ≠ f := by
      rintro rfl
      exact hg hfree
    simp [Ghost.setTab, Ghost.setHeld, Ghost.setRole, hne]
  · intro g hg
    by_cases hgf : g = f
    · exact Or.inr ⟨l, k * 512 + i, hl, by
        simp [Ghost.setTab, Ghost.setHeld, Ghost.setRole, hgf]⟩
    · exact Or.inl (by simp [Ghost.setTab, Ghost.setHeld, Ghost.setRole, hgf, hg])
  · intro g hg hnt
    have hgf : g ≠ f := by
      rintro rfl
      exact hg hfree
    have hgt : g ≠ t := by
      rintro rfl
      exact hnt _ _ _ htrole
    rw [Mem.set_word_of_ne _ _ hgt, Mem.memset0, Mem.setFrame_word_of_ne _ _ hgf, hw]
  · have hzero := h.refs.held f (by simp [hfree])
    funext g
    by_cases hg : g = f <;> simp [Ghost.setTab, Ghost.setHeld, Ghost.setRole, hg, hzero]

/-- Frames come off the free list, and what stays on it is not written. -/
def Draws (m : Mem) (G : Ghost) (m' : Mem) (G' : Ghost) : Prop :=
  ∀ g, G'.role g = .free → G.role g = .free ∧ m'.word g = m.word g

theorem Draws.refl (m : Mem) (G : Ghost) : Draws m G m G := fun _ hg => ⟨hg, rfl⟩

theorem Draws.trans {m₁ m₂ m₃ : Mem} {G₁ G₂ G₃ : Ghost} (h : Draws m₁ G₁ m₂ G₂)
    (h' : Draws m₂ G₂ m₃ G₃) : Draws m₁ G₁ m₃ G₃ := by
  intro g hg
  obtain ⟨hmid, hword'⟩ := h' g hg
  obtain ⟨hold, hword⟩ := h g hmid
  exact ⟨hold, by rw [hword', hword]⟩

/-- A frame that is in use stays in use. -/
theorem Grows.free {p : Nat} {m m' : Mem} {G G' : Ghost} (h : Grows p m G m' G') {g : Nat}
    (hg : G'.role g = .free) : G.role g = .free := by
  by_contra hcon
  rw [h.role g hcon] at hg
  exact hcon hg

/-- One step of the descent. Only the entry, if missing, and frames from the
free list are touched. -/
theorem Inv.ensure {m m' : Mem} {G : Ghost} (h : Inv m G) {p l k t i f : Nat}
    (ht : G.tab (p, l + 1, k) = some t) (hi : i < 512) (hkey : k * 512 + i < keys l)
    (hrun : m.ensure t i = some (f, m')) :
    ∃ G', Inv m' G' ∧ Grows p m G m' G' ∧ G'.leaf = G.leaf ∧ G'.held = G.held ∧
      G'.tab (p, l, k * 512 + i) = some f ∧ Draws m G m' G' := by
  have hword := h.trees.link p l k t i ht hi hkey
  cases htab : G.tab (p, l, k * 512 + i) with
  | some f' =>
      rw [htab] at hword
      have hpres : present (m.word t i) = true := by simp [hword]
      rw [Mem.ensure_present hpres, hword, tableWord_some_frame (h.tab_lt htab)] at hrun
      obtain ⟨rfl, rfl⟩ : f' = f ∧ m = m' := by simpa using hrun
      exact ⟨G, h, Grows.refl p m G, rfl, rfl, htab, Draws.refl m G⟩
  | none =>
      rw [htab] at hword
      have hpres : ¬ present (m.word t i) = true := by simp [hword]
      rw [Mem.ensure_absent hpres] at hrun
      obtain ⟨⟨a, m₁⟩, halloc, hrun⟩ := Option.bind_eq_some_iff.mp hrun
      obtain ⟨f', hfree, rfl, hw, hkp, hrc, h₁⟩ := h.alloc halloc
      have htf : t ≠ f' := by
        rintro rfl
        simp [(h.trees.role _ _ _ _).mp ht] at hfree
      have hidx := frame_div f'
      simp only [if_true, Option.some.injEq, Prod.mk.injEq, hidx] at hrun
      obtain ⟨rfl, rfl⟩ := hrun
      obtain ⟨G', h', hg, hleaf, hheld, htab'⟩ :=
        h.hangFresh hfree hw hkp hrc h₁ ht hi hkey htab
      rw [Mem.memset0, Mem.set_setFrame_comm _ _ _ _ htf]
      have htab₁ : G'.tab (p, l, k * 512 + i) = some f' := by rw [htab', Function.update_self]
      refine ⟨G', h', hg, hleaf, hheld, htab₁, fun g hgfree => ⟨hg.free hgfree, ?_⟩⟩
      -- neither the table nor the frame it got is on the list
      have hgt : g ≠ t := by
        rintro rfl
        have hold := hg.free hgfree
        simp [(h.trees.role _ _ _ _).mp ht] at hold
      have hgf : g ≠ f' := by
        rintro rfl
        simp [(h'.trees.role _ _ _ _).mp htab₁] at hgfree
      rw [Mem.set_word_of_ne _ _ hgt, Mem.setFrame_word_of_ne _ _ hgf, hw]

/-- The keys of the tables on the way to page `n`. -/
theorem page_keys {n : Nat} (hn : n < userPages) :
    (0 * 512 + n / 134217728 % 512) * 512 + n / 262144 % 512 = n / 262144 ∧
    n / 262144 * 512 + n / 512 % 512 = n / 512 ∧ n / 512 * 512 + n % 512 = n := by
  simp only [userPages] at hn
  omega

/-- The kernel's entry of a PML4 is not part of the tree. -/
theorem Inv.linkKernel {m : Mem} {G : Ghost} (h : Inv m G) {p : Nat}
    (hp : G.tab (p, 3, 0) = some p) (w : Word) : Inv (m.set p 511 w) G := by
  have hprole := (h.trees.role _ _ _ _).mp hp
  refine h.congr_word rfl rfl rfl ?_ ?_
  · intro g hg
    exact m.set_word_of_ne _ (fun hcon => by simp [hcon, hprole] at hg)
  · intro t q l k i ht hi hlast
    rw [Mem.set_word, if_neg]
    rintro ⟨htp, rfl⟩
    rw [htp, hprole] at ht
    obtain ⟨-, rfl, -⟩ : p = q ∧ 3 = l ∧ 0 = k := by simpa using ht
    omega

/-- Where a page is mapped already, `init_pages_for_process` takes no frame. -/
theorem Inv.initPages_mapped {m m' : Mem} {G : Ghost} (h : Inv m G) {p v a : Nat}
    (hp : G.tab (p, 3, 0) = some p) (hv : v / 4096 < userPages)
    (hleaf : G.leaf (p, v / 4096) ≠ none) (hrun : m.initPagesForProcess v a p = some m') :
    m'.page = m.page ∧ m'.head = m.head := by
  have h₀ := h.linkKernel hp (entry (addrOf (m.word m.kpml4 511)) 7)
  have htab := h.trees.leaf _ _ hleaf
  obtain ⟨hmid, hdir⟩ := h.trees.above htab
  obtain ⟨t0, ht0⟩ := Option.ne_none_iff_exists'.mp htab
  obtain ⟨t1, ht1⟩ := Option.ne_none_iff_exists'.mp hmid
  obtain ⟨t2, ht2⟩ := Option.ne_none_iff_exists'.mp hdir
  unfold Mem.initPagesForProcess at hrun
  rw [Mem.mapAt_eq] at hrun
  simp only [idx_39, idx_30, idx_21, idx_12] at hrun
  have hw2 := h₀.word_top hp hv
  have hw1 := h₀.word_dir ht2 hv
  have hw0 := h₀.word_mid ht1 hv
  rw [ht2] at hw2
  rw [ht1] at hw1
  rw [ht0] at hw0
  rw [Mem.ensure_present (by rw [hw2]; simp), hw2, tableWord_some_frame (h.tab_lt ht2),
    Option.bind_some] at hrun
  dsimp only at hrun
  rw [Mem.ensure_present (by rw [hw1]; simp), hw1, tableWord_some_frame (h.tab_lt ht1),
    Option.bind_some] at hrun
  dsimp only at hrun
  rw [Mem.ensure_present (by rw [hw0]; simp), hw0, tableWord_some_frame (h.tab_lt ht0),
    Option.bind_some] at hrun
  obtain rfl := Option.some.inj hrun
  exact ⟨rfl, rfl⟩

/-- `init_pages_for_process` maps the one page: the frame it gets must be in
the kernel's hands and nowhere else. A frame mapped there before is left in the
kernel's hands. -/
theorem Inv.initPages {m m' : Mem} {G : Ghost} (h : Inv m G) {p v f : Nat}
    (hp : G.tab (p, 3, 0) = some p) (hv : v / 4096 < userPages) (hf : G.role f = .data)
    (hrc : (m.page f).refCount = 1) (hheld : G.held f = 1)
    (hrun : m.initPagesForProcess v (f * 4096) p = some m') :
    ∃ G', Inv m' G' ∧ Grows p m G m' G' ∧
      G'.leaf = Function.update G.leaf (p, v / 4096) (some ⟨f, true⟩) ∧
      (∀ g, G'.held g = if g = f then 0
        else G.held g + if G.mapped (p, v / 4096) = some g then 1 else 0) ∧
      Draws m G m' G' := by
  have hprole := (h.trees.role _ _ _ _).mp hp
  have h₀ := h.linkKernel hp (entry (addrOf (m.word m.kpml4 511)) 7)
  have hg₀ : Grows p m G (m.set p 511 (entry (addrOf (m.word m.kpml4 511)) 7)) G := by
    refine ⟨fun _ _ => rfl, fun _ hg => Or.inl hg, ?_, rfl⟩
    intro g _ hnt
    exact m.set_word_of_ne _ (fun hcon => hnt p 3 0 (by rw [hcon, hprole]))
  have hd₀ : Draws m G (m.set p 511 (entry (addrOf (m.word m.kpml4 511)) 7)) G := by
    refine fun g hgfree => ⟨hgfree, m.set_word_of_ne _ ?_⟩
    rintro rfl
    simp [hprole] at hgfree
  unfold Mem.initPagesForProcess at hrun
  rw [Mem.mapAt_eq] at hrun
  simp only [idx_39, idx_30, idx_21, idx_12] at hrun
  generalize v / 4096 = n at *
  have hn : n < 68585259008 := hv
  obtain ⟨⟨p3, m₃⟩, hrun₃, hrun⟩ := Option.bind_eq_some_iff.mp hrun
  obtain ⟨⟨p2, m₂⟩, hrun₂, hrun⟩ := Option.bind_eq_some_iff.mp hrun
  obtain ⟨⟨p1, m₁⟩, hrun₁, hrun⟩ := Option.bind_eq_some_iff.mp hrun
  obtain rfl := Option.some.inj hrun
  obtain ⟨G₃, h₃, hg₃, hleaf₃, hheld₃, ht₃, hd₃⟩ := h₀.ensure hp
    (show n / 134217728 % 512 < 512 by omega) (by simp only [keys]; omega) hrun₃
  obtain ⟨G₂, h₂, hg₂, hleaf₂, hheld₂, ht₂, hd₂⟩ := h₃.ensure ht₃
    (show n / 262144 % 512 < 512 by omega) (by simp only [keys]; omega) hrun₂
  obtain ⟨G₁, h₁, hg₁, hleaf₁, hheld₁, ht₁, hd₁⟩ := h₂.ensure ht₂
    (show n / 512 % 512 < 512 by omega) (by simp only [keys]; omega) hrun₁
  have hg := ((hg₀.trans hg₃).trans hg₂).trans hg₁
  have hleaf : G₁.leaf = G.leaf := by rw [hleaf₁, hleaf₂, hleaf₃]
  have hheld' : G₁.held = G.held := by rw [hheld₁, hheld₂, hheld₃]
  have hmapped : G₁.mapped = G.mapped := by
    unfold Ghost.mapped
    rw [hleaf]
  have hrole : G₁.role f = .data := by rw [hg.role f (by simp [hf]), hf]
  -- the count of the frame is what its references say, so it is still one
  have hrc₁ : (m₁.page f).refCount = 1 := by
    rw [h₁.refs.count f hrole, hmapped, hheld', ← h.refs.count f hf, hrc]
  obtain ⟨hkey, hkey', hkey''⟩ := page_keys hv
  rw [hkey, hkey'] at ht₁
  have hlast := h₁.setLeaf ht₁ (show n % 512 < 512 by omega) (v := some ⟨f, true⟩)
    (fun g => if g = f then 0
      else G.held g + if G.mapped (p, n) = some g then 1 else 0) ?_ ?_
  · rw [hkey''] at hlast
    have htrole := (h₁.trees.role _ _ _ _).mp ht₁
    refine ⟨_, hlast, hg.trans ⟨fun _ _ => rfl, fun _ hg => Or.inl hg, ?_, rfl⟩, ?_, fun g => rfl,
      (((hd₀.trans hd₃).trans hd₂).trans hd₁).trans fun g hgfree => ⟨hgfree, ?_⟩⟩
    · intro g _ hnt
      exact Mem.set_word_of_ne _ _ (fun hcon => hnt p 0 (n / 512) (by rw [hcon, htrole]))
    · dsimp only
      rw [hleaf]
    · refine Mem.set_word_of_ne _ _ ?_
      rintro rfl
      simp [htrole] at hgfree
  · rintro e he
    obtain rfl := Option.some.inj he
    refine ⟨hrole, fun _ => hrc₁, ?_⟩
    intro n' e' _ he'
    exact h₁.refs.unmapped_of_held hrole (by rw [hheld', hheld]; exact hrc₁.le) he'
  · intro g
    rw [hkey'', hmapped, hheld']
    have hnot : G.mapped (p, n) ≠ some f := by
      intro hcon
      obtain ⟨e, he, hef⟩ := Option.map_eq_some_iff.mp hcon
      exact h.refs.unmapped_of_held hf (by omega) he hef
    by_cases hgf : g = f
    · subst hgf
      simp [hnot, hheld]
    · simp [hgf, Ne.symm hgf]

theorem Mem.set_self (m : Mem) (t i : Nat) : m.set t i (m.word t i) = m := by
  unfold Mem.set
  simp

/-- On the linear map `map` changes nothing. -/
theorem Linear.map {m : Mem} {role : Nat → Role} (h : Linear m role) {f : Nat}
    (hf : role f ≠ .kernel) : m.map (kernBase + f * 4096) (f * 4096) = some m := by
  obtain ⟨h4, h3, h2, -, -, -, -, hleaf⟩ := h f hf
  unfold Mem.map Mem.mapAt
  dsimp only
  rw [if_pos h4, if_pos h3, if_pos h2, ← hleaf, Mem.set_self]

theorem Inv.allocForProcess {m m' : Mem} {G : Ghost} {a : Nat} (h : Inv m G)
    (halloc : m.allocatePageForProcess = some (a, m')) :
    ∃ f, G.role f = .free ∧ a = kernBase + f * 4096 ∧ m'.word = m.word ∧
      m'.kpml4 = m.kpml4 ∧ (m'.page f).refCount = 1 ∧
      Inv m' ((G.setRole f .data).setHeld f 1) := by
  obtain ⟨⟨ax, m₁⟩, halloc, hmap⟩ := Option.bind_eq_some_iff.mp halloc
  obtain ⟨f, hfree, rfl, hw, hkp, hrc, h₁⟩ := h.alloc halloc
  have hnoop := h₁.linear.map (f := f) (by simp [Ghost.setHeld, Ghost.setRole])
  simp only [hnoop, Option.bind_eq_bind, Option.bind_some, Option.some.injEq,
    Prod.mk.injEq] at hmap
  obtain ⟨rfl, rfl⟩ := hmap
  exact ⟨f, hfree, rfl, hw, hkp, hrc, h₁⟩

end X86Kernel.Paging
