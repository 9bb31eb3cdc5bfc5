import X86Kernel.Paging.Dealloc

/-!
`copytables`: the child gets its own tables and the same frames. Every entry
that is copied loses its write bit in both address spaces, and the frame it
names gains one reference.
-/

namespace X86Kernel.Paging

open Lib

@[simp] theorem Pte.share_frame (e : Pte) : e.share.frame = e.frame := rfl

@[simp] theorem map_share_frame (o : Option Pte) :
    (o.map Pte.share).map Pte.frame = o.map Pte.frame := by
  cases o <;> rfl

/-- The view of the pages after the first `i` entries of the tables with level
`l` and key `k` have been shared between `p` and `c`. -/
def shareUpTo (p c l k i : Nat) (leaf : Nat × Nat → Option Pte) : Nat × Nat → Option Pte :=
  fun x => if (x.1 = p ∨ x.1 = c) ∧ k * 512 ≤ pageKey l x.2 ∧ pageKey l x.2 < k * 512 + i
    then (leaf (p, x.2)).map Pte.share else leaf x

theorem shareUpTo_zero (p c l k : Nat) (leaf : Nat × Nat → Option Pte) :
    shareUpTo p c l k 0 leaf = leaf := by
  funext x
  unfold shareUpTo
  rw [if_neg (by omega)]

theorem shareUpTo_succ (p c l k i : Nat) (leaf : Nat × Nat → Option Pte) (x : Nat × Nat) :
    shareUpTo p c l k (i + 1) leaf x =
      if (x.1 = p ∨ x.1 = c) ∧ pageKey l x.2 = k * 512 + i then (leaf (p, x.2)).map Pte.share
      else shareUpTo p c l k i leaf x := by
  unfold shareUpTo
  exact if_upTo_succ _ k i (pageKey l x.2) ((leaf (p, x.2)).map Pte.share) (leaf x)

/-- Pages behind later entries are as they were. -/
theorem shareUpTo_of_key {p c l k i : Nat} (leaf : Nat × Nat → Option Pte) {x : Nat × Nat}
    (hx : pageKey l x.2 = k * 512 + i) : shareUpTo p c l k i leaf x = leaf x := by
  unfold shareUpTo
  rw [if_neg (by omega)]

theorem shareUpTo_entries {p c l k : Nat} (hl : l < 3) (leaf : Nat × Nat → Option Pte)
    (x : Nat × Nat) :
    shareUpTo p c l k (Mem.entries l) leaf x =
      if (x.1 = p ∨ x.1 = c) ∧ pageKey (l + 1) x.2 = k then (leaf (p, x.2)).map Pte.share
      else leaf x := by
  have hiff : (k * 512 ≤ pageKey l x.2 ∧ pageKey l x.2 < k * 512 + Mem.entries l) ↔
      pageKey (l + 1) x.2 = k := by
    rw [Mem.entries, if_neg (by omega), pageKey_succ]
    omega
  unfold shareUpTo
  simp only [hiff]

/-- An entry with nothing behind it in either space. -/
theorem shareUpTo_skip {p c l k i : Nat} {leaf : Nat × Nat → Option Pte}
    (hp : ∀ n, pageKey l n = k * 512 + i → leaf (p, n) = none)
    (hc : ∀ n, pageKey l n = k * 512 + i → leaf (c, n) = none) :
    shareUpTo p c l k (i + 1) leaf = shareUpTo p c l k i leaf := by
  funext x
  obtain ⟨q, n⟩ := x
  rw [shareUpTo_succ]
  split_ifs with hx
  · obtain ⟨hq, hn⟩ := hx
    rw [shareUpTo_of_key leaf hn, hp n hn]
    obtain rfl | rfl := hq
    · rw [hp n hn]
      rfl
    · rw [hc n hn]
      rfl
  · rfl

/-- One pass over the table behind entry `i`. -/
theorem shareUpTo_table {p c l k i : Nat} (hl : l < 3) (leaf : Nat × Nat → Option Pte) :
    shareUpTo p c l (k * 512 + i) (Mem.entries l) (shareUpTo p c (l + 1) k i leaf) =
      shareUpTo p c (l + 1) k (i + 1) leaf := by
  funext x
  rw [shareUpTo_entries hl, shareUpTo_succ]
  split_ifs with hx
  · rw [shareUpTo_of_key (x := (p, x.2)) leaf hx.2]
  · rfl

/-- The child `c` maps nothing but what its parent `p` maps. -/
def PartialCopy (p c : Nat) (leaf : Nat × Nat → Option Pte) : Prop :=
  ∀ n, leaf (c, n) = none ∨ (leaf (c, n)).map Pte.frame = (leaf (p, n)).map Pte.frame

theorem PartialCopy.shareUpTo {p c l k i : Nat} {leaf : Nat × Nat → Option Pte}
    (h : PartialCopy p c leaf) : PartialCopy p c (Paging.shareUpTo p c l k i leaf) := by
  intro n
  unfold Paging.shareUpTo
  by_cases hn : k * 512 ≤ pageKey l n ∧ pageKey l n < k * 512 + i
  · simp [hn]
  · simpa [hn] using h n

/-- One entry is shared between parent and child. -/
theorem Inv.shareLeaf {m : Mem} {G : Ghost} (h : Inv m G) {p c k i tp tc : Nat} {e : Pte}
    (hpc : p ≠ c) (hp : G.tab (p, 0, k) = some tp) (hc : G.tab (c, 0, k) = some tc)
    (hi : i < 512) (he : G.leaf (p, k * 512 + i) = some e)
    (hnone : G.leaf (c, k * 512 + i) = none) (hpart : PartialCopy p c G.leaf) :
    ∃ G', Inv (((m.increfcount (e.frame * 4096)).set tp i e.share.word).set tc i e.share.word) G' ∧
      G'.role = G.role ∧ G'.tab = G.tab ∧ G'.held = G.held ∧
      G'.leaf = Function.update (Function.update G.leaf (p, k * 512 + i) (some e.share))
        (c, k * 512 + i) (some e.share) := by
  have hdata := h.refs.target _ e he
  -- first the parent's entry, so that nobody may write the frame
  have h₁ := h.setLeaf hp hi (v := some e.share) G.held ?_ ?_
  rotate_left
  · rintro e' he'
    obtain rfl := Option.some.inj he'
    refine ⟨hdata, by simp [Pte.share], ?_⟩
    intro n' e' hn' he' hcon
    exact hn' (h.refs.inj p n' _ e' e he' he hcon)
  · intro f
    simp [Ghost.mapped, he]
  have h₂ := h₁.incref (f := e.frame) hdata ?_
  rotate_left
  · intro x e' he' ho hcon
    dsimp only at he'
    by_cases hx : x = (p, k * 512 + i)
    · subst hx
      obtain rfl : e.share = e' := by simpa using he'
      simp [Pte.share] at ho
    · rw [Function.update_of_ne hx] at he'
      have hone := h.refs.own x e' he' ho
      have hcount := h.refs.count e'.frame (h.refs.target x e' he')
      refine hx (eq_of_refCount_le_one h.refs.finite (f := e'.frame) (by omega)
        (by simp [Ghost.mapped, he']) (by simp [Ghost.mapped, he, hcon]))
  have hne : (c, k * 512 + i) ≠ (p, k * 512 + i) := by simpa using Ne.symm hpc
  have h₃ := h₂.setLeaf (p := c) (k := k) (t := tc) hc hi (v := some e.share) G.held ?_ ?_
  rotate_left
  · rintro e' he'
    obtain rfl := Option.some.inj he'
    refine ⟨hdata, by simp [Pte.share], ?_⟩
    intro n' e' hn' he' hcon
    have he'' : G.leaf (c, n') = some e' := by
      simpa [Ghost.setHeld, Function.update_of_ne, Ne.symm hpc] using he'
    have hframe : (G.leaf (p, n')).map Pte.frame = some e.frame := by
      obtain hz | hz := hpart n'
      · simp [he''] at hz
      · rw [← hz, he'']
        simpa using hcon
    obtain ⟨e₀, he₀, hfr⟩ := Option.map_eq_some_iff.mp hframe
    exact hn' (h.refs.inj p n' _ e₀ e he₀ he hfr)
  · intro f
    have hold : Function.update G.leaf (p, k * 512 + i) (some e.share) (c, k * 512 + i) =
        none := by rw [Function.update_of_ne hne, hnone]
    simp only [Ghost.mapped, Ghost.setHeld, hold, Option.map_none, Option.map_some,
      Pte.share_frame, Option.some.injEq]
    by_cases hf : f = e.frame
    · simp [hf]
    · simp [hf, Ne.symm hf]
  exact ⟨_, h₃, rfl, rfl, rfl, rfl⟩

/-- Writing entries of tables changes no other frame. -/
theorem Grows.of_tables {c : Nat} {m m' : Mem} {G G' : Ghost} (hrole : G'.role = G.role)
    (hkp : m'.kpml4 = m.kpml4)
    (hword : ∀ g, (∀ q l k, G.role g ≠ .table q l k) → m'.word g = m.word g) :
    Grows c m G m' G' :=
  ⟨fun g _ => by rw [hrole], fun g hg => Or.inl (by rw [hrole, hg]), fun g _ => hword g, hkp⟩

/-- The loop over a pair of page tables. -/
theorem Inv.copyPage {m m' : Mem} {G : Ghost} (h : Inv m G) {p c k tp tc : Nat} (hpc : p ≠ c)
    (hp : G.tab (p, 0, k) = some tp) (hc : G.tab (c, 0, k) = some tc)
    (hpart : PartialCopy p c G.leaf) (hnone : ∀ n, pageKey 1 n = k → G.leaf (c, n) = none)
    (hrun : Mem.copyLevel 0 m tp tc = some m') :
    ∃ G', Inv m' G' ∧ Grows c m G m' G' ∧ G'.tab = G.tab ∧ G'.held = G.held ∧
      G'.leaf = shareUpTo p c 0 k (Mem.entries 0) G.leaf := by
  unfold Mem.copyLevel at hrun
  refine foldlM_range_invariant (P := fun i m₁ => ∃ G₁, Inv m₁ G₁ ∧ Grows c m G m₁ G₁ ∧
    G₁.tab = G.tab ∧ G₁.held = G.held ∧ G₁.leaf = shareUpTo p c 0 k i G.leaf) hrun ?_ ?_
  · exact ⟨G, h, Grows.refl c m G, rfl, rfl, (shareUpTo_zero _ _ _ _ _).symm⟩
  · rintro i m₁ m₂ hi ⟨G₁, h₁, hg₁, htab₁, hheld₁, hleaf₁⟩ hbody
    have hi' : i < 512 := hi
    have hp₁ : G₁.tab (p, 0, k) = some tp := by rw [htab₁, hp]
    have hc₁ : G₁.tab (c, 0, k) = some tc := by rw [htab₁, hc]
    have hword := h₁.trees.page p k tp i hp₁ hi'
    have hpage : ∀ q, G₁.leaf (q, k * 512 + i) = G.leaf (q, k * 512 + i) := by
      intro q
      rw [hleaf₁]
      exact shareUpTo_of_key G.leaf (by simp [pageKey])
    have hchild : G.leaf (c, k * 512 + i) = none := hnone _ (by simp only [pageKey]; omega)
    cases he : G.leaf (p, k * 512 + i) with
    | none =>
        rw [hpage, he] at hword
        rw [hword, leafWord, present_zero, if_neg Bool.false_ne_true] at hbody
        obtain rfl := Option.some.inj hbody
        refine ⟨G₁, h₁, hg₁, htab₁, hheld₁, ?_⟩
        rw [hleaf₁, shareUpTo_skip]
        · rintro n rfl
          exact he
        · rintro n rfl
          exact hchild
    | some e =>
        have he₁ : G₁.leaf (p, k * 512 + i) = some e := by rw [hpage, he]
        rw [he₁] at hword
        have hpres : present (m₁.word tp i) = true := by simp [hword]
        have haddr : addrOf (m₁.word tp i) = e.frame * 4096 := by
          rw [hword]
          exact Pte.addrOf_word (h₁.leaf_lt he₁)
        rw [if_pos hpres] at hbody
        simp only [haddr, Mem.increfcount_word, Mem.set_word_self, Option.some.injEq] at hbody
        rw [hword, leafWord, Pte.share_word] at hbody
        obtain ⟨G₂, h₂, hrole₂, htab₂, hheld₂, hleaf₂⟩ := h₁.shareLeaf hpc hp₁ hc₁ hi' he₁
          (by rw [hpage, hchild]) (by rw [hleaf₁]; exact hpart.shareUpTo)
        rw [hbody] at h₂
        refine ⟨G₂, h₂, hg₁.trans (Grows.of_tables hrole₂ ?_ ?_), by rw [htab₂, htab₁],
          by rw [hheld₂, hheld₁], ?_⟩
        · rw [← hbody]
          rfl
        · intro g hg
          have htp₁ := (h₁.trees.role _ _ _ _).mp hp₁
          have htc₁ := (h₁.trees.role _ _ _ _).mp hc₁
          rw [← hbody, Mem.set_word_of_ne _ _ (fun hcon => hg c 0 k (by rw [hcon, htc₁])),
            Mem.set_word_of_ne _ _ (fun hcon => hg p 0 k (by rw [hcon, htp₁]))]
          rfl
        · funext x
          obtain ⟨q, n⟩ := x
          rw [shareUpTo_succ, hleaf₂, hleaf₁]
          by_cases hxc : (q, n) = (c, k * 512 + i)
          · obtain ⟨rfl, rfl⟩ : q = c ∧ n = k * 512 + i := by simpa using hxc
            simp [pageKey, he]
          · rw [Function.update_of_ne hxc]
            by_cases hxp : (q, n) = (p, k * 512 + i)
            · obtain ⟨rfl, rfl⟩ : q = p ∧ n = k * 512 + i := by simpa using hxp
              simp [pageKey, he]
            · rw [Function.update_of_ne hxp, if_neg]
              rintro ⟨hq, hn⟩
              obtain rfl : n = k * 512 + i := hn
              obtain rfl | rfl := hq
              · exact hxp rfl
              · exact hxc rfl

/-- The child hangs a fresh table behind entry `i`, where the parent has one; the
parent's own entry is as it was. -/
theorem Inv.hangChild {m m₁ : Mem} {G : Ghost} (h : Inv m G) {p c l k i tp tc fp a : Nat}
    (hpc : p ≠ c) (hp : G.tab (p, l + 1, k) = some tp) (hc : G.tab (c, l + 1, k) = some tc)
    (hi : i < 512) (hkey : k * 512 + i < keys l) (hf : G.tab (p, l, k * 512 + i) = some fp)
    (hnone : G.tab (c, l, k * 512 + i) = none)
    (halloc : m.allocatePageForProcess = some (a, m₁)) :
    ∃ f G', a = kernBase + f * 4096 ∧
      Inv ((m₁.memset0 f).set tc i (entry (f * 4096) 7)) G' ∧
      Grows c m G ((m₁.memset0 f).set tc i (entry (f * 4096) 7)) G' ∧
      G'.leaf = G.leaf ∧ G'.held = G.held ∧
      G'.tab = Function.update G.tab (c, l, k * 512 + i) (some f) ∧
      ((m₁.memset0 f).set tc i (entry (f * 4096) 7)).word tp i = tableWord (some fp) := by
  obtain ⟨f, hfree, rfl, hw, hkp, hrc, h₁⟩ := h.allocForProcess halloc
  obtain ⟨G', h', hg, hleaf, hheld, htab⟩ := h.hangFresh hfree hw hkp hrc h₁ hc hi hkey hnone
  refine ⟨f, G', rfl, h', hg, hleaf, hheld, htab, ?_⟩
  have htp := (h.trees.role _ _ _ _).mp hp
  have htc := (h.trees.role _ _ _ _).mp hc
  have hne : tp ≠ tc := by
    rintro rfl
    rw [htp] at htc
    obtain ⟨rfl, -⟩ : p = c ∧ True := by simpa using htc
    exact hpc rfl
  have hnef : tp ≠ f := by
    rintro rfl
    simp [htp] at hfree
  rw [Mem.set_word_of_ne _ _ hne, Mem.memset0, Mem.setFrame_word_of_ne _ _ hnef, hw,
    h.trees.link p l k tp i hp hi hkey, hf]

/-- What the loop over the tables with level `l + 1` and key `k` of parent and child
has done before entry `i`: behind `i` and later entries the child has no table. -/
structure CopiedUpTo (p c l k i : Nat) (m : Mem) (G : Ghost) (m' : Mem) (G' : Ghost) :
    Prop where
  grows : Grows c m G m' G'
  held : G'.held = G.held
  leaf : G'.leaf = shareUpTo p c (l + 1) k i G.leaf
  above (q l' k' : Nat) : l + 1 ≤ l' → G'.tab (q, l', k') = G.tab (q, l', k')
  below (j : Nat) : i ≤ j → j < 512 → G'.tab (c, l, k * 512 + j) = none

theorem CopiedUpTo.zero {p c l k : Nat} {m : Mem} {G : Ghost}
    (hbelow : ∀ j, j < 512 → G.tab (c, l, k * 512 + j) = none) :
    CopiedUpTo p c l k 0 m G m G where
  grows := Grows.refl c m G
  held := rfl
  leaf := (shareUpTo_zero _ _ _ _ _).symm
  above _ _ _ _ := rfl
  below j _ hj := hbelow j hj

/-- The pages behind entry `i` are as they were. -/
theorem CopiedUpTo.page {p c l k i : Nat} {m m₁ : Mem} {G G₁ : Ghost}
    (h : CopiedUpTo p c l k i m G m₁ G₁) {q n : Nat} (hn : pageKey (l + 1) n = k * 512 + i) :
    G₁.leaf (q, n) = G.leaf (q, n) := by
  rw [h.leaf]
  exact shareUpTo_of_key G.leaf hn

/-- The parent has no table behind entry `i`. -/
theorem CopiedUpTo.skip {p c l k i : Nat} {m m₁ : Mem} {G G₁ : Ghost}
    (h : CopiedUpTo p c l k i m G m₁ G₁) (hinv : Inv m₁ G₁) (hl : l < 3) (hi : i < 512)
    (hf : G₁.tab (p, l, k * 512 + i) = none) : CopiedUpTo p c l k (i + 1) m G m₁ G₁ where
  grows := h.grows
  held := h.held
  leaf := by
    rw [h.leaf, shareUpTo_skip]
    · intro n hn
      rw [← h.page hn]
      exact hinv.leaf_none_of_tab (l := l) (by omega) (by rw [hn, hf])
    · intro n hn
      rw [← h.page hn]
      exact hinv.leaf_none_of_tab (l := l) (by omega) (by rw [hn, h.below i le_rfl hi])
  above := h.above
  below j hij hj := h.below j (by omega) hj

/-- The table that the child hung behind entry `i` has been copied. -/
theorem CopiedUpTo.down {p c l k i f : Nat} {m m₁ m₂ m₃ : Mem} {G G₁ G₂ G₃ : Ghost}
    (h : CopiedUpTo p c l k i m G m₁ G₁) (hl : l < 3)
    (hg₂ : Grows c m₁ G₁ m₂ G₂) (hleaf₂ : G₂.leaf = G₁.leaf) (hheld₂ : G₂.held = G₁.held)
    (htab₂ : G₂.tab = Function.update G₁.tab (c, l, k * 512 + i) (some f))
    (hg₃ : Grows c m₂ G₂ m₃ G₃) (hheld₃ : G₃.held = G₂.held)
    (hleaf₃ : G₃.leaf = shareUpTo p c l (k * 512 + i) (Mem.entries l) G₂.leaf)
    (htab₃ : ∀ q l' k', l ≤ l' → G₃.tab (q, l', k') = G₂.tab (q, l', k')) :
    CopiedUpTo p c l k (i + 1) m G m₃ G₃ where
  grows := (h.grows.trans hg₂).trans hg₃
  held := by rw [hheld₃, hheld₂, h.held]
  leaf := by rw [hleaf₃, hleaf₂, h.leaf, shareUpTo_table hl]
  above q l' k' hl' := by
    rw [htab₃ _ _ _ (by omega), htab₂, Function.update_of_ne (by simp; omega), h.above _ _ _ hl']
  below j hij hj := by
    rw [htab₃ _ _ _ le_rfl, htab₂, Function.update_of_ne (by simp; omega),
      h.below j (by omega) hj]

/-- The loops over the tables with level `l` and key `k` of parent and child:
the child had nothing there before. -/
theorem Inv.copyLevel {l : Nat} (hl : l ≤ 3) {m m' : Mem} {G : Ghost} (h : Inv m G)
    {p c k tp tc : Nat} (hpc : p ≠ c) (hp : G.tab (p, l, k) = some tp)
    (hc : G.tab (c, l, k) = some tc) (hpart : PartialCopy p c G.leaf)
    (hnone : ∀ n, pageKey (l + 1) n = k → G.leaf (c, n) = none)
    (hbelow : ∀ l' j, l' + 1 = l → j < 512 → G.tab (c, l', k * 512 + j) = none)
    (hrun : Mem.copyLevel l m tp tc = some m') :
    ∃ G', Inv m' G' ∧ Grows c m G m' G' ∧ G'.held = G.held ∧
      G'.leaf = shareUpTo p c l k (Mem.entries l) G.leaf ∧
      ∀ q l' k', l ≤ l' → G'.tab (q, l', k') = G.tab (q, l', k') := by
  induction l generalizing m m' G k tp tc with
  | zero =>
      obtain ⟨G', h', hg, htab, hheld, hleaf⟩ := h.copyPage hpc hp hc hpart hnone hrun
      exact ⟨G', h', hg, hheld, hleaf, fun _ _ _ _ => by rw [htab]⟩
  | succ l ih =>
      rw [Mem.copyLevel] at hrun
      have hloop := foldlM_range_invariant
        (P := fun i m₁ => ∃ G₁, Inv m₁ G₁ ∧ CopiedUpTo p c l k i m G m₁ G₁) hrun
        ⟨G, h, CopiedUpTo.zero fun j hj => hbelow l j rfl hj⟩ ?_
      · obtain ⟨G', h', hdone⟩ := hloop
        exact ⟨G', h', hdone.grows, hdone.held, hdone.leaf, hdone.above⟩
      · rintro i m₁ m₂ hi ⟨G₁, h₁, hdone⟩ hbody
        have hp₁ : G₁.tab (p, l + 1, k) = some tp := by rw [hdone.above _ _ _ le_rfl, hp]
        have hc₁ : G₁.tab (c, l + 1, k) = some tc := by rw [hdone.above _ _ _ le_rfl, hc]
        have hkey := keys_child (h₁.trees.key p (l + 1) k (by simp [hp₁])) hi
        have hi' : i < 512 := by
          unfold Mem.entries at hi
          split_ifs at hi <;> omega
        have hword := h₁.trees.link p l k tp i hp₁ hi' hkey
        have hcnone := hdone.below i le_rfl hi'
        cases hf : G₁.tab (p, l, k * 512 + i) with
        | none =>
            rw [hf] at hword
            rw [hword, tableWord, present_zero, if_neg Bool.false_ne_true] at hbody
            obtain rfl := Option.some.inj hbody
            exact ⟨G₁, h₁, hdone.skip h₁ (by omega) hi' hf⟩
        | some fp =>
            rw [hf] at hword
            have hpres : present (m₁.word tp i) = true := by simp [hword]
            rw [if_pos hpres] at hbody
            obtain ⟨⟨a, m₃⟩, halloc, hbody⟩ := Option.bind_eq_some_iff.mp hbody
            obtain ⟨f, G₄, rfl, h₄, hg₄, hleaf₄, hheld₄, htab₄, hword₄⟩ :=
              h₁.hangChild hpc hp₁ hc₁ hi' hkey hf hcnone halloc
            have hsub : (kernBase + f * 4096 - kernBase) = f * 4096 :=
              Nat.add_sub_cancel_left _ _
            have hidx := frame_div f
            simp only [hsub, hidx] at hbody
            rw [hword₄, tableWord_some_frame (h₁.tab_lt hf)] at hbody
            have hp₄ : G₄.tab (p, l, k * 512 + i) = some fp := by
              rw [htab₄, Function.update_of_ne (by simp [hpc]), hf]
            have hc₄ : G₄.tab (c, l, k * 512 + i) = some f := by
              rw [htab₄, Function.update_self]
            have hchild : ∀ n, pageKey (l + 1) n = k * 512 + i → G₁.leaf (c, n) = none :=
              fun n hn => h₁.leaf_none_of_tab (l := l) (by omega) (by rw [hn, hcnone])
            have hbelow₄ : ∀ l' j, l' + 1 = l → j < 512 →
                G₄.tab (c, l', (k * 512 + i) * 512 + j) = none := by
              intro l' j hl' hj
              rw [htab₄, Function.update_of_ne (by simp; omega)]
              by_contra hcon
              have hup := h₁.trees.up _ _ _ hcon (by omega)
              rw [hl', key_div hj] at hup
              exact hup hcnone
            obtain ⟨G₅, h₅, hg₅, hheld₅, hleaf₅, htab₅⟩ := ih (by omega) h₄ hp₄ hc₄
              (by rw [hleaf₄, hdone.leaf]; exact hpart.shareUpTo)
              (by rw [hleaf₄]; exact hchild) hbelow₄ hbody
            exact ⟨G₅, h₅, hdone.down (by omega) hg₄ hleaf₄ hheld₄ htab₄ hg₅ hheld₅ hleaf₅ htab₅⟩

/-- `copytables` into an empty address space: parent and child map the same
frames, and neither may write them. -/
theorem Inv.copytables {m m' : Mem} {G : Ghost} (h : Inv m G) {p c : Nat} (hpc : p ≠ c)
    (hp : G.tab (p, 3, 0) = some p) (hc : G.tab (c, 3, 0) = some c)
    (hnone : ∀ n, G.leaf (c, n) = none) (hbelow : ∀ k, G.tab (c, 2, k) = none)
    (hrun : m.copytables p c = some m') :
    ∃ G', Inv m' G' ∧ Grows c m G m' G' ∧ G'.held = G.held ∧
      ∀ q n, G'.leaf (q, n) =
        if q = p ∨ q = c then (G.leaf (p, n)).map Pte.share else G.leaf (q, n) := by
  have hcrole := (h.trees.role _ _ _ _).mp hc
  -- the kernel's entry of the PML4 is not part of the tree
  have h₀ : Inv (m.set c 511 (m.word p 511)) G := by
    refine h.congr_word rfl rfl rfl ?_ ?_
    · intro g hg
      exact m.set_word_of_ne _ (fun hcon => by simp [hcon, hcrole] at hg)
    · intro t q l k i ht hi hlast
      rw [Mem.set_word, if_neg]
      rintro ⟨htc, rfl⟩
      rw [htc, hcrole] at ht
      obtain ⟨-, rfl, -⟩ : c = q ∧ 3 = l ∧ 0 = k := by simpa using ht
      omega
  have hg₀ : Grows c m G (m.set c 511 (m.word p 511)) G := by
    refine Grows.of_tables rfl rfl ?_
    intro g hnt
    exact m.set_word_of_ne _ (fun hcon => hnt c 3 0 (by rw [hcon, hcrole]))
  unfold Mem.copytables at hrun
  obtain ⟨G', h', hg, hheld, hleaf, -⟩ := h₀.copyLevel (l := 3) le_rfl hpc hp hc
    (fun n => Or.inl (hnone n)) (fun n _ => hnone n)
    (by
      intro l' j hl' _
      obtain rfl : l' = 2 := by omega
      exact hbelow _) hrun
  refine ⟨G', h', hg₀.trans hg, hheld, ?_⟩
  intro q n
  rw [hleaf, shareUpTo]
  by_cases hq : q = p ∨ q = c
  · by_cases hn : 0 * 512 ≤ pageKey 3 n ∧ pageKey 3 n < 0 * 512 + Mem.entries 3
    · simp only [hq, hn, and_self, if_true]
    · -- there is no page behind entry 511
      have hzero : ∀ r, G.leaf (r, n) = none := by
        intro r
        by_contra hcon
        have hkey : pageKey 3 n < 511 :=
          h.trees.key _ _ _ (h.tab_of_leaf (l := 2) (by omega) hcon)
        refine hn ⟨by omega, ?_⟩
        simpa [Mem.entries] using hkey
      simp [hq, hzero]
  · simp [hq]

end X86Kernel.Paging
