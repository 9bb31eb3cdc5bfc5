import X86Kernel.Paging.Map

/-!
`dealloc_pml4`: the nested loops clear a tree from the bottom up. Every page
loses the one reference of its entry, and every table below the PML4 goes back
to the free list.
-/

namespace X86Kernel.Paging

open Lib

/-- The key of page `n` one level up from `l - 1`: entry `i` of the table with
level `l` and key `k` covers the pages with `pageKey l n = k * 512 + i`. -/
def pageKey : Nat → Nat → Nat
  | 0, n => n
  | l + 1, n => pageKey l n / 512

theorem pageKey_succ (l n : Nat) : pageKey (l + 1) n = pageKey l n / 512 := rfl

theorem Inv.tab_of_leaf {m : Mem} {G : Ghost} (h : Inv m G) {p n l : Nat} (hl : l ≤ 3)
    (hleaf : G.leaf (p, n) ≠ none) : G.tab (p, l, pageKey (l + 1) n) ≠ none := by
  induction l with
  | zero => exact h.trees.leaf p n hleaf
  | succ l ih => exact h.trees.up _ _ _ (ih (by omega)) (by omega)

theorem Inv.leaf_none_of_tab {m : Mem} {G : Ghost} (h : Inv m G) {p n l : Nat} (hl : l ≤ 3)
    (ht : G.tab (p, l, pageKey (l + 1) n) = none) : G.leaf (p, n) = none := by
  by_contra hcon
  exact h.tab_of_leaf hl hcon ht

/-- An operation that only takes pages and tables out of the space `p`. -/
structure Shrinks (p : Nat) (m : Mem) (G : Ghost) (m' : Mem) (G' : Ghost) : Prop where
  role : ∀ g, G'.role g = G.role g ∨
    G'.role g = .free ∧ (G.role g = .data ∨ ∃ l k, l < 3 ∧ G.role g = .table p l k)
  word : ∀ g, (∀ l k, G.role g ≠ .table p l k) → m'.word g = m.word g
  kpml4 : m'.kpml4 = m.kpml4

theorem Shrinks.refl (p : Nat) (m : Mem) (G : Ghost) : Shrinks p m G m G :=
  ⟨fun _ => Or.inl rfl, fun _ _ => rfl, rfl⟩

theorem Shrinks.trans {p : Nat} {m₁ m₂ m₃ : Mem} {G₁ G₂ G₃ : Ghost}
    (h : Shrinks p m₁ G₁ m₂ G₂) (h' : Shrinks p m₂ G₂ m₃ G₃) : Shrinks p m₁ G₁ m₃ G₃ := by
  refine ⟨?_, ?_, ?_⟩
  · intro g
    obtain hsame | ⟨hfree, hold⟩ := h.role g
    · rw [← hsame]
      exact h'.role g
    · obtain hsame' | ⟨hfree', -⟩ := h'.role g
      · exact Or.inr ⟨by rw [hsame', hfree], hold⟩
      · exact Or.inr ⟨hfree', hold⟩
  · intro g hg
    rw [h'.word g, h.word g hg]
    intro l k hcon
    obtain hsame | ⟨hfree, -⟩ := h.role g
    · exact hg l k (by rw [← hsame, hcon])
    · simp [hfree] at hcon
  · rw [h'.kpml4, h.kpml4]

/-- Tables never appear while a space shrinks. -/
theorem Shrinks.tab {p : Nat} {m m' : Mem} {G G' : Ghost} (h : Shrinks p m G m' G')
    (hI : Inv m G) (hI' : Inv m' G') {q l k t : Nat} (ht : G'.tab (q, l, k) = some t) :
    G.tab (q, l, k) = some t := by
  have hrole := (hI'.trees.role _ _ _ _).mp ht
  obtain hsame | ⟨hfree, -⟩ := h.role t
  · rw [hI.trees.role, ← hsame, hrole]
  · simp [hfree] at hrole

theorem Shrinks.tab_none {p : Nat} {m m' : Mem} {G G' : Ghost} (h : Shrinks p m G m' G')
    (hI : Inv m G) (hI' : Inv m' G') {q l k : Nat} (ht : G.tab (q, l, k) = none) :
    G'.tab (q, l, k) = none := by
  by_contra hcon
  obtain ⟨t, ht'⟩ := Option.ne_none_iff_exists'.mp hcon
  rw [h.tab hI hI' ht'] at ht
  cases ht

/-- Shrinking one space leaves the others alone. -/
theorem Shrinks.frame {p : Nat} {m m' : Mem} {G G' : Ghost} (h : Shrinks p m G m' G')
    (hI : Inv m G) (hI' : Inv m' G')
    (hmap : ∀ q n, q ≠ p → G'.mapped (q, n) = G.mapped (q, n)) :
    Frame (· = p) m G m' G' := by
  refine ⟨?_, hmap, ?_, ?_, ?_, ?_, ?_, h.kpml4⟩
  · intro q l k hqp
    cases hq : G.tab (q, l, k) with
    | none => exact h.tab_none hI hI' hq
    | some t =>
        have hrole := (hI.trees.role _ _ _ _).mp hq
        rw [hI'.trees.role]
        obtain hsame | ⟨-, hdata | ⟨l', k', hl, htab⟩⟩ := h.role t
        · rw [hsame, hrole]
        · simp [hdata] at hrole
        · rw [htab] at hrole
          obtain ⟨rfl, -⟩ : p = q ∧ l' = l ∧ k' = k := by simpa using hrole
          exact absurd rfl hqp
  · intro q n f _ hf
    obtain ⟨e, he, rfl⟩ := Option.map_eq_some_iff.mp hf
    exact h.word _ (by simp [hI.refs.target _ e he])
  · intro q f _
    obtain hsame | ⟨hfree, hdata | ⟨l, k, -, htab⟩⟩ := h.role f
    · rw [hsame]
    · simp [hfree, hdata]
    · simp [hfree, htab]
  · intro q f _ hf
    exact h.word f (by simp [hf])
  · intro f
    obtain hsame | ⟨hfree, hdata | ⟨l, k, -, htab⟩⟩ := h.role f
    · rw [hsame]
    · simp [hfree, hdata]
    · simp [hfree, htab]
  · intro f hf
    exact h.word f (by simp [hf])

theorem Mem.free_set_comm (m : Mem) (a t i : Nat) (w : Word) :
    (m.free a).set t i w = (m.set t i w).free a := by
  unfold Mem.free Mem.set Mem.setPage
  dsimp only
  split_ifs <;> rfl

/-- One page table entry is cleared and the reference it held given up. -/
theorem Inv.clearLeaf {m : Mem} {G : Ghost} (h : Inv m G) {p k t i : Nat} {e : Pte}
    (ht : G.tab (p, 0, k) = some t) (hi : i < 512) (he : G.leaf (p, k * 512 + i) = some e) :
    ∃ G', Inv ((m.free (e.frame * 4096)).set t i 0) G' ∧
      Shrinks p m G ((m.free (e.frame * 4096)).set t i 0) G' ∧ G'.tab = G.tab ∧
      G'.held = G.held ∧ G'.leaf = Function.update G.leaf (p, k * 512 + i) none := by
  have htrole := (h.trees.role _ _ _ _).mp ht
  have hdata := h.refs.target _ e he
  have hmapped : G.mapped (p, k * 512 + i) = some e.frame := by simp [Ghost.mapped, he]
  have h₁ := h.setLeaf ht hi (v := none)
    (Function.update G.held e.frame (G.held e.frame + 1)) (by simp) ?_
  · obtain ⟨G', h₂, htab, hleaf, hheld, hrole⟩ := h₁.free (f := e.frame) hdata (by simp)
    rw [Mem.free_set_comm]
    refine ⟨G', h₂, ⟨?_, ?_, ?_⟩, htab, ?_, hleaf⟩
    · intro g
      rw [hrole g]
      split_ifs with hg
      · exact Or.inr ⟨rfl, Or.inl (hg.1 ▸ hdata)⟩
      · exact Or.inl rfl
    · intro g hg
      rw [Mem.free_word]
      exact Mem.set_word_of_ne _ _ (fun hcon => hg 0 k (by rw [hcon, htrole]))
    · simp
    · rw [hheld]
      simp
  · intro f
    rw [hmapped]
    by_cases hf : f = e.frame
    · simp [hf]
    · simp [hf, Ne.symm hf]

/-- The pages behind the first `i` entries of the table with level `l` and key
`k`, taken out of a view of the pages. -/
def clearUpTo (p l k i : Nat) (leaf : Nat × Nat → Option Pte) : Nat × Nat → Option Pte :=
  fun x => if x.1 = p ∧ k * 512 ≤ pageKey l x.2 ∧ pageKey l x.2 < k * 512 + i then none
    else leaf x

theorem clearUpTo_zero (p l k : Nat) (leaf : Nat × Nat → Option Pte) :
    clearUpTo p l k 0 leaf = leaf := by
  funext x
  unfold clearUpTo
  rw [if_neg (by omega)]

/-- The keys behind one more entry. -/
theorem if_upTo_succ {α : Type} (P : Prop) [Decidable P] (k i n : Nat) (a b : α) :
    (if P ∧ k * 512 ≤ n ∧ n < k * 512 + (i + 1) then a else b) =
      if P ∧ n = k * 512 + i then a
      else if P ∧ k * 512 ≤ n ∧ n < k * 512 + i then a else b := by
  by_cases hp : P
  · by_cases hk : n = k * 512 + i
    · rw [if_pos ⟨hp, by omega, by omega⟩, if_pos ⟨hp, hk⟩]
    · have hiff : (k * 512 ≤ n ∧ n < k * 512 + (i + 1)) ↔
          (k * 512 ≤ n ∧ n < k * 512 + i) := by omega
      simp only [hp, hk, hiff, and_false, if_false]
  · simp [hp]

/-- The next entry clears the pages behind it. -/
theorem clearUpTo_succ (p l k i : Nat) (leaf : Nat × Nat → Option Pte) (x : Nat × Nat) :
    clearUpTo p l k (i + 1) leaf x =
      if x.1 = p ∧ pageKey l x.2 = k * 512 + i then none else clearUpTo p l k i leaf x := by
  unfold clearUpTo
  exact if_upTo_succ _ k i (pageKey l x.2) none (leaf x)

/-- A loop over all entries clears the pages below the table. -/
theorem Inv.clearUpTo_entries {m : Mem} {G : Ghost} (h : Inv m G) {p l k t : Nat}
    (ht : G.tab (p, l, k) = some t) (x : Nat × Nat) :
    clearUpTo p l k (Mem.entries l) G.leaf x =
      if x.1 = p ∧ pageKey (l + 1) x.2 = k then none else G.leaf x := by
  obtain ⟨q, n⟩ := x
  unfold clearUpTo
  simp only [pageKey_succ]
  by_cases hp : q = p
  · subst hp
    by_cases hl : l = 3
    · subst hl
      have hk := h.trees.key q 3 k (by simp [ht])
      obtain rfl : k = 0 := by
        simp only [keys] at hk
        omega
      -- there is no page behind entry 511
      by_cases hlast : pageKey 3 n < 511
      · have hall : pageKey 3 n < Mem.entries 3 := hlast
        have htop : pageKey 3 n / 512 = 0 := by omega
        simp [hall, htop]
      · have hnone : G.leaf (q, n) = none := by
          by_contra hcon
          have hkey : pageKey 3 n < 511 :=
            h.trees.key _ _ _ (h.tab_of_leaf (l := 2) (by omega) hcon)
          omega
        simp [hnone]
    · have hiff : (k * 512 ≤ pageKey l n ∧ pageKey l n < k * 512 + Mem.entries l) ↔
          pageKey l n / 512 = k := by
        rw [Mem.entries, if_neg hl]
        omega
      simp only [hiff]
  · simp [hp]

/-- The loop over a page table. -/
theorem Inv.deallocPage {m : Mem} {G : Ghost} (h : Inv m G) {p k t : Nat}
    (ht : G.tab (p, 0, k) = some t) :
    ∃ G', Inv (Mem.deallocLevel 0 m t) G' ∧ Shrinks p m G (Mem.deallocLevel 0 m t) G' ∧
      G'.tab = G.tab ∧ G'.held = G.held ∧ G'.leaf = clearUpTo p 0 k (Mem.entries 0) G.leaf := by
  unfold Mem.deallocLevel
  -- before iteration `i` the entries below `i` are clear
  refine foldl_range_invariant (n := Mem.entries 0) (s := m)
    (P := fun i m' => ∃ G', Inv m' G' ∧ Shrinks p m G m' G' ∧ G'.tab = G.tab ∧
      G'.held = G.held ∧ G'.leaf = clearUpTo p 0 k i G.leaf) ?_ ?_
  · exact ⟨G, h, Shrinks.refl p m G, rfl, rfl, (clearUpTo_zero _ _ _ _).symm⟩
  · rintro i m₁ hi ⟨G₁, h₁, hs₁, htab₁, hheld₁, hleaf₁⟩
    have hi' : i < 512 := hi
    have ht₁ : G₁.tab (p, 0, k) = some t := by rw [htab₁, ht]
    have hword := h₁.trees.page p k t i ht₁ hi'
    have hnext : clearUpTo p 0 k (i + 1) G.leaf =
        Function.update G₁.leaf (p, k * 512 + i) none := by
      funext ⟨q, n⟩
      rw [clearUpTo_succ, ← hleaf₁]
      by_cases hx : (q, n) = (p, k * 512 + i)
      · rw [hx, Function.update_self]
        simp [pageKey]
      · rw [Function.update_of_ne hx, if_neg]
        simpa [pageKey] using hx
    cases he : G₁.leaf (p, k * 512 + i) with
    | none =>
        rw [he] at hword
        have hzero : m₁.set t i 0 = m₁ := by
          have hself := Mem.set_self m₁ t i
          rwa [hword] at hself
        rw [hword, leafWord, present_zero, if_neg Bool.false_ne_true, hzero, hnext, ← he,
          Function.update_eq_self]
        exact ⟨G₁, h₁, hs₁, htab₁, hheld₁, rfl⟩
    | some e =>
        rw [he] at hword
        have hpres : present (m₁.word t i) = true := by simp [hword]
        have haddr : addrOf (m₁.word t i) = e.frame * 4096 := by
          rw [hword]
          exact Pte.addrOf_word (h₁.leaf_lt he)
        obtain ⟨G₂, h₂, hs₂, htab₂, hheld₂, hleaf₂⟩ := h₁.clearLeaf ht₁ hi' he
        rw [if_pos hpres, haddr, hnext]
        exact ⟨G₂, h₂, hs₁.trans hs₂, by rw [htab₂, htab₁], by rw [hheld₂, hheld₁], hleaf₂⟩

/-- A table with all entries clear is taken out of its parent and freed. -/
theorem Inv.freeTable {m : Mem} {G : Ghost} (h : Inv m G) {p l k t f i : Nat} (hl : l < 3)
    (ht : G.tab (p, l + 1, k) = some t) (hi : i < 512) (hf : G.tab (p, l, k * 512 + i) = some f)
    (hzero : ∀ j < 512, m.word f j = 0) :
    ∃ G', Inv ((m.free (f * 4096)).set t i 0) G' ∧
      Shrinks p m G ((m.free (f * 4096)).set t i 0) G' ∧ G'.held = G.held ∧
      G'.leaf = G.leaf ∧ G'.tab = Function.update G.tab (p, l, k * 512 + i) none := by
  have hfrole := (h.trees.role _ _ _ _).mp hf
  have htrole := (h.trees.role _ _ _ _).mp ht
  have hheld₀ := h.refs.held f (by simp [hfrole])
  have hup : G.tab (p, l + 1, (k * 512 + i) / 512) = some t := by
    rw [key_div hi, ht]
  have h₁ := h.cut hf hl hup hzero
  rw [show (k * 512 + i) % 512 = i by omega] at h₁
  obtain ⟨G', h₂, htab, hleaf, hheld, hrole⟩ := h₁.free (f := f)
    (by simp [Ghost.setTab, Ghost.setHeld, Ghost.setRole]) (by simp [Ghost.setTab, Ghost.setHeld])
  rw [Mem.free_set_comm]
  refine ⟨G', h₂, ⟨?_, ?_, ?_⟩, ?_, hleaf, htab⟩
  · intro g
    have hone : ((m.set t i 0).page f).refCount ≤ 1 := (h.refs.table f _ _ _ hfrole).le
    by_cases hg : g = f
    · subst hg
      exact Or.inr ⟨by rw [hrole g, if_pos ⟨rfl, hone⟩], Or.inr ⟨l, k * 512 + i, hl, hfrole⟩⟩
    · refine Or.inl ?_
      rw [hrole g]
      simp [Ghost.setTab, Ghost.setHeld, Ghost.setRole, hg]
  · intro g hg
    rw [Mem.free_word]
    exact Mem.set_word_of_ne _ _ (fun hcon => hg (l + 1) k (by rw [hcon, htrole]))
  · simp
  · rw [hheld]
    funext g
    by_cases hg : g = f <;> simp [Ghost.setTab, Ghost.setHeld, Ghost.setRole, hg, hheld₀]

/-- The loops over the table with level `l` and key `k`: the pages behind it
are gone, its entries are clear, and nothing is left in the kernel's hands. -/
theorem Inv.deallocLevel {l : Nat} (hl : l ≤ 3) {m : Mem} {G : Ghost} (h : Inv m G)
    {p k t : Nat} (ht : G.tab (p, l, k) = some t) :
    ∃ G', Inv (Mem.deallocLevel l m t) G' ∧ Shrinks p m G (Mem.deallocLevel l m t) G' ∧
      G'.tab (p, l, k) = some t ∧ G'.held = G.held ∧
      G'.leaf = clearUpTo p l k (Mem.entries l) G.leaf ∧
      ∀ i < Mem.entries l, (Mem.deallocLevel l m t).word t i = 0 := by
  induction l generalizing m G k t with
  | zero =>
      obtain ⟨G', h', hs, htab, hheld, hleaf⟩ := h.deallocPage ht
      refine ⟨G', h', hs, by rw [htab, ht], hheld, hleaf, ?_⟩
      intro i hi
      have hi' : i < 512 := hi
      rw [h'.trees.page p k t i (by rw [htab, ht]) hi', hleaf, clearUpTo, if_pos]
      · rfl
      · exact ⟨rfl, by simp [pageKey], by simpa [pageKey] using hi⟩
  | succ l ih =>
      -- before iteration `i` no table hangs behind the entries below `i`
      have hloop : ∃ G', Inv (Mem.deallocLevel (l + 1) m t) G' ∧
          Shrinks p m G (Mem.deallocLevel (l + 1) m t) G' ∧ G'.tab (p, l + 1, k) = some t ∧
          G'.held = G.held ∧ G'.leaf = clearUpTo p (l + 1) k (Mem.entries (l + 1)) G.leaf ∧
          ∀ j < Mem.entries (l + 1), G'.tab (p, l, k * 512 + j) = none := by
        rw [Mem.deallocLevel]
        refine foldl_range_invariant (n := Mem.entries (l + 1)) (s := m)
          (P := fun i m' => ∃ G', Inv m' G' ∧ Shrinks p m G m' G' ∧
            G'.tab (p, l + 1, k) = some t ∧ G'.held = G.held ∧
            G'.leaf = clearUpTo p (l + 1) k i G.leaf ∧
            ∀ j < i, G'.tab (p, l, k * 512 + j) = none) ?_ ?_
        · exact ⟨G, h, Shrinks.refl p m G, ht, rfl, (clearUpTo_zero _ _ _ _).symm, by omega⟩
        · rintro i m₁ hi ⟨G₁, h₁, hs₁, ht₁, hheld₁, hleaf₁, hnone₁⟩
          have hk := h₁.trees.key p (l + 1) k (by simp [ht₁])
          have hkey := keys_child hk hi
          have hi' : i < 512 := by
            unfold Mem.entries at hi
            split_ifs at hi <;> omega
          have hword := h₁.trees.link p l k t i ht₁ hi' hkey
          cases hf : G₁.tab (p, l, k * 512 + i) with
          | none =>
              rw [hf] at hword
              have hzero : m₁.set t i 0 = m₁ := by
                have hself := Mem.set_self m₁ t i
                rwa [hword] at hself
              rw [hword, tableWord, present_zero, if_neg Bool.false_ne_true, hzero]
              refine ⟨G₁, h₁, hs₁, ht₁, hheld₁, ?_, ?_⟩
              · funext x
                rw [clearUpTo_succ, ← hleaf₁]
                split_ifs with hx
                · obtain ⟨q, n⟩ := x
                  obtain ⟨rfl, hkx⟩ := hx
                  exact h₁.leaf_none_of_tab (l := l) (by omega) (by rw [hkx, hf])
                · rfl
              · intro j hj
                by_cases hji : j = i
                · rw [hji, hf]
                · exact hnone₁ j (by omega)
          | some f =>
              rw [hf] at hword
              have hpres : present (m₁.word t i) = true := by simp [hword]
              have hframe : frameOf (m₁.word t i) = f := by
                rw [hword]
                exact tableWord_some_frame (h₁.tab_lt hf)
              obtain ⟨G₂, h₂, hs₂, hf₂, hheld₂, hleaf₂, hzero₂⟩ := ih (by omega) h₁ hf
              -- the table itself is still there, above the one just cleared
              have ht₂ : G₂.tab (p, l + 1, k) = some t := by
                have hup := h₂.trees.up _ _ _ (by simp [hf₂] : G₂.tab (p, l, k * 512 + i) ≠ none)
                  (by omega)
                rw [key_div hi'] at hup
                obtain ⟨t', ht'⟩ := Option.ne_none_iff_exists'.mp hup
                have hold := hs₂.tab h₁ h₂ ht'
                rw [ht₁] at hold
                rw [ht', ← hold]
              have hword₂ := h₂.trees.link p l k t i ht₂ hi' hkey
              have haddr : addrOf ((Mem.deallocLevel l m₁ f).word t i) = f * 4096 := by
                rw [hword₂, hf₂]
                exact tableWord_some_addr (h₁.tab_lt hf)
              have hzero : ∀ j < 512, (Mem.deallocLevel l m₁ f).word f j = 0 := by
                intro j hj
                apply hzero₂
                unfold Mem.entries
                rw [if_neg (by omega)]
                exact hj
              obtain ⟨G₃, h₃, hs₃, hheld₃, hleaf₃, htab₃⟩ :=
                h₂.freeTable (by omega) ht₂ hi' hf₂ hzero
              rw [if_pos hpres, hframe]
              dsimp only
              rw [haddr]
              refine ⟨G₃, h₃, (hs₁.trans hs₂).trans hs₃, ?_, by rw [hheld₃, hheld₂, hheld₁], ?_, ?_⟩
              · rw [htab₃, Function.update_of_ne (by simp), ht₂]
              · funext x
                rw [hleaf₃, hleaf₂, h₁.clearUpTo_entries hf x, clearUpTo_succ, ← hleaf₁]
              · intro j hj
                rw [htab₃]
                by_cases hji : j = i
                · simp [hji]
                · rw [Function.update_of_ne (by simpa using hji)]
                  exact hs₂.tab_none h₁ h₂ (hnone₁ j (by omega))
      obtain ⟨G', h', hs, ht', hheld, hleaf, hnone⟩ := hloop
      refine ⟨G', h', hs, ht', hheld, hleaf, ?_⟩
      intro i hi
      have hk := h'.trees.key p (l + 1) k (by simp [ht'])
      have hi' : i < 512 := by
        unfold Mem.entries at hi
        split_ifs at hi <;> omega
      rw [h'.trees.link p l k t i ht' hi' (keys_child hk hi), hnone i hi]
      rfl

/-- `dealloc_pml4` empties the address space and keeps its PML4. -/
theorem Inv.deallocPml4 {m : Mem} {G : Ghost} (h : Inv m G) {p : Nat}
    (hp : G.tab (p, 3, 0) = some p) :
    ∃ G', Inv (m.deallocPml4 p) G' ∧ Shrinks p m G (m.deallocPml4 p) G' ∧
      G'.tab (p, 3, 0) = some p ∧ G'.held = G.held ∧
      (∀ q n, G'.leaf (q, n) = if q = p then none else G.leaf (q, n)) ∧
      ∀ i < 511, (m.deallocPml4 p).word p i = 0 := by
  unfold Mem.deallocPml4
  have hentries : Mem.entries 3 = 511 := by simp [Mem.entries]
  obtain ⟨G', h', hs, hp', hheld, hleaf, hzero⟩ := h.deallocLevel (l := 3) (by omega) hp
  rw [hentries] at hzero
  refine ⟨G', h', hs, hp', hheld, ?_, hzero⟩
  intro q n
  rw [hleaf, h.clearUpTo_entries hp]
  by_cases hq : q = p
  · subst hq
    by_cases hn : pageKey (3 + 1) n = 0
    · simp [hn]
    · have hnone : G.leaf (q, n) = none := by
        by_contra hcon
        have hkey := h.trees.key _ _ _ (h.tab_of_leaf (l := 3) (by omega) hcon)
        simp only [keys] at hkey
        omega
      simp [hnone]
  · simp [hq]

end X86Kernel.Paging
