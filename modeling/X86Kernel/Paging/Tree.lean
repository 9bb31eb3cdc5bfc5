import X86Kernel.Lib.Radix
import X86Kernel.Paging.Supply

/-!
The page tables of one address space as a radix tree: what is asked of it is only
that no table stands at two places. `init_pages_for_process` changes such a tree at
the one page, with a new table from the free list for each level that is missing.
-/

namespace X86Kernel.Paging

open Lib

/-- Tables lead to tables by present entries, and to pages at the last level. -/
def pageTables : Radix Nat Word where
  entries := Mem.entries
  child e := if present e then some (frameOf e) else none

def indices (v l : Nat) : Nat := idx v (12 + 9 * l)

/-- The number of the page of `v`, as far as the tables tell pages apart. -/
def pageOf (v : Nat) : Nat := v / 4096 % 2 ^ 36

structure TreeAt (m : Mem) (p : Nat) (s : List Nat) : Prop where
  sound : pageTables.Sound m.word 3 p
  apart : ∀ f ∈ s, ¬ pageTables.Table m.word 3 p f

theorem pageTables_child_some {w : Word} {f : Nat} :
    pageTables.child w = some f ↔ present w = true ∧ frameOf w = f := by
  simp [pageTables]

theorem pageTables_child_none {w : Word} : pageTables.child w = none ↔ ¬ present w = true := by
  simp [pageTables]

theorem pageTables_child_isSome (w : Word) : (pageTables.child w).isSome = present w := by
  unfold pageTables
  cases h : present w <;> simp [h]

theorem Mem.entries_le (l : Nat) : Mem.entries l ≤ 512 := by
  unfold Mem.entries
  split_ifs <;> omega

/-- The MMU finds what the tree holds for the page. -/
theorem walk_eq_look (m : Mem) (p v : Nat) :
    m.walk p v = pageTables.look m.word 3 p (indices v) := by
  unfold Mem.walk
  simp only [Radix.look, pageTables, indices]
  by_cases h4 : present (m.word p (idx v 39)) = true
  · simp only [h4, if_true, Option.bind_some]
    by_cases h3 : present (m.word (frameOf (m.word p (idx v 39))) (idx v 30)) = true
    · simp only [h3, if_true, Option.bind_some]
      by_cases h2 : present (m.word (frameOf (m.word (frameOf (m.word p (idx v 39)))
          (idx v 30))) (idx v 21)) = true
      · simp only [h2, if_true, Option.bind_some]
        split_ifs with h1 h1' h1' <;> simp_all
      · simp [h2]
    · simp [h3]
  · simp [h4]

theorem indices_valid {v : Nat} (hv : idx v 39 < 511) : pageTables.Valid 3 (indices v) := by
  intro j hj
  obtain rfl | hlt : j = 3 ∨ j < 3 := by omega
  · exact hv
  · have hentries : pageTables.entries j = 512 := if_neg (by omega)
    rw [hentries]
    exact Nat.mod_lt _ (by decide)

/-- Pages with the same indices are the same page. -/
theorem pageOf_eq {v v' : Nat} (h : ∀ j ≤ 3, indices v' j = indices v j) :
    pageOf v' = pageOf v := by
  have h0 := h 0 (by omega)
  have h1 := h 1 (by omega)
  have h2 := h 2 (by omega)
  have h3 := h 3 (by omega)
  simp only [indices, idx] at h0 h1 h2 h3
  unfold pageOf
  omega

namespace Mem

/-- The descent from the table `t`, with a new table where one is missing, and the
entry `w` at its end. -/
def mapLevel (w : Word) : Nat → Mem → Nat → (Nat → Nat) → Option Mem
  | 0, m, t, ix => some (m.set t (ix 0) w)
  | l + 1, m, t, ix => (m.ensure t (ix (l + 1))).bind fun r => mapLevel w l r.2 r.1 ix

/-- The tables missing on the way down. -/
def missing (m : Mem) : Nat → Nat → (Nat → Nat) → Nat
  | 0, _, _ => 0
  | l + 1, t, ix =>
      if present (m.word t (ix (l + 1))) then m.missing l (frameOf (m.word t (ix (l + 1)))) ix
      else l + 1

theorem mapAt_eq_mapLevel (m : Mem) (v phy p : Nat) :
    mapAt 7 true m v phy p = mapLevel (entry phy 7) 3 m p (indices v) := by
  rw [mapAt_eq]
  rfl

theorem missingTables_eq_missing (m : Mem) (p v : Nat) :
    m.missingTables p v = m.missing 3 p (indices v) := by
  unfold missingTables
  simp only [missing, indices]
  rfl

end Mem

/-- What the descent from `t` does: the page has the entry `w`, and the first `k`
free frames are tables. -/
structure MapsOne (m : Mem) (l t : Nat) (s : List Nat) (ix : Nat → Nat) (w : Word) (k : Nat)
    (m' : Mem) : Prop where
  sound : pageTables.Sound m'.word l t
  stock : Stock m' (s.drop k)
  table : ∀ f, pageTables.Table m'.word l t f ↔ pageTables.Table m.word l t f ∨ f ∈ s.take k
  page : pageTables.look m'.word l t ix = some w
  others : ∀ ix', pageTables.Valid l ix' → (∃ j ≤ l, ix' j ≠ ix j) →
    pageTables.look m'.word l t ix' = pageTables.look m.word l t ix'
  root : ∀ i, i ≠ ix l → m'.word t i = m.word t i
  frame : ∀ f, ¬ pageTables.Table m.word l t f → f ∉ s.take k → m'.word f = m.word f

section Descent

variable {m : Mem} {l t : Nat} {s : List Nat} {ix : Nat → Nat} {w : Word}

theorem missing_of_empty (hzero : ∀ i, present (m.word t i) = false) : m.missing l t ix = l := by
  cases l with
  | zero => rfl
  | succ l => simp [Mem.missing, hzero]

/-- The last step writes the entry. -/
theorem mapsOne_leaf (hstock : Stock m s) (hw : present w = true) :
    MapsOne m 0 t s ix w 0 (m.set t (ix 0) w) := by
  refine ⟨trivial, hstock.congr rfl rfl, by simp [Radix.Table], ?_, ?_, ?_, ?_⟩
  · simp [Radix.look, pageTables_child_isSome, hw]
  · rintro ix' - ⟨j, hj, hne⟩
    obtain rfl : j = 0 := by omega
    simp only [Radix.look, Mem.set_word, hne, and_false, if_false]
  · intro i hi
    rw [Mem.set_word, if_neg (fun hcon => hi hcon.2)]
  · intro f hf _
    exact Mem.set_word_of_ne _ _ hf

/-- A step with the table there. -/
theorem MapsOne.below {u k : Nat} {m' : Mem} (h : MapsOne m l u s ix w k m')
    (hs : pageTables.Sound m.word (l + 1) t) (hi : ix (l + 1) < pageTables.entries (l + 1))
    (hu : pageTables.child (m.word t (ix (l + 1))) = some u)
    (hapart : ∀ f ∈ s, ¬ pageTables.Table m.word (l + 1) t f) (hix : pageTables.Valid (l + 1) ix) :
    MapsOne m (l + 1) t s ix w k m' := by
  obtain ⟨hsound, hroot⟩ := hs.1 _ hi u hu
  have hfresh : ∀ f, pageTables.Table m.word (l + 1) t f → f ∉ s.take k :=
    fun f hf hmem => hapart f (List.mem_of_mem_take hmem) hf
  have hroot' : m'.word t = m.word t := h.frame t hroot (hfresh t .root)
  have hgraft : pageTables.Regraft m.word m'.word l t (ix (l + 1)) u := by
    refine ⟨hi, by rw [hroot', hu], fun j _ _ => by rw [hroot'], ?_⟩
    intro j hj hji v hv
    refine .of_eq fun g hg => h.frame g ?_ (hfresh g (hg.of_child hj hv))
    exact fun hcon => hs.2 _ _ hj hi hji v u hv hu g hg hcon
  refine ⟨?_, h.stock, ?_, ?_, ?_, fun i _ => by rw [hroot'], ?_⟩
  · refine hgraft.sound hs h.sound ?_ ?_
    · rw [h.table]
      rintro (hcon | hcon)
      · exact hroot hcon
      · exact hfresh t .root hcon
    · intro j hj hji v hv f hf hcon
      rw [h.table] at hf
      obtain hf | hf := hf
      · exact hs.2 _ _ hi hj (Ne.symm hji) u v hu hv f hf hcon
      · exact hfresh f (hcon.of_child hj hv) hf
  · intro f
    rw [hgraft.table, Radix.table_iff hi, h.table]
    simp only [hu, Option.some.injEq, exists_eq_left']
    tauto
  · rw [hgraft.look hix, if_pos rfl, h.page]
  · rintro ix' hvalid ⟨j, hj, hne⟩
    rw [hgraft.look hvalid]
    split_ifs with hsame
    · have hjl : j ≤ l := by
        by_contra hcon
        obtain rfl : j = l + 1 := by omega
        exact hne hsame
      rw [h.others ix' hvalid.pred ⟨j, hjl, hne⟩]
      simp [Radix.look, hsame, hu]
    · rfl
  · intro f hf hmem
    exact h.frame f (fun hcon => hf (hcon.of_child hi hu)) hmem

/-- A step with a new table `u`, which is clear. -/
theorem MapsOne.above {u k : Nat} {m₁ m' : Mem} (h : MapsOne m₁ l u s ix w k m')
    (hs : pageTables.Sound m.word (l + 1) t) (hi : ix (l + 1) < pageTables.entries (l + 1))
    (hnone : pageTables.child (m.word t (ix (l + 1))) = none)
    (hapart : ∀ f ∈ u :: s, ¬ pageTables.Table m.word (l + 1) t f)
    (hnodup : (u :: s).Nodup) (hclear : ∀ i, m₁.word u i = 0)
    (hlink : pageTables.child (m₁.word t (ix (l + 1))) = some u)
    (hrow : ∀ j, j ≠ ix (l + 1) → m₁.word t j = m.word t j)
    (hframe : ∀ f, f ≠ t → f ≠ u → m₁.word f = m.word f) (hix : pageTables.Valid (l + 1) ix) :
    MapsOne m (l + 1) t (u :: s) ix w (k + 1) m' := by
  have hempty : ∀ i, i < pageTables.entries l → pageTables.child (m₁.word u i) = none := by
    intro i _
    rw [hclear, pageTables_child_none, present_zero]
    exact Bool.false_ne_true
  have htable : ∀ f, pageTables.Table m'.word l u f ↔ f ∈ u :: s.take k := by
    intro f
    rw [h.table, Radix.table_of_empty hempty, List.mem_cons]
  have hfresh : ∀ f, pageTables.Table m.word (l + 1) t f → f ∉ u :: s.take k := by
    intro f hf hmem
    refine hapart f ?_ hf
    obtain rfl | hmem := List.mem_cons.mp hmem
    · simp
    · exact List.mem_cons_of_mem _ (List.mem_of_mem_take hmem)
  have hkeep : ∀ f, f ∉ u :: s.take k → m'.word f = m₁.word f := by
    intro f hf
    refine h.frame f ?_ (fun hcon => hf (List.mem_cons_of_mem _ hcon))
    rw [Radix.table_of_empty hempty]
    exact fun hcon => hf (by simp [hcon])
  have hroot : m'.word t = m₁.word t := hkeep t (hfresh t .root)
  have hgraft : pageTables.Regraft m.word m'.word l t (ix (l + 1)) u := by
    refine ⟨hi, by rw [hroot, hlink], fun j _ hj => by rw [hroot, hrow j hj], ?_⟩
    intro j hj hji v hv
    refine .of_eq fun g hg => ?_
    have hmem := hfresh g (hg.of_child hj hv)
    rw [hkeep g hmem, hframe g ?_ (fun hcon => hmem (by simp [hcon]))]
    rintro rfl
    exact (hs.1 j hj v hv).2 hg
  refine ⟨?_, by simpa using h.stock, ?_, ?_, ?_, fun i hne => by rw [hroot, hrow i hne], ?_⟩
  · refine hgraft.sound hs h.sound ?_ ?_
    · rw [htable]
      exact hfresh t .root
    · intro j hj _ v hv f hf hcon
      exact hfresh f (hcon.of_child hj hv) ((htable f).mp hf)
  · intro f
    rw [hgraft.table, Radix.table_iff hi, htable, List.take_succ_cons]
    simp only [hnone, reduceCtorEq, false_and, exists_false, false_or]
    tauto
  · rw [hgraft.look hix, if_pos rfl, h.page]
  · rintro ix' hvalid ⟨j, hj, hne⟩
    rw [hgraft.look hvalid]
    split_ifs with hsame
    · have hjl : j ≤ l := by
        by_contra hcon
        obtain rfl : j = l + 1 := by omega
        exact hne hsame
      rw [h.others ix' hvalid.pred ⟨j, hjl, hne⟩, Radix.look_of_empty hempty hvalid.pred]
      simp [Radix.look, hsame, hnone]
    · rfl
  · intro f hf hmem
    rw [List.take_succ_cons] at hmem
    rw [hkeep f hmem, hframe f ?_ (fun hcon => hmem (by simp [hcon]))]
    rintro rfl
    exact hf .root

/-- The descent, if there are frames for the missing tables. -/
theorem mapLevel_spec (hw : present w = true) (hs : pageTables.Sound m.word l t)
    (hstock : Stock m s) (hlt : ∀ f ∈ s, f < capacity)
    (hapart : ∀ f ∈ s, ¬ pageTables.Table m.word l t f) (hix : pageTables.Valid l ix)
    (henough : m.missing l t ix ≤ s.length) :
    ∃ m', Mem.mapLevel w l m t ix = some m' ∧ m'.kpml4 = m.kpml4 ∧
      MapsOne m l t s ix w (m.missing l t ix) m' := by
  induction l generalizing m t s with
  | zero => exact ⟨_, rfl, rfl, mapsOne_leaf hstock hw⟩
  | succ l ih =>
      have hi := hix (l + 1) le_rfl
      by_cases hpres : present (m.word t (ix (l + 1))) = true
      · have hu := pageTables_child_some.mpr ⟨hpres, rfl⟩
        rw [Mem.missing, if_pos hpres] at henough ⊢
        obtain ⟨m', hrun, hkp, hmaps⟩ := ih (hs.1 _ hi _ hu).1 hstock hlt
          (fun f hf hcon => hapart f hf (hcon.of_child hi hu)) hix.pred henough
        refine ⟨m', ?_, hkp, hmaps.below hs hi hu hapart hix⟩
        rw [Mem.mapLevel, Mem.ensure_present hpres, Option.bind_some]
        exact hrun
      · rw [Mem.missing, if_neg hpres] at henough ⊢
        obtain _ | ⟨u, s⟩ := s
        · simp at henough
        obtain ⟨m₁, halloc, hword, hkp₁, -, hstock₁⟩ := hstock.take
        have hnodup := hstock.nodup
        have htu : t ≠ u := by
          rintro rfl
          exact hapart t (by simp) .root
        -- the new table hangs in the tree, and is clear
        have hnew : m.ensure t (ix (l + 1)) =
            some (u, (m₁.set t (ix (l + 1)) (entry (u * 4096) 7)).memset0 u) := by
          rw [Mem.ensure_absent hpres, Mem.newTable, halloc]
          simp
        have hclear : ∀ i, ((m₁.set t (ix (l + 1)) (entry (u * 4096) 7)).memset0 u).word u i =
            0 := by simp
        have hlink : ((m₁.set t (ix (l + 1)) (entry (u * 4096) 7)).memset0 u).word t =
            (m₁.set t (ix (l + 1)) (entry (u * 4096) 7)).word t := by
          rw [Mem.memset0, Mem.setFrame_word_of_ne _ _ htu]
        have hempty : ∀ i, i < pageTables.entries l → pageTables.child
            (((m₁.set t (ix (l + 1)) (entry (u * 4096) 7)).memset0 u).word u i) = none := by
          intro i _
          rw [hclear, pageTables_child_none, present_zero]
          exact Bool.false_ne_true
        have hmissing :
            ((m₁.set t (ix (l + 1)) (entry (u * 4096) 7)).memset0 u).missing l u ix = l :=
          missing_of_empty fun i => by rw [hclear, present_zero]
        obtain ⟨m', hrun, hkp, hmaps⟩ := ih (t := u) (Radix.sound_of_empty hempty)
          (hstock₁.congr rfl rfl) (fun f hf => hlt f (by simp [hf]))
          (fun f hf => by
            rw [Radix.table_of_empty hempty]
            rintro rfl
            exact (List.nodup_cons.mp hnodup).1 hf) hix.pred
          (by rw [hmissing]; simpa using henough)
        rw [hmissing] at hmaps
        refine ⟨m', ?_, by rw [hkp]; exact hkp₁, hmaps.above hs hi
          (pageTables_child_none.mpr hpres) hapart hnodup hclear ?_ ?_ ?_ hix⟩
        · rw [Mem.mapLevel, hnew, Option.bind_some]
          exact hrun
        · rw [hlink, Mem.set_word_self, pageTables_child_some, present_entry]
          refine ⟨by decide, frameOf_entry (by decide) ?_⟩
          have := hlt u (by simp)
          simp only [capacity] at this
          omega
        · intro j hj
          rw [hlink, Mem.set_word, if_neg (fun hcon => hj hcon.2), hword]
        · intro f hft hfu
          rw [Mem.memset0, Mem.setFrame_word_of_ne _ _ hfu, Mem.set_word_of_ne _ _ hft, hword]

end Descent

section KernelHalf

variable {m : Mem} {p : Nat} {s : List Nat}

/-- Entry 511 of the PML4 is not part of the tree. -/
theorem agree_set_511 (hs : pageTables.Sound m.word 3 p) (w : Word) :
    pageTables.Agree id m.word (m.set p 511 w).word 3 p := by
  intro i hi
  have hne : i ≠ 511 := by
    have hlt : i < 511 := hi
    omega
  refine ⟨by rw [Mem.set_word, if_neg (fun hcon => hne hcon.2)], fun u hu => ?_⟩
  refine .of_eq fun g hg => Mem.set_word_of_ne _ _ ?_
  rintro rfl
  exact (hs.1 i hi u hu).2 hg

theorem missing_of_agree {m' : Mem} {l t : Nat} {ix : Nat → Nat}
    (h : pageTables.Agree id m.word m'.word l t) (hix : pageTables.Valid l ix) :
    m'.missing l t ix = m.missing l t ix := by
  induction l generalizing t with
  | zero => rfl
  | succ l ih =>
      obtain ⟨hword, hsub⟩ := h (ix (l + 1)) (hix (l + 1) le_rfl)
      simp only [Mem.missing, hword]
      split_ifs with hpres
      · exact ih (hsub _ (pageTables_child_some.mpr ⟨hpres, rfl⟩)) hix.pred
      · rfl

theorem TreeAt.set_511 (h : TreeAt m p s) (w : Word) : TreeAt (m.set p 511 w) p s := by
  have hagree := agree_set_511 h.sound w
  exact ⟨hagree.sound h.sound, fun f hf => by rw [hagree.table]; exact h.apart f hf⟩

/-- A tree with new tables from the front of the list. -/
theorem MapsOne.treeAt {m' : Mem} {ix : Nat → Nat} {w : Word} {k : Nat}
    (h : MapsOne m 3 p s ix w k m') (ht : TreeAt m p s) (hnodup : s.Nodup) :
    TreeAt m' p (s.drop k) := by
  refine ⟨h.sound, fun f hf => ?_⟩
  rw [h.table]
  rintro (hcon | hcon)
  · exact ht.apart f (List.mem_of_mem_drop hf) hcon
  · exact (List.disjoint_take_drop hnodup le_rfl) hcon hf

end KernelHalf

section Reading

variable {m : Mem} {G : Ghost} {p l k t : Nat}

/-- The table below entry `i`. -/
theorem Inv.child_tab (h : Inv m G) (ht : G.tab (p, l + 1, k) = some t) {i u : Nat}
    (hi : i < pageTables.entries (l + 1)) (hu : pageTables.child (m.word t i) = some u) :
    G.tab (p, l, k * 512 + i) = some u := by
  have hkey := h.trees.key p (l + 1) k (by simp [ht])
  have hi512 : i < 512 := hi.trans_le (Mem.entries_le _)
  have hword := h.trees.link p l k t i ht hi512 (keys_child hkey hi)
  rw [hword, pageTables_child_some, present_tableWord] at hu
  obtain ⟨hsome, hframe⟩ := hu
  obtain ⟨v, hv⟩ := Option.isSome_iff_exists.mp hsome
  rw [hv, tableWord_some_frame (h.tab_lt hv)] at hframe
  rw [hv, hframe]

/-- The tables of the tree are those below it in the reading of memory. -/
theorem Inv.table_tab (h : Inv m G) (ht : G.tab (p, l, k) = some t) {f : Nat}
    (hf : pageTables.Table m.word l t f) :
    ∃ l' k', l' ≤ l ∧ k' / 512 ^ (l - l') = k ∧ G.tab (p, l', k') = some f := by
  induction l generalizing k t with
  | zero =>
      obtain rfl : f = t := hf
      exact ⟨0, k, le_rfl, by simp, ht⟩
  | succ l ih =>
      obtain rfl | ⟨i, hi, u, hu, hf⟩ := hf
      · exact ⟨l + 1, k, le_rfl, by simp, ht⟩
      · obtain ⟨l', k', hl', hk', htab⟩ := ih (h.child_tab ht hi hu) hf
        refine ⟨l', k', by omega, ?_, htab⟩
        have hi512 : i < 512 := hi.trans_le (Mem.entries_le _)
        rw [Nat.succ_sub hl', pow_succ, ← Nat.div_div_eq_div_mul, hk', key_div hi512]

theorem Inv.sound_tree (h : Inv m G) (ht : G.tab (p, l, k) = some t) :
    pageTables.Sound m.word l t := by
  induction l generalizing k t with
  | zero => trivial
  | succ l ih =>
      refine ⟨fun i hi u hu => ⟨ih (h.child_tab ht hi hu), fun hcon => ?_⟩, ?_⟩
      · obtain ⟨l', k', hl', -, htab⟩ := h.table_tab (h.child_tab ht hi hu) hcon
        have hrole := (h.trees.role _ _ _ _).mp ht
        rw [(h.trees.role _ _ _ _).mp htab] at hrole
        obtain ⟨rfl, -⟩ : l' = l + 1 ∧ k' = k := by simpa using hrole
        omega
      · intro i j hi hj hij u v hu hv f hfu hfv
        obtain ⟨l₁, k₁, -, hk₁, htab₁⟩ := h.table_tab (h.child_tab ht hi hu) hfu
        obtain ⟨l₂, k₂, -, hk₂, htab₂⟩ := h.table_tab (h.child_tab ht hj hv) hfv
        have hrole := (h.trees.role _ _ _ _).mp htab₁
        rw [(h.trees.role _ _ _ _).mp htab₂] at hrole
        obtain ⟨rfl, rfl⟩ : l₂ = l₁ ∧ k₂ = k₁ := by simpa using hrole
        omega

/-- The entries at the end of a look-up lead to user pages. -/
theorem Inv.look_data (h : Inv m G) (ht : G.tab (p, l, k) = some t) {ix : Nat → Nat} {e : Word}
    (hix : pageTables.Valid l ix) (he : pageTables.look m.word l t ix = some e) :
    G.role (frameOf e) = .data := by
  induction l generalizing k t with
  | zero =>
      have hi512 : ix 0 < 512 := (hix 0 le_rfl).trans_le (Mem.entries_le 0)
      have hword := h.trees.page p k t (ix 0) ht hi512
      rw [Radix.look, pageTables_child_isSome, hword, present_leafWord] at he
      split_ifs at he with hsome
      obtain ⟨v, hv⟩ := Option.isSome_iff_exists.mp hsome
      rw [hv, Option.some.injEq] at he
      rw [← he, leafWord, Pte.frameOf_word (h.leaf_lt hv)]
      exact h.refs.target _ v hv
  | succ l ih =>
      obtain ⟨u, hu, he⟩ := Option.bind_eq_some_iff.mp he
      exact ih (h.child_tab ht (hix (l + 1) le_rfl) hu) hix.pred he

end Reading

/-- `init_pages_for_process` returns if there are frames for the missing tables, and
then has changed the one page. -/
theorem initPagesForProcess_one_page (m : Mem) (p v phy : Nat) (s : List Nat)
    (htree : TreeAt m p s) (hstock : Stock m s) (hlt : ∀ f ∈ s, f < capacity)
    (hv : idx v 39 < 511) (hdvd : 4096 ∣ phy) (h64 : phy < 2 ^ 64) :
    ((∃ m', m.initPagesForProcess v phy p = some m') ↔ m.missingTables p v ≤ s.length) ∧
    ∀ m', m.initPagesForProcess v phy p = some m' →
      m'.walk p v = some (entry phy 7) ∧ addrOf (entry phy 7) = phy ∧
      (∀ v', idx v' 39 < 511 → pageOf v' ≠ pageOf v → m'.walk p v' = m.walk p v') ∧
      m'.word p 511 = entry (addrOf (m.word m.kpml4 511)) 7 ∧
      TreeAt m' p (s.drop (m.missingTables p v)) ∧ Stock m' (s.drop (m.missingTables p v)) ∧
      ∀ f, pageTables.Table m'.word 3 p f ↔
        pageTables.Table m.word 3 p f ∨ f ∈ s.take (m.missingTables p v) := by
  have hagree := agree_set_511 htree.sound (entry (addrOf (m.word m.kpml4 511)) 7)
  have hvalid := indices_valid hv
  have htree₀ := htree.set_511 (entry (addrOf (m.word m.kpml4 511)) 7)
  have hmissing : (m.set p 511 (entry (addrOf (m.word m.kpml4 511)) 7)).missingTables p v =
      m.missingTables p v := by
    rw [Mem.missingTables_eq_missing, Mem.missingTables_eq_missing, missing_of_agree hagree hvalid]
  have hrun : ∀ m', m.initPagesForProcess v phy p = some m' →
      m.missingTables p v ≤ s.length := by
    intro m' hrun
    have htakes := Mem.mapAt_takes hrun
    rw [hmissing] at htakes
    exact (htakes s (hstock.list.congr rfl rfl)).1
  -- the descent, in memory with the kernel's entry set
  have hspec := fun henough => mapLevel_spec (w := entry phy 7) (by rw [present_entry]; decide)
    htree₀.sound (hstock.congr rfl rfl) hlt htree₀.apart hvalid henough
  rw [← Mem.missingTables_eq_missing, hmissing] at hspec
  have heq : m.initPagesForProcess v phy p = _ :=
    Mem.mapAt_eq_mapLevel (m.set p 511 (entry (addrOf (m.word m.kpml4 511)) 7)) v phy p
  refine ⟨⟨fun ⟨m', h⟩ => hrun m' h, fun henough => ?_⟩, fun m' h => ?_⟩
  · obtain ⟨m', hmap, -⟩ := hspec henough
    exact ⟨m', by rw [heq, hmap]⟩
  · obtain ⟨m₁, hmap, hkp, hone⟩ := hspec (hrun m' h)
    obtain rfl : m₁ = m' := by
      rw [heq, hmap] at h
      exact Option.some.inj h
    refine ⟨?_, addrOf_entry (by decide) h64 hdvd, ?_, ?_, hone.treeAt htree₀ hstock.nodup,
      hone.stock, ?_⟩
    · rw [walk_eq_look, hone.page]
    · intro v' hv' hne
      have hdiff : ∃ j ≤ 3, indices v' j ≠ indices v j := by
        by_contra hcon
        push Not at hcon
        exact hne (pageOf_eq hcon)
      rw [walk_eq_look, walk_eq_look, hone.others _ (indices_valid hv') hdiff,
        hagree.look_eq (indices_valid hv')]
    · have hne : 511 ≠ indices v 3 := by
        change 511 ≠ idx v 39
        omega
      rw [hone.root 511 hne, Mem.set_word_self]
    · intro f
      rw [hone.table, hagree.table]

/-- The first page of a program, in empty tables. -/
theorem initPagesForProcess_one_page_clear :
    ∃ m', clearedMem.initPagesForProcess 0x400000 0x300000 10 = some m' ∧
      m'.walk 10 0x400000 = some (entry 0x300000 7) ∧ Stock m' [603, 604, 605] := by
  have hempty : ∀ i, i < pageTables.entries 3 →
      pageTables.child (clearedMem.word 10 i) = none := by
    intro i _
    change pageTables.child 0 = none
    decide
  have htree : TreeAt clearedMem 10 [600, 601, 602, 603, 604, 605] :=
    ⟨Radix.sound_of_empty hempty, fun f hf => by
      rw [Radix.table_of_empty hempty]
      rintro rfl
      simp at hf⟩
  obtain ⟨hiff, hall⟩ := initPagesForProcess_one_page clearedMem 10 0x400000 0x300000
    [600, 601, 602, 603, 604, 605] htree clearedMem_stock (by decide) (by decide) (by decide)
    (by decide)
  obtain ⟨m', hrun⟩ := hiff.mpr (by decide)
  obtain ⟨hwalk, -, -, -, -, hstock, -⟩ := hall m' hrun
  exact ⟨m', hrun, hwalk, hstock⟩

end X86Kernel.Paging
