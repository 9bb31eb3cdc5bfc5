import X86Kernel.Paging.Share

/-!
`dealloc_pml4` on one of many trees. Its loops clear the tables and give `free` the
frame of every page and of every table below the PML4. What goes back to the list
follows from the counts alone: a frame goes there with the call that finds its count
at one.
-/

namespace X86Kernel.Paging

open Lib

theorem addrOf_eq (e : Word) : addrOf e = frameOf e * 4096 :=
  (Nat.div_mul_cancel (addrOf_dvd e)).symm

/-- The frames that the loops of `dealloc_pml4` give to `free`, in this order. -/
def freedLevel (word : Nat → Nat → Word) : Nat → Nat → List Nat
  | 0, t => (List.range (Mem.entries 0)).filterMap fun i =>
      if present (word t i) then some (frameOf (word t i)) else none
  | l + 1, t => (List.range (Mem.entries (l + 1))).flatMap fun i =>
      if present (word t i) then
        freedLevel word l (frameOf (word t i)) ++ [frameOf (word t i)]
      else []

def Mem.freeAll (m : Mem) (fs : List Nat) : Mem := fs.foldl (fun m f => m.free (f * 4096)) m

def Mem.withWords (m : Mem) (ws : Nat → Nat → Word) : Mem := { m with word := ws }

section FreeAll

variable {m : Mem} {fs : List Nat}

theorem freeAll_append (m : Mem) (fs gs : List Nat) :
    m.freeAll (fs ++ gs) = (m.freeAll fs).freeAll gs := List.foldl_append

@[simp] theorem freeAll_word (m : Mem) (fs : List Nat) : (m.freeAll fs).word = m.word := by
  unfold Mem.freeAll
  induction fs generalizing m with
  | nil => rfl
  | cons f fs ih => rw [List.foldl_cons, ih, Mem.free_word]

theorem free_withWords (m : Mem) (a : Nat) (ws : Nat → Nat → Word) :
    (m.free a).withWords ws = (m.withWords ws).free a := by
  unfold Mem.free Mem.withWords Mem.setPage
  dsimp only
  split_ifs <;> rfl

/-- `free` neither reads nor writes the words of memory. -/
theorem freeAll_withWords (m : Mem) (fs : List Nat) (ws : Nat → Nat → Word) :
    (m.freeAll fs).withWords ws = (m.withWords ws).freeAll fs := by
  unfold Mem.freeAll
  induction fs generalizing m with
  | nil => rfl
  | cons f fs ih => rw [List.foldl_cons, List.foldl_cons, ih, free_withWords]

theorem withWords_set (m : Mem) (ws : Nat → Nat → Word) (t i : Nat) (w : Word) :
    ((m.withWords ws).freeAll fs).set t i w =
      (m.withWords (Function.update ws t (Function.update (ws t) i w))).freeAll fs := by
  have hset : ∀ m' : Mem, m'.set t i w =
      m'.withWords (Function.update m'.word t (Function.update (m'.word t) i w)) := fun _ => rfl
  rw [hset, freeAll_withWords, freeAll_word]
  rfl

theorem withWords_withWords (m : Mem) (ws ws' : Nat → Nat → Word) :
    (m.withWords ws).withWords ws' = m.withWords ws' := rfl

end FreeAll

section Counts

variable {m : Mem} {f : Nat} {l : List Nat}

/-- `free` of a frame that has more than one reference. -/
theorem free_shared (haddr : (m.page f).address = f * 4096) (hrc : 1 < (m.page f).refCount) :
    (m.free (f * 4096)).head = m.head ∧ (m.free (f * 4096)).page =
      Function.update m.page f { m.page f with refCount := (m.page f).refCount - 1 } := by
  unfold Mem.free
  dsimp only
  rw [frame_div, if_pos ⟨haddr, hrc⟩]
  exact ⟨rfl, rfl⟩

/-- `free` of a frame with its last reference. -/
theorem free_last (haddr : (m.page f).address = f * 4096) (hrc : ¬ 1 < (m.page f).refCount) :
    (m.free (f * 4096)).head = some f ∧ (m.free (f * 4096)).page =
      Function.update m.page f { m.page f with free := true, next := m.head } := by
  unfold Mem.free
  dsimp only
  rw [frame_div, if_neg (fun hcon => hrc hcon.2), if_pos haddr]
  exact ⟨rfl, rfl⟩

/-- The frame goes to the front of the list. -/
theorem Stock.push (h : Stock m l) (hf : f ∉ l) (haddr : (m.page f).address = f * 4096)
    (hrc : ¬ 1 < (m.page f).refCount) : Stock (m.free (f * 4096)) (f :: l) := by
  obtain ⟨hhead, hpage⟩ := free_last haddr hrc
  have hkeep : ∀ g ∈ l, (m.free (f * 4096)).page g = m.page g := by
    intro g hg
    rw [hpage, Function.update_of_ne]
    rintro rfl
    exact hf hg
  refine ⟨?_, ?_, ?_⟩
  · unfold FreeList
    rw [hhead]
    refine .cons ?_
    rw [hpage, Function.update_self]
    exact Chain.congr h.list fun g hg => by rw [← hpage, hkeep g hg]
  · intro g hg
    obtain rfl | hg := List.mem_cons.mp hg
    · rw [hpage, Function.update_self]
      exact haddr
    · rw [hkeep g hg, h.address g hg]
  · intro g hg
    obtain rfl | hg := List.mem_cons.mp hg
    · rw [hpage, Function.update_self]
    · rw [hkeep g hg, h.free g hg]

/-- The frame keeps its other references. -/
theorem Stock.release (h : Stock m l) (hf : f ∉ l) (haddr : (m.page f).address = f * 4096)
    (hrc : 1 < (m.page f).refCount) : Stock (m.free (f * 4096)) l := by
  obtain ⟨hhead, hpage⟩ := free_shared haddr hrc
  have hkeep : ∀ g ∈ l, (m.free (f * 4096)).page g = m.page g := by
    intro g hg
    rw [hpage, Function.update_of_ne]
    rintro rfl
    exact hf hg
  refine ⟨?_, fun g hg => by rw [hkeep g hg, h.address g hg],
    fun g hg => by rw [hkeep g hg, h.free g hg]⟩
  unfold FreeList
  rw [hhead]
  exact Chain.congr h.list fun g hg => by rw [hkeep g hg]

/-- The frames `fs` can be given to `free`: they are in use, and none of them is given
up more often than it is referred to. -/
structure Releasable (m : Mem) (l fs : List Nat) : Prop where
  address : ∀ f ∈ fs, (m.page f).address = f * 4096
  used : ∀ f ∈ fs, f ∉ l
  count : ∀ f ∈ fs, fs.count f ≤ max 1 (m.page f).refCount

/-- The frames whose last reference was given up are on the list now. -/
theorem freeAll_spec (m : Mem) (l fs : List Nat) (hl : Stock m l) (h : Releasable m l fs) :
    ∃ l', Stock (m.freeAll fs) (l' ++ l) ∧
      (∀ f, f ∈ l' ↔ f ∈ fs ∧ (m.page f).refCount ≤ fs.count f) ∧
      (∀ f, f ∉ fs → (m.freeAll fs).page f = m.page f) ∧
      ∀ f, f ∉ l' → ((m.freeAll fs).page f).refCount = (m.page f).refCount - fs.count f := by
  induction fs generalizing m l with
  | nil => exact ⟨[], hl, by simp, fun _ _ => rfl, fun _ _ => rfl⟩
  | cons f fs ih =>
      have haddr := h.address f (by simp)
      have hused := h.used f (by simp)
      have hcount := h.count f (by simp)
      rw [List.count_cons_self] at hcount
      have hrun : m.freeAll (f :: fs) = (m.free (f * 4096)).freeAll fs := rfl
      rw [hrun]
      by_cases hrc : 1 < (m.page f).refCount
      · obtain ⟨-, hpage⟩ := free_shared haddr hrc
        have hother : ∀ g, g ≠ f → (m.free (f * 4096)).page g = m.page g := by
          intro g hg
          rw [hpage, Function.update_of_ne hg]
        have hself : ((m.free (f * 4096)).page f).refCount = (m.page f).refCount - 1 := by
          rw [hpage, Function.update_self]
        have hrel : Releasable (m.free (f * 4096)) l fs := by
          refine ⟨?_, fun g hg => h.used g (by simp [hg]), ?_⟩
          · intro g hg
            by_cases hgf : g = f
            · subst hgf
              rw [hpage, Function.update_self]
              exact haddr
            · rw [hother g hgf]
              exact h.address g (by simp [hg])
          · intro g hg
            have hle := h.count g (by simp [hg])
            by_cases hgf : g = f
            · subst hgf
              rw [hself]
              omega
            · rw [List.count_cons_of_ne (Ne.symm hgf)] at hle
              rw [hother g hgf]
              exact hle
        obtain ⟨l', hstock, hmem, hkeep, hrest⟩ := ih (m.free (f * 4096)) l
          (hl.release hused haddr hrc) hrel
        refine ⟨l', hstock, ?_, ?_, ?_⟩
        · intro g
          rw [hmem]
          by_cases hg : g = f
          · subst hg
            rw [hself, List.count_cons_self]
            simp only [List.mem_cons, true_or, true_and]
            refine ⟨fun hcon => by omega, fun hle => ⟨?_, by omega⟩⟩
            exact List.count_pos_iff.mp (by omega)
          · rw [hother g hg, List.count_cons_of_ne (Ne.symm hg)]
            simp [hg]
        · intro g hg
          have hgf : g ≠ f := fun hcon => hg (by simp [hcon])
          rw [hkeep g (fun hcon => hg (by simp [hcon])), hother g hgf]
        · intro g hg
          rw [hrest g hg]
          by_cases hgf : g = f
          · subst hgf
            rw [hself, List.count_cons_self]
            omega
          · rw [hother g hgf, List.count_cons_of_ne (Ne.symm hgf)]
      · obtain ⟨-, hpage⟩ := free_last haddr hrc
        have hother : ∀ g, g ≠ f → (m.free (f * 4096)).page g = m.page g := by
          intro g hg
          rw [hpage, Function.update_of_ne hg]
        -- the call was the last one for this frame
        have hnone : f ∉ fs := by
          rw [← List.count_eq_zero]
          omega
        have hne : ∀ g ∈ fs, g ≠ f := by
          rintro g hg rfl
          exact hnone hg
        have hrel : Releasable (m.free (f * 4096)) (f :: l) fs := by
          refine ⟨?_, ?_, ?_⟩
          · intro g hg
            rw [hother g (hne g hg)]
            exact h.address g (by simp [hg])
          · intro g hg
            rw [List.mem_cons, not_or]
            exact ⟨hne g hg, h.used g (by simp [hg])⟩
          · intro g hg
            have hle := h.count g (by simp [hg])
            rw [List.count_cons_of_ne (Ne.symm (hne g hg))] at hle
            rw [hother g (hne g hg)]
            exact hle
        obtain ⟨l', hstock, hmem, hkeep, hrest⟩ := ih (m.free (f * 4096)) (f :: l)
          (hl.push hused haddr hrc) hrel
        refine ⟨l' ++ [f], by simpa using hstock, ?_, ?_, ?_⟩
        · intro g
          rw [List.mem_append, hmem, List.mem_singleton, List.mem_cons]
          by_cases hg : g = f
          · subst hg
            rw [List.count_cons_self]
            simp only [true_or, or_true, true_and, true_iff]
            omega
          · rw [hother g hg, List.count_cons_of_ne (Ne.symm hg)]
            simp [hg]
        · intro g hg
          have hgf : g ≠ f := fun hcon => hg (by simp [hcon])
          rw [hkeep g (fun hcon => hg (by simp [hcon])), hother g hgf]
        · intro g hg
          have hgf : g ≠ f := fun hcon => hg (by simp [hcon])
          rw [hrest g (fun hcon => hg (by simp [hcon])), hother g hgf,
            List.count_cons_of_ne (Ne.symm hgf)]

end Counts

section Loops

variable {word ws : Nat → Nat → Word} {l t j : Nat}

/-- The frames given to `free` for the first `j` entries of a table above others. -/
def freedBehind (word : Nat → Nat → Word) (l t j : Nat) : List Nat :=
  (List.range j).flatMap fun i =>
    if present (word t i) then
      freedLevel word l (frameOf (word t i)) ++ [frameOf (word t i)]
    else []

theorem freedLevel_congr {word' : Nat → Nat → Word}
    (h : ∀ g, pageTables.Table word l t g → word' g = word g) :
    freedLevel word' l t = freedLevel word l t := by
  induction l generalizing t with
  | zero =>
      unfold freedLevel
      rw [h t .root]
  | succ l ih =>
      unfold freedLevel
      rw [h t .root]
      refine List.flatMap_congr fun i hi => ?_
      by_cases hpres : present (word t i) = true
      · have hu := pageTables_child_some.mpr ⟨hpres, rfl⟩
        rw [if_pos hpres, if_pos hpres, ih fun g hg => h g (hg.of_child (List.mem_range.mp hi) hu)]
      · rw [if_neg hpres, if_neg hpres]

structure Cleared (word : Nat → Nat → Word) (l t : Nat) (ws : Nat → Nat → Word) : Prop where
  zero : ∀ i, i < pageTables.entries l → ws t i = 0
  past : ∀ i, pageTables.entries l ≤ i → ws t i = word t i
  frame : ∀ f, ¬ pageTables.Table word l t f → ws f = word f

structure Clearing (word : Nat → Nat → Word) (l t j : Nat) (ws : Nat → Nat → Word) : Prop where
  zero : ∀ i, i < j → ws t i = 0
  past : ∀ i, j ≤ i → ws t i = word t i
  frame : ∀ f, f ≠ t → (∀ i, i < j → ∀ v, pageTables.child (word t i) = some v →
    ¬ pageTables.Table word l v f) → ws f = word f

/-- The loop over a page table. -/
theorem deallocLevel_zero (m : Mem) (t : Nat) :
    ∃ ws, Mem.deallocLevel 0 m t = (m.withWords ws).freeAll (freedLevel m.word 0 t) ∧
      Cleared m.word 0 t ws := by
  have hloop := foldl_range_invariant (n := Mem.entries 0) (s := m)
    (f := fun m l => (if present (m.word t l) then m.free (addrOf (m.word t l)) else m).set t l 0)
    (P := fun j m₁ => ∃ ws, m₁ = (m.withWords ws).freeAll ((List.range j).filterMap fun i =>
        if present (m.word t i) then some (frameOf (m.word t i)) else none) ∧
      (∀ i, i < j → ws t i = 0) ∧ (∀ i, j ≤ i → ws t i = m.word t i) ∧
      ∀ f, f ≠ t → ws f = m.word f)
    ⟨m.word, rfl, fun i hi => absurd hi (Nat.not_lt_zero i), fun _ _ => rfl, fun _ _ => rfl⟩ ?_
  · obtain ⟨ws, hrun, hzero, hpast, hframe⟩ := hloop
    exact ⟨ws, hrun, hzero, hpast, hframe⟩
  · rintro j m₁ - ⟨ws, rfl, hzero, hpast, hframe⟩
    refine ⟨Function.update ws t (Function.update (ws t) j 0), ?_, ?_, ?_, ?_⟩
    · rw [freeAll_word]
      have hword : (m.withWords ws).word t j = m.word t j := hpast j le_rfl
      rw [hword, List.range_succ, List.filterMap_append, freeAll_append]
      by_cases hpres : present (m.word t j) = true
      · simp only [if_pos hpres, addrOf_eq]
        rw [← freeAll_append, ← withWords_set, freeAll_append]
        simp [Mem.freeAll, hpres]
      · rw [if_neg hpres, withWords_set]
        simp [Mem.freeAll, hpres]
    · intro i hi
      by_cases hij : i = j
      · simp [hij]
      · simp [hij, hzero i (by omega)]
    · intro i hi
      have hij : i ≠ j := by omega
      simp [hij, hpast i (by omega)]
    · intro f hf
      rw [Function.update_of_ne hf, hframe f hf]

/-- The table behind entry `j` is done, and the entry cleared. -/
theorem Clearing.step {ws' : Nat → Nat → Word} {v : Nat} (h : Clearing word l t j ws)
    (hs : pageTables.Sound word (l + 1) t) (hj : j < pageTables.entries (l + 1))
    (hv : pageTables.child (word t j) = some v) (hc : Cleared ws l v ws')
    (hsame : ∀ g, pageTables.Table word l v g → ws g = word g) :
    Clearing word l t (j + 1) (Function.update ws' t (Function.update (ws' t) j 0)) := by
  have hagree : pageTables.Agree id word ws l v := .of_eq hsame
  have hkeep : ∀ f, ¬ pageTables.Table word l v f → ws' f = ws f :=
    fun f hf => hc.frame f (by rwa [hagree.table])
  have hroot : ws' t = ws t := hkeep t (hs.1 j hj v hv).2
  refine ⟨?_, ?_, ?_⟩
  · intro i hi
    rw [Function.update_self, hroot]
    by_cases hij : i = j
    · simp [hij]
    · rw [Function.update_of_ne hij, h.zero i (by omega)]
  · intro i hi
    have hij : i ≠ j := by omega
    rw [Function.update_self, hroot, Function.update_of_ne hij, h.past i (by omega)]
  · intro f hf hnot
    rw [Function.update_of_ne hf, hkeep f (hnot j (by omega) v hv),
      h.frame f hf fun i hi => hnot i (by omega)]

/-- An entry that leads nowhere is cleared all the same. -/
theorem Clearing.skip (h : Clearing word l t j ws) :
    Clearing word l t (j + 1) (Function.update ws t (Function.update (ws t) j 0)) := by
  refine ⟨?_, ?_, ?_⟩
  · intro i hi
    rw [Function.update_self]
    by_cases hij : i = j
    · simp [hij]
    · rw [Function.update_of_ne hij, h.zero i (by omega)]
  · intro i hi
    have hij : i ≠ j := by omega
    rw [Function.update_self, Function.update_of_ne hij, h.past i (by omega)]
  · intro f hf hnot
    rw [Function.update_of_ne hf, h.frame f hf fun i hi => hnot i (by omega)]

/-- The loops of `dealloc_pml4` at any level. -/
theorem deallocLevel_spec (l : Nat) (m : Mem) (t : Nat) (hs : pageTables.Sound m.word l t) :
    ∃ ws, Mem.deallocLevel l m t = (m.withWords ws).freeAll (freedLevel m.word l t) ∧
      Cleared m.word l t ws := by
  induction l generalizing m t with
  | zero => exact deallocLevel_zero m t
  | succ l ih =>
      have hloop := foldl_range_invariant (n := Mem.entries (l + 1)) (s := m)
        (f := fun m i => (if present (m.word t i) then
            let m' := Mem.deallocLevel l m (frameOf (m.word t i))
            m'.free (addrOf (m'.word t i))
          else m).set t i 0)
        (P := fun j m₁ => ∃ ws, m₁ = (m.withWords ws).freeAll (freedBehind m.word l t j) ∧
          Clearing m.word l t j ws)
        ⟨m.word, rfl, fun i hi => absurd hi (Nat.not_lt_zero i), fun _ _ => rfl,
          fun _ _ _ => rfl⟩ ?_
      · obtain ⟨ws, hrun, hdone⟩ := hloop
        refine ⟨ws, hrun, hdone.zero, hdone.past, fun f hf => hdone.frame f ?_ ?_⟩
        · rintro rfl
          exact hf .root
        · exact fun i hi v hv hcon => hf (hcon.of_child hi hv)
      · rintro j m₁ hj ⟨ws, rfl, hC⟩
        have hword : ((m.withWords ws).freeAll (freedBehind m.word l t j)).word t j =
            m.word t j := by
          rw [freeAll_word]
          exact hC.past j le_rfl
        rw [hword]
        by_cases hpres : present (m.word t j) = true
        · have hv := pageTables_child_some.mpr ⟨hpres, rfl⟩
          obtain ⟨hsub, hroot⟩ := hs.1 j hj _ hv
          have hsame : ∀ g, pageTables.Table m.word l (frameOf (m.word t j)) g →
              ws g = m.word g := by
            intro g hg
            refine hC.frame g (fun hcon => hroot (hcon ▸ hg)) fun i hi x hx hcon => ?_
            exact hs.2 i j (Nat.lt_trans hi hj) hj (Nat.ne_of_lt hi) x _ hx hv g hcon hg
          obtain ⟨ws', hrun, hcleared⟩ := ih
            ((m.withWords ws).freeAll (freedBehind m.word l t j)) (frameOf (m.word t j)) (by
              rw [freeAll_word]
              exact (Radix.Agree.of_eq hsame).sound hsub)
          rw [freeAll_word] at hrun hcleared
          have hfreed : freedLevel (m.withWords ws).word l (frameOf (m.word t j)) =
              freedLevel m.word l (frameOf (m.word t j)) := freedLevel_congr hsame
          rw [freeAll_withWords, withWords_withWords, hfreed] at hrun
          have hroot' : ws' t j = m.word t j := by
            have hkeep := hcleared.frame t (by
              rw [show (m.withWords ws).word = ws from rfl, (Radix.Agree.of_eq hsame).table]
              exact hroot)
            rw [hkeep]
            exact hC.past j le_rfl
          refine ⟨_, ?_, hC.step hs hj hv hcleared hsame⟩
          rw [if_pos hpres, hrun]
          dsimp only
          rw [freeAll_word, freeAll_word, show (m.withWords ws').word t j = ws' t j from rfl,
            hroot', addrOf_eq, ← withWords_set]
          simp [freedBehind, List.range_succ, hpres, Mem.freeAll]
        · refine ⟨_, ?_, hC.skip⟩
          rw [if_neg hpres, withWords_set]
          simp [freedBehind, List.range_succ, hpres]

/-- Each page and each table below is given up once. -/
theorem freedLevel_perm (word : Nat → Nat → Word) (l t : Nat) :
    (freedLevel word l t).Perm
      ((pageTables.leaves word l t).map frameOf ++ pageTables.below word l t) := by
  induction l generalizing t with
  | zero =>
      refine List.Perm.of_eq ?_
      simp only [freedLevel, Radix.leaves, Radix.below, List.append_nil, List.map_filterMap]
      refine List.filterMap_congr fun i _ => ?_
      by_cases hpres : present (word t i) = true
      · simp [hpres, pageTables_child_isSome]
      · simp [hpres, pageTables_child_isSome]
  | succ l ih =>
      simp only [freedLevel, Radix.leaves, Radix.below, List.map_flatMap]
      refine List.Perm.trans (List.Perm.flatMap_left _ fun i _ => ?_)
        (List.flatMap_append_perm _ _ _).symm
      by_cases hpres : present (word t i) = true
      · rw [if_pos hpres, pageTables_child_some.mpr ⟨hpres, rfl⟩]
        simp only [Option.map_some, Option.getD_some]
        refine ((ih _).append_right _).trans ?_
        rw [List.append_assoc]
        exact List.perm_append_comm.append_left _
      · rw [if_neg hpres, pageTables_child_none.mpr hpres]
        simp

end Loops

/-- The trees of all processes. A frame is in one tree, where it is one table, or it is
mapped, and then its count is the number of entries that map it in all the trees. -/
structure Spaces (m : Mem) (ps l : List Nat) : Prop where
  stock : Stock m l
  nodup : ps.Nodup
  sound : ∀ p ∈ ps, pageTables.Sound m.word 3 p
  disjoint : ∀ p ∈ ps, ∀ q ∈ ps, p ≠ q → ∀ f, pageTables.Table m.word 3 p f →
    ¬ pageTables.Table m.word 3 q f
  kernel : ∀ p ∈ ps, ∀ q ∈ ps, ∀ f, pageTables.Table m.word 2 (frameOf (m.word q 511)) f →
    ¬ pageTables.Table m.word 3 p f
  table : ∀ p ∈ ps, ∀ f, pageTables.Table m.word 3 p f →
    f ∉ l ∧ (m.page f).address = f * 4096 ∧ (m.page f).refCount = 1
  leaf : ∀ p ∈ ps, ∀ e ∈ pageTables.leaves m.word 3 p, frameOf e ∉ l ∧
    (m.page (frameOf e)).address = frameOf e * 4096 ∧
    (∀ q ∈ ps, ¬ pageTables.Table m.word 3 q (frameOf e)) ∧
    (m.page (frameOf e)).refCount =
      (ps.map fun q => naming (frameOf e) (pageTables.leaves m.word 3 q)).sum

section Spaces

variable {m : Mem} {ps l : List Nat} {p f : Nat}

theorem naming_eq_count (f : Nat) (es : List Word) : naming f es = (es.map frameOf).count f := by
  unfold naming
  rw [List.count, List.countP_map]
  refine List.countP_congr fun e _ => ?_
  simp

theorem freedLevel_count (word : Nat → Nat → Word) (l t f : Nat) :
    (freedLevel word l t).count f =
      naming f (pageTables.leaves word l t) + (pageTables.below word l t).count f := by
  rw [(freedLevel_perm word l t).count_eq, List.count_append, naming_eq_count]

/-- One of the addends. -/
theorem naming_le_sum (word : Nat → Nat → Word) (hp : p ∈ ps) (f : Nat) :
    naming f (pageTables.leaves word 3 p) ≤
      (ps.map fun q => naming f (pageTables.leaves word 3 q)).sum :=
  List.le_sum_of_mem (List.mem_map_of_mem hp)

/-- No other tree has an addend if one has them all. -/
theorem sum_le_naming_iff (word : Nat → Nat → Word) (hnodup : ps.Nodup) (hp : p ∈ ps) (f : Nat) :
    (ps.map fun q => naming f (pageTables.leaves word 3 q)).sum ≤
        naming f (pageTables.leaves word 3 p) ↔
      ∀ q ∈ ps, q ≠ p → ∀ e ∈ pageTables.leaves word 3 q, frameOf e ≠ f := by
  have hperm := List.perm_cons_erase hp
  have hsum := ((hperm.map fun q => naming f (pageTables.leaves word 3 q)).sum_eq)
  rw [List.map_cons, List.sum_cons] at hsum
  have hzero : ((ps.erase p).map fun q => naming f (pageTables.leaves word 3 q)).sum = 0 ↔
      ∀ q ∈ ps, q ≠ p → ∀ e ∈ pageTables.leaves word 3 q, frameOf e ≠ f := by
    rw [List.sum_eq_zero_iff]
    constructor
    · intro h q hq hqp e he hef
      have hmem := hnodup.mem_erase_iff.mpr ⟨hqp, hq⟩
      have hnone := List.countP_eq_zero.mp (h _ (List.mem_map_of_mem hmem)) e he
      simp [hef] at hnone
    · intro h x hx
      obtain ⟨q, hq, rfl⟩ := List.mem_map.mp hx
      obtain ⟨hqp, hq⟩ := hnodup.mem_erase_iff.mp hq
      exact List.countP_eq_zero.mpr fun e he => by simpa using h q hq hqp e he
  rw [← hzero]
  omega

/-- The frames below one of the PML4s are tables, those of its pages are not. -/
theorem Spaces.releasable (h : Spaces m ps l) (hp : p ∈ ps) (ws : Nat → Nat → Word) :
    Releasable (m.withWords ws) l (freedLevel m.word 3 p) := by
  have hcases : ∀ f ∈ freedLevel m.word 3 p, f ∈ pageTables.below m.word 3 p ∨
      ∃ e ∈ pageTables.leaves m.word 3 p, frameOf e = f := by
    intro f hf
    have hmem := (freedLevel_perm m.word 3 p).mem_iff.mp hf
    rw [List.mem_append, List.mem_map] at hmem
    exact hmem.symm
  refine ⟨?_, ?_, ?_⟩
  · intro f hf
    obtain hf | ⟨e, he, rfl⟩ := hcases f hf
    · exact (h.table p hp f (Radix.table_iff_below.mpr (.inr hf))).2.1
    · exact (h.leaf p hp e he).2.1
  · intro f hf
    obtain hf | ⟨e, he, rfl⟩ := hcases f hf
    · exact (h.table p hp f (Radix.table_iff_below.mpr (.inr hf))).1
    · exact (h.leaf p hp e he).1
  · intro f hf
    rw [freedLevel_count]
    have hnodup := (List.nodup_cons.mp (h.sound p hp).nodup).2
    obtain hf | ⟨e, he, rfl⟩ := hcases f hf
    · have htable := Radix.table_iff_below.mpr (.inr hf)
      have hzero : naming f (pageTables.leaves m.word 3 p) = 0 := by
        refine List.countP_eq_zero.mpr fun e he => ?_
        simp only [decide_eq_true_eq]
        rintro rfl
        exact (h.leaf p hp e he).2.2.1 p hp htable
      have hone := List.nodup_iff_count_le_one.mp hnodup f
      omega
    · obtain ⟨-, -, hnot, hrc⟩ := h.leaf p hp e he
      have hzero : (pageTables.below m.word 3 p).count (frameOf e) = 0 := by
        rw [List.count_eq_zero]
        exact fun hcon => hnot p hp (Radix.table_iff_below.mpr (.inr hcon))
      have hle := naming_le_sum m.word hp (frameOf e)
      have hrc' : ((m.withWords ws).page (frameOf e)).refCount = _ := hrc
      omega

/-- A tree without tables of the other is found as before, and so is the kernel's part. -/
theorem walk_of_frame {m' : Mem} {q : Nat} (hroot : m'.word q = m.word q)
    (huser : ∀ f, pageTables.Table m.word 3 q f → m'.word f = m.word f)
    (hkernel : ∀ f, pageTables.Table m.word 2 (frameOf (m.word q 511)) f → m'.word f = m.word f)
    (v : Nat) : m'.walk q v = m.walk q v := by
  have hbelow : ∀ j ≤ 2, indices v j < pageTables.entries j := by
    intro j hj
    have hentries : pageTables.entries j = 512 := if_neg (by omega)
    rw [hentries]
    exact Nat.mod_lt _ (by decide)
  rw [walk_eq_look, walk_eq_look]
  simp only [Radix.look, hroot]
  by_cases hlast : indices v (2 + 1) = 511
  · rw [hlast]
    cases hu : pageTables.child (m.word q 511) with
    | none => rfl
    | some u =>
        obtain ⟨-, rfl⟩ := pageTables_child_some.mp hu
        exact (Radix.Agree.of_eq hkernel).look_eq hbelow
  · have hlt : indices v (2 + 1) < pageTables.entries (2 + 1) := by
      have hmod : indices v (2 + 1) < 512 := Nat.mod_lt _ (by decide)
      change indices v (2 + 1) < 511
      omega
    cases hu : pageTables.child (m.word q (indices v (2 + 1))) with
    | none => rfl
    | some u =>
        exact (Radix.Agree.of_eq fun g hg => huser g (hg.of_child hlt hu)).look_eq hbelow

end Spaces

/-- `dealloc_pml4` gives up one address space: what it maps and what it is made of, and
nothing that another one uses. -/
theorem deallocPml4_releases (m : Mem) (ps l : List Nat) (p : Nat) (h : Spaces m ps l)
    (hp : p ∈ ps) :
    (∃ ws, m.deallocPml4 p = (m.withWords ws).freeAll (freedLevel m.word 3 p)) ∧
    (freedLevel m.word 3 p).Perm
      ((pageTables.leaves m.word 3 p).map frameOf ++ pageTables.below m.word 3 p) ∧
    (∃ l', Stock (m.deallocPml4 p) (l' ++ l) ∧ ∀ f, f ∈ l' ↔
      f ∈ pageTables.below m.word 3 p ∨ (∃ e ∈ pageTables.leaves m.word 3 p, frameOf e = f) ∧
        ∀ q ∈ ps, q ≠ p → ∀ e ∈ pageTables.leaves m.word 3 q, frameOf e ≠ f) ∧
    (∀ i, i < 511 → (m.deallocPml4 p).word p i = 0) ∧
    (m.deallocPml4 p).word p 511 = m.word p 511 ∧ (m.deallocPml4 p).page p = m.page p ∧
    ∀ q ∈ ps, q ≠ p → ∀ v, (m.deallocPml4 p).walk q v = m.walk q v := by
  obtain ⟨ws, hrun, hcleared⟩ := deallocLevel_spec 3 m p (h.sound p hp)
  obtain ⟨l', hstock, hmem, hkeep, -⟩ := freeAll_spec (m.withWords ws) l (freedLevel m.word 3 p)
    (h.stock.congr rfl rfl) (h.releasable hp ws)
  have hrun : m.deallocPml4 p = (m.withWords ws).freeAll (freedLevel m.word 3 p) := hrun
  have hword : (m.deallocPml4 p).word = ws := by rw [hrun, freeAll_word]; rfl
  have hperm := freedLevel_perm m.word 3 p
  have hnodup := List.nodup_cons.mp (h.sound p hp).nodup
  refine ⟨⟨ws, hrun⟩, hperm, ⟨l', hrun ▸ hstock, ?_⟩, ?_, ?_, ?_, ?_⟩
  · intro f
    rw [hmem, hperm.mem_iff, freedLevel_count, List.mem_append, List.mem_map]
    constructor
    · rintro ⟨⟨e, he, rfl⟩ | hf, hle⟩
      · obtain ⟨-, -, hnot, hrc⟩ := h.leaf p hp e he
        have hzero : (pageTables.below m.word 3 p).count (frameOf e) = 0 := by
          rw [List.count_eq_zero]
          exact fun hcon => hnot p hp (Radix.table_iff_below.mpr (.inr hcon))
        have hrc' : ((m.withWords ws).page (frameOf e)).refCount = _ := hrc
        refine .inr ⟨⟨e, he, rfl⟩, (sum_le_naming_iff m.word h.nodup hp _).mp ?_⟩
        omega
      · exact .inl hf
    · rintro (hf | ⟨⟨e, he, rfl⟩, hother⟩)
      · refine ⟨.inr hf, ?_⟩
        have hone := (h.table p hp f (Radix.table_iff_below.mpr (.inr hf))).2.2
        have hone' : ((m.withWords ws).page f).refCount = 1 := hone
        have hpos := List.count_pos_iff.mpr hf
        omega
      · have hrc := (h.leaf p hp e he).2.2.2
        have hrc' : ((m.withWords ws).page (frameOf e)).refCount = _ := hrc
        have hle := (sum_le_naming_iff m.word h.nodup hp _).mpr hother
        exact ⟨.inl ⟨e, he, rfl⟩, by omega⟩
  · intro i hi
    rw [hword]
    exact hcleared.zero i hi
  · rw [hword]
    exact hcleared.past 511 le_rfl
  · rw [hrun, hkeep p ?_]
    · rfl
    · rw [hperm.mem_iff, List.mem_append, List.mem_map]
      rintro (⟨e, he, hcon⟩ | hcon)
      · exact (h.leaf p hp e he).2.2.1 p hp (hcon ▸ .root)
      · exact hnodup.1 hcon
  · intro q hq hqp v
    have hsame : ∀ f, ¬ pageTables.Table m.word 3 p f → (m.deallocPml4 p).word f = m.word f := by
      intro f hf
      rw [hword]
      exact hcleared.frame f hf
    refine walk_of_frame (hsame q (h.disjoint q hq p hp hqp q .root)) ?_ ?_ v
    · exact fun f hf => hsame f (h.disjoint q hq p hp hqp f hf)
    · exact fun f hf => hsame f (h.kernel p hp q hq f hf)

section Example

theorem onePageMem_empty :
    ∀ i, i < pageTables.entries 3 → pageTables.child (onePageMem.word 30 i) = none := by
  intro i _
  change pageTables.child 0 = none
  decide

theorem onePageMem_spaces : Spaces onePageMem [10, 30] [600, 601, 602, 603, 604, 605] := by
  obtain ⟨hsound, htable, -⟩ := onePageMem_tree
  have htable' := Radix.table_of_empty onePageMem_empty
  have hleaves : pageTables.leaves onePageMem.word 3 30 = [] := by
    refine List.eq_nil_iff_forall_not_mem.mpr fun e he => ?_
    obtain ⟨ix, hix, hlook⟩ := Radix.mem_leaves.mp he
    rw [Radix.look_of_empty onePageMem_empty hix] at hlook
    cases hlook
  have hkernel : ∀ f, pageTables.Table onePageMem.word 2 0 f → f = 0 := by
    intro f
    refine (Radix.table_of_empty (fun i _ => ?_) f).mp
    change pageTables.child 0 = none
    decide
  refine ⟨onePageMem_stock, by decide, ?_, ?_, ?_, ?_, ?_⟩
  · intro p hp
    obtain rfl | rfl : p = 10 ∨ p = 30 := by simpa using hp
    · exact hsound
    · exact Radix.sound_of_empty onePageMem_empty
  · intro p hp q hq hpq f hf hf'
    obtain rfl | rfl : p = 10 ∨ p = 30 := by simpa using hp
    · obtain rfl : q = 30 := by simpa [hpq.symm] using hq
      rw [htable] at hf
      rw [htable'] at hf'
      omega
    · obtain rfl : q = 10 := by simpa [hpq.symm] using hq
      rw [htable] at hf'
      rw [htable'] at hf
      omega
  · intro p hp q hq f hf hf'
    have hzero : onePageMem.word q 511 = 0 := by
      obtain rfl | rfl : q = 10 ∨ q = 30 := by simpa using hq
      · rfl
      · rfl
    rw [hzero] at hf
    obtain rfl := hkernel f hf
    obtain rfl | rfl : p = 10 ∨ p = 30 := by simpa using hp
    · rw [htable] at hf'
      omega
    · rw [htable'] at hf'
      omega
  · intro p hp f hf
    obtain rfl | rfl : p = 10 ∨ p = 30 := by simpa using hp
    · rw [htable] at hf
      obtain rfl | rfl | rfl | rfl := hf <;> decide
    · rw [htable'] at hf
      subst hf
      decide
  · intro p hp e he
    obtain rfl | rfl : p = 10 ∨ p = 30 := by simpa using hp
    · rw [onePageMem_leaf he]
      refine ⟨by decide, by decide, fun q hq => ?_, ?_⟩
      · obtain rfl | rfl : q = 10 ∨ q = 30 := by simpa using hq
        · rw [htable]
          decide
        · rw [htable']
          decide
      · rw [List.map_cons, List.map_cons, hleaves, onePageMem_tree.2.2]
        decide +kernel
    · simp [hleaves] at he

end Example

/-- The one process of `onePageMem` next to an empty address space: its three tables and
its page are free afterwards. -/
theorem deallocPml4_releases_one :
    ∃ l', Stock (onePageMem.deallocPml4 10) (l' ++ [600, 601, 602, 603, 604, 605]) ∧
      20 ∈ l' ∧ 11 ∈ l' ∧ (onePageMem.deallocPml4 10).word 10 0 = 0 := by
  obtain ⟨-, -, ⟨l', hstock, hmem⟩, hzero, -⟩ := deallocPml4_releases onePageMem [10, 30]
    [600, 601, 602, 603, 604, 605] 10 onePageMem_spaces (by simp)
  refine ⟨l', hstock, (hmem 20).mpr (.inr ⟨?_, ?_⟩), (hmem 11).mpr (.inl ?_), hzero 0 (by decide)⟩
  · refine ⟨entry (20 * 4096) 7, ?_, by decide +kernel⟩
    rw [onePageMem_tree.2.2]
    decide +kernel
  · intro q hq hq10 e he
    obtain rfl : q = 30 := by simpa [hq10] using hq
    obtain ⟨ix, hix, hlook⟩ := Radix.mem_leaves.mp he
    rw [Radix.look_of_empty onePageMem_empty hix] at hlook
    cases hlook
  · have htable := (onePageMem_tree.2.1 11).mpr (by decide)
    exact (Radix.table_iff_below.mp htable).resolve_left (by decide)

end X86Kernel.Paging
