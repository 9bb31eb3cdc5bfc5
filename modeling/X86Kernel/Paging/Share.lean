import X86Kernel.Paging.Tree

/-!
`copytables` on two trees: the child gets a table of its own for each of the parent's,
and their page tables come to hold the same entries. No frame has a role here: what is
asked of the parent is that it is a tree, and that no frame it leads to is free.
-/

namespace X86Kernel.Paging

open Lib

/-- Of the bits of an entry only the write bit and bit 9 change. -/
theorem getLsbD_shareEntry (e : Word) {i : Nat} (hi : i < 64) :
    (shareEntry e).getLsbD i = if i = 1 then false else if i = 9 then true else e.getLsbD i := by
  have hand : ∀ j : Fin 64, (0xFFFFFFFFFFFFFFFD : Word).getLsbD j = decide (j.val ≠ 1) := by decide
  have hor : ∀ j : Fin 64, (0x200 : Word).getLsbD j = decide (j.val = 9) := by decide
  unfold shareEntry
  rw [BitVec.getLsbD_or, BitVec.getLsbD_and, hand ⟨i, hi⟩, hor ⟨i, hi⟩]
  by_cases h1 : i = 1
  · simp [h1]
  · by_cases h9 : i = 9 <;> simp [h1, h9]

@[simp] theorem present_shareEntry (e : Word) : present (shareEntry e) = present e := by
  have hand : (0xFFFFFFFFFFFFFFFD : Word) &&& 1 = 1 := by decide
  have hor : (0x200 : Word) &&& 1 = 0 := by decide
  unfold present shareEntry
  rw [BitVec.and_or_distrib_right, BitVec.and_assoc, hand, hor]
  simp

@[simp] theorem frameOf_shareEntry (e : Word) : frameOf (shareEntry e) = frameOf e := by
  have hand : (0xFFFFFFFFFFFFFFFD : Word) &&& pageMask = pageMask := by decide
  have hor : (0x200 : Word) &&& pageMask = 0 := by decide
  unfold frameOf addrOf shareEntry
  rw [BitVec.and_or_distrib_right, BitVec.and_assoc, hand, hor]
  simp

theorem pageTables_child_share (w : Word) :
    (pageTables.child (shareEntry w)).isSome = (pageTables.child w).isSome := by
  rw [pageTables_child_isSome, pageTables_child_isSome, present_shareEntry]

/-- The entries of the last level that name the frame `f`. -/
def naming (f : Nat) (es : List Word) : Nat := es.countP fun e => frameOf e = f

@[simp] theorem naming_append (f : Nat) (es es' : List Word) :
    naming f (es ++ es') = naming f es + naming f es' := List.countP_append

/-- What `copytables` needs at the tables `t` of the parent and `u` of the child. -/
structure Sharable (m : Mem) (role : Nat → Role) (l t u : Nat) (s : List Nat) : Prop where
  sound : pageTables.Sound m.word l t
  stock : Stock m s
  lt : ∀ f ∈ s, f < capacity
  apart : ∀ f ∈ s, ¬ pageTables.Table m.word l t f
  child : ¬ pageTables.Table m.word l t u
  fresh : u ∉ s
  clear : ∀ i, i < pageTables.entries l → m.word u i = 0
  leaf : ∀ e ∈ pageTables.leaves m.word l t, frameOf e ∉ s
  linear : Linear m role
  kernel : ∀ f, role f = .kernel → f ∉ s ∧ f ≠ u ∧ ¬ pageTables.Table m.word l t f

/-- What it does there, with the first `k` free frames. -/
structure Shared (m : Mem) (l t u : Nat) (s : List Nat) (k : Nat) (m' : Mem) : Prop where
  stock : Stock m' (s.drop k)
  kpml4 : m'.kpml4 = m.kpml4
  parent : pageTables.Agree shareEntry m.word m'.word l t
  sound : pageTables.Sound m'.word l u
  table : ∀ f, pageTables.Table m'.word l u f ↔ f = u ∨ f ∈ s.take k
  copy : ∀ ix, pageTables.Valid l ix →
    pageTables.look m'.word l u ix = (pageTables.look m.word l t ix).map shareEntry
  count : ∀ f, (m'.page f).refCount = if f ∈ s.take k then 1
    else (m.page f).refCount + naming f (pageTables.leaves m.word l t)
  past : ∀ i, pageTables.entries l ≤ i → m'.word u i = m.word u i ∧ m'.word t i = m.word t i
  frame : ∀ f, f ≠ u → f ∉ s.take k → ¬ pageTables.Table m.word l t f → m'.word f = m.word f

section PageTable

variable {m m₁ : Mem} {t u j : Nat} {s : List Nat}

def leavesUpTo (word : Nat → Nat → Word) (t j : Nat) : List Word :=
  (List.range j).filterMap fun i =>
    if (pageTables.child (word t i)).isSome then some (word t i) else none

/-- The first `j` entries of a pair of page tables have been copied. -/
structure SharingPage (m : Mem) (t u : Nat) (s : List Nat) (j : Nat) (m₁ : Mem) : Prop where
  stock : Stock m₁ s
  kpml4 : m₁.kpml4 = m.kpml4
  parent : ∀ i, m₁.word t i =
    if i < j ∧ present (m.word t i) = true then shareEntry (m.word t i) else m.word t i
  child : ∀ i, m₁.word u i =
    if i < j ∧ present (m.word t i) = true then shareEntry (m.word t i) else m.word u i
  count : ∀ f, (m₁.page f).refCount = (m.page f).refCount + naming f (leavesUpTo m.word t j)
  frame : ∀ f, f ≠ t → f ≠ u → m₁.word f = m.word f

theorem naming_leavesUpTo_succ (word : Nat → Nat → Word) (t j f : Nat) :
    naming f (leavesUpTo word t (j + 1)) = naming f (leavesUpTo word t j) +
      if present (word t j) = true ∧ frameOf (word t j) = f then 1 else 0 := by
  unfold leavesUpTo
  rw [List.range_succ, List.filterMap_append, naming_append]
  congr 1
  cases h : present (word t j) with
  | false => simp [naming, h, pageTables_child_isSome]
  | true => simp [naming, h, pageTables_child_isSome, List.countP_singleton]

/-- A count is no part of the list. -/
theorem Stock.increfcount (h : Stock m s) (a : Nat) : Stock (m.increfcount a) s := by
  have hnext : ∀ f, ((m.increfcount a).page f).next = (m.page f).next ∧
      ((m.increfcount a).page f).address = (m.page f).address ∧
      ((m.increfcount a).page f).free = (m.page f).free := by
    intro f
    unfold Mem.increfcount Mem.setPage
    by_cases hf : f = a / 4096
    · simp [hf]
    · simp [hf]
  refine ⟨Chain.congr h.list fun f _ => (hnext f).1, ?_, ?_⟩
  · intro f hf
    rw [(hnext f).2.1]
    exact h.address f hf
  · intro f hf
    rw [(hnext f).2.2]
    exact h.free f hf

/-- The next entry. -/
theorem SharingPage.step (h : SharingPage m t u s j m₁) (htu : t ≠ u) :
    ∃ m₂, (if present (m₁.word t j) then
        let m := m₁.increfcount (addrOf (m₁.word t j))
        let m := m.set t j (shareEntry (m.word t j))
        some (m.set u j (m.word t j))
      else some m₁) = some m₂ ∧ SharingPage m t u s (j + 1) m₂ := by
  have hword : m₁.word t j = m.word t j := by
    rw [h.parent, if_neg (fun hcon => Nat.lt_irrefl _ hcon.1)]
  have hlt : ∀ {i}, i ≠ j → (i < j + 1 ↔ i < j) := fun hi => by omega
  rw [hword]
  by_cases hpres : present (m.word t j) = true
  · refine ⟨_, if_pos hpres, (h.stock.increfcount _).congr rfl rfl, h.kpml4, ?_, ?_, ?_, ?_⟩
    · intro i
      rw [Mem.set_word_of_ne _ _ htu, Mem.set_word]
      by_cases hi : i = j
      · subst hi
        rw [if_pos ⟨rfl, rfl⟩, if_pos ⟨Nat.lt_succ_self _, hpres⟩, Mem.increfcount_word, hword]
      · rw [if_neg (fun hcon => hi hcon.2), Mem.increfcount_word, h.parent]
        simp only [hlt hi]
    · intro i
      rw [Mem.set_word]
      by_cases hi : i = j
      · subst hi
        rw [if_pos ⟨rfl, rfl⟩, if_pos ⟨Nat.lt_succ_self _, hpres⟩, Mem.set_word_self,
          Mem.increfcount_word, hword]
      · rw [if_neg (fun hcon => hi hcon.2), Mem.set_word_of_ne _ _ (Ne.symm htu),
          Mem.increfcount_word, h.child]
        simp only [hlt hi]
    · intro f
      rw [naming_leavesUpTo_succ, ← Nat.add_assoc, ← h.count f, Mem.set_page, Mem.set_page]
      simp only [hpres, true_and]
      unfold Mem.increfcount Mem.setPage
      by_cases hf : frameOf (m.word t j) = f
      · subst hf
        simp [frameOf]
      · rw [if_neg hf]
        have hne : f ≠ addrOf (m.word t j) / 4096 := fun hcon => hf hcon.symm
        simp [hne]
    · intro f hft hfu
      rw [Mem.set_word_of_ne _ _ hfu, Mem.set_word_of_ne _ _ hft, Mem.increfcount_word,
        h.frame f hft hfu]
  · refine ⟨m₁, if_neg hpres, h.stock, h.kpml4, ?_, ?_, ?_, h.frame⟩
    · intro i
      rw [h.parent]
      by_cases hi : i = j
      · subst hi
        simp [hpres]
      · simp only [hlt hi]
    · intro i
      rw [h.child]
      by_cases hi : i = j
      · subst hi
        simp [hpres]
      · simp only [hlt hi]
    · intro f
      rw [naming_leavesUpTo_succ, if_neg (fun hcon => hpres hcon.1), h.count f, Nat.add_zero]

/-- The loop over a pair of page tables. -/
theorem copyLevel_zero {role : Nat → Role} (h : Sharable m role 0 t u s) :
    ∃ m', Mem.copyLevel 0 m t u = some m' ∧ Shared m 0 t u s 0 m' := by
  have htu : t ≠ u := fun hcon => h.child hcon.symm
  have hstart : SharingPage m t u s 0 m :=
    ⟨h.stock, rfl, fun i => by simp, fun i => by simp, fun f => by simp [leavesUpTo, naming],
      fun _ _ _ => rfl⟩
  obtain ⟨m', hrun, hdone⟩ := foldlM_range_total (n := Mem.entries 0) hstart
    (fun j m₁ _ hj => hj.step htu)
  refine ⟨m', hrun, hdone.stock, hdone.kpml4, ?_, trivial, by simp [Radix.Table], ?_, ?_, ?_, ?_⟩
  · intro i hi
    rw [hdone.parent i, pageTables_child_isSome]
    simp only [show i < Mem.entries 0 from hi, true_and]
  · intro ix hix
    have hlt : ix 0 < Mem.entries 0 := hix 0 le_rfl
    simp only [Radix.look, pageTables_child_isSome, hdone.child, hlt, true_and]
    by_cases hpres : present (m.word t (ix 0)) = true
    · simp [hpres]
    · rw [Bool.not_eq_true] at hpres
      simp only [hpres, Bool.false_eq_true, if_false, h.clear _ hlt, present_zero, Option.map_none]
  · intro f
    rw [List.take_zero, if_neg List.not_mem_nil]
    exact hdone.count f
  · intro i hi
    have hnot : ¬ i < Mem.entries 0 := Nat.not_lt.mpr hi
    rw [hdone.child, hdone.parent]
    simp [hnot]
  · intro f hfu _ hft
    exact hdone.frame f (fun hcon => hft hcon) hfu

end PageTable

section Directory

variable {m m₁ : Mem} {role : Nat → Role} {l t u j k : Nat} {s : List Nat}

/-- The entries of the last level behind the first `j` entries of `t`, and the tables
below those. -/
def leavesBehind (word : Nat → Nat → Word) (l t j : Nat) : List Word :=
  (List.range j).flatMap fun i =>
    ((pageTables.child (word t i)).map (pageTables.leaves word l)).getD []

def belowBehind (word : Nat → Nat → Word) (l t j : Nat) : List Nat :=
  (List.range j).flatMap fun i =>
    ((pageTables.child (word t i)).map fun v => v :: pageTables.below word l v).getD []

/-- The first `j` entries of the tables `t` and `u` have been copied, with `k` frames. -/
structure Sharing (m : Mem) (l t u : Nat) (s : List Nat) (j k : Nat) (m₁ : Mem) : Prop where
  stock : Stock m₁ (s.drop k)
  enough : k ≤ s.length
  kpml4 : m₁.kpml4 = m.kpml4
  row : m₁.word t = m.word t
  parent : ∀ i v, i < pageTables.entries (l + 1) → pageTables.child (m.word t i) = some v →
    pageTables.Agree (if i < j then shareEntry else id) m.word m₁.word l v
  sound : pageTables.Sound m₁.word (l + 1) u
  table : ∀ f, pageTables.Table m₁.word (l + 1) u f ↔ f = u ∨ f ∈ s.take k
  rest : ∀ i, j ≤ i → m₁.word u i = m.word u i
  copy : ∀ ix, pageTables.Valid (l + 1) ix → pageTables.look m₁.word (l + 1) u ix =
    if ix (l + 1) < j then (pageTables.look m.word (l + 1) t ix).map shareEntry else none
  count : ∀ f, (m₁.page f).refCount = if f ∈ s.take k then 1
    else (m.page f).refCount + naming f (leavesBehind m.word l t j)
  frame : ∀ f, f ≠ u → f ∉ s.take k → ¬ pageTables.Table m.word (l + 1) t f →
    m₁.word f = m.word f

theorem Sharable.clear_child (h : Sharable m role (l + 1) t u s) {i : Nat}
    (hi : i < pageTables.entries (l + 1)) : pageTables.child (m.word u i) = none := by
  rw [h.clear i hi]
  decide

theorem Sharable.start (h : Sharable m role (l + 1) t u s) : Sharing m l t u s 0 0 m := by
  have hempty : ∀ i, i < pageTables.entries (l + 1) → pageTables.child (m.word u i) = none :=
    fun i hi => h.clear_child hi
  refine ⟨h.stock, Nat.zero_le _, rfl, rfl, ?_, Radix.sound_of_empty hempty, ?_, fun _ _ => rfl, ?_,
    ?_, fun _ _ _ _ => rfl⟩
  · intro i v _ _
    rw [if_neg (Nat.not_lt_zero i)]
    exact .of_eq fun _ _ => rfl
  · intro f
    rw [Radix.table_of_empty hempty]
    simp
  · intro ix hix
    rw [if_neg (Nat.not_lt_zero _), Radix.look_of_empty hempty hix]
  · intro f
    rw [List.take_zero, if_neg List.not_mem_nil]
    rfl

/-- An entry that leads nowhere. -/
theorem Sharing.skip (h : Sharing m l t u s j k m₁) (hnone : pageTables.child (m.word t j) = none) :
    Sharing m l t u s (j + 1) k m₁ := by
  have hbehind : leavesBehind m.word l t (j + 1) = leavesBehind m.word l t j := by
    simp [leavesBehind, List.range_succ, hnone]
  refine ⟨h.stock, h.enough, h.kpml4, h.row, ?_, h.sound, h.table, fun i hi => h.rest i (by omega),
    ?_, by rw [hbehind]; exact h.count, h.frame⟩
  · intro i v hi hv
    have hij : i ≠ j := by
      rintro rfl
      rw [hnone] at hv
      cases hv
    have hiff : i < j + 1 ↔ i < j := by omega
    simp only [hiff]
    exact h.parent i v hi hv
  · intro ix hix
    rw [h.copy ix hix]
    by_cases hj : ix (l + 1) = j
    · simp [Radix.look, hj, hnone]
    · have hiff : ix (l + 1) < j + 1 ↔ ix (l + 1) < j := by omega
      simp only [hiff]

/-- The frame `w` has been cleared and hangs in entry `j` of `u`. -/
structure Hanging (m₁ : Mem) (u j w : Nat) (s : List Nat) (m₃ : Mem) : Prop where
  stock : Stock m₃ s
  kpml4 : m₃.kpml4 = m₁.kpml4
  clear : ∀ i, m₃.word w i = 0
  link : pageTables.child (m₃.word u j) = some w
  row : ∀ i, i ≠ j → m₃.word u i = m₁.word u i
  count : ∀ f, (m₃.page f).refCount = if f = w then 1 else (m₁.page f).refCount
  frame : ∀ f, f ≠ u → f ≠ w → m₃.word f = m₁.word f

variable {m₃ m₄ : Mem} {v w : Nat} {s' : List Nat}

/-- The pair of tables behind entry `j`. -/
theorem Sharing.below (h : Sharing m l t u s j k m₁) (hs : Sharable m role (l + 1) t u s)
    (hj : j < pageTables.entries (l + 1)) (hv : pageTables.child (m.word t j) = some v)
    (hd : s.drop k = w :: s') (hh : Hanging m₁ u j w s' m₃) :
    pageTables.Agree id m.word m₃.word l v ∧ Sharable m₃ role l v w s' := by
  have hws : w ∈ s := List.mem_of_mem_drop (hd ▸ List.mem_cons_self)
  have hs's : ∀ f ∈ s', f ∈ s :=
    fun f hf => List.mem_of_mem_drop (hd ▸ List.mem_cons_of_mem _ hf)
  have hnodup : (w :: s').Nodup := hd ▸ hs.stock.nodup.sublist (List.drop_sublist _ _)
  have hagree : pageTables.Agree id m.word m₃.word l v := by
    have hold := h.parent j v hj hv
    rw [if_neg (Nat.lt_irrefl j)] at hold
    refine hold.frame fun g hg => hh.frame g ?_ ?_
    · rintro rfl
      exact hs.child (hg.of_child hj hv)
    · rintro rfl
      exact hs.apart g hws (hg.of_child hj hv)
  have hkernel : ∀ f, role f = .kernel → m₃.word f = m.word f := by
    intro f hf
    obtain ⟨hfs, hfu, hft⟩ := hs.kernel f hf
    rw [hh.frame f hfu (fun hcon => hfs (hcon ▸ hws)),
      h.frame f hfu (fun hcon => hfs (List.mem_of_mem_take hcon)) hft]
  refine ⟨hagree, hagree.sound (hs.sound.1 j hj v hv).1, hh.stock, fun f hf => hs.lt f (hs's f hf),
    ?_, ?_, (List.nodup_cons.mp hnodup).1, fun i _ => hh.clear i, ?_,
    hs.linear.congr (fun _ => Iff.rfl) hkernel (hh.kpml4.trans h.kpml4), ?_⟩
  · intro f hf
    rw [hagree.table]
    exact fun hcon => hs.apart f (hs's f hf) (hcon.of_child hj hv)
  · rw [hagree.table]
    exact fun hcon => hs.apart w hws (hcon.of_child hj hv)
  · rw [hagree.leaves]
    intro e he hmem
    refine hs.leaf e ?_ (hs's _ hmem)
    rw [Radix.leaves, List.mem_flatMap]
    exact ⟨j, List.mem_range.mpr hj, by simpa [hv] using he⟩
  · intro f hf
    obtain ⟨hfs, -, hft⟩ := hs.kernel f hf
    refine ⟨fun hcon => hfs (hs's f hcon), fun hcon => hfs (hcon ▸ hws), ?_⟩
    rw [hagree.table]
    exact fun hcon => hft (hcon.of_child hj hv)

/-- The first frames of the list, when the frame `w` comes behind `k` of them. -/
theorem mem_take_past (hd : s.drop k = w :: s') (k' f : Nat) :
    f ∈ s.take (k + (k' + 1)) ↔ f ∈ s.take k ∨ f = w ∨ f ∈ s'.take k' := by
  rw [List.take_add, hd, List.take_succ_cons, List.mem_append, List.mem_cons]

theorem not_mem_past (hnodup : s.Nodup) (hd : s.drop k = w :: s') {f : Nat} (hf : f ∈ s.take k) :
    f ≠ w ∧ f ∉ s' := by
  have hnot := (List.disjoint_take_drop hnodup (le_refl k)) hf
  rw [hd, List.mem_cons] at hnot
  exact not_or.mp hnot

section Step

variable (h : Sharing m l t u s j k m₁) (hs : Sharable m role (l + 1) t u s)
  (hj : j < pageTables.entries (l + 1)) (hv : pageTables.child (m.word t j) = some v)
  (hd : s.drop k = w :: s') (hh : Hanging m₁ u j w s' m₃) {k' : Nat}
  (hsub : Shared m₃ l v w s' k' m₄)

include hd in
theorem mem_of_past {f : Nat} (hf : f = w ∨ f ∈ s') : f ∈ s :=
  List.mem_of_mem_drop (hd ▸ List.mem_cons.mpr hf)

include hs hd in
/-- The parent's tables are neither the child's nor free. -/
theorem Sharable.table_ne {f : Nat} (hf : pageTables.Table m.word (l + 1) t f) :
    f ≠ u ∧ f ≠ w ∧ f ∉ s' := by
  refine ⟨?_, ?_, ?_⟩
  · rintro rfl
    exact hs.child hf
  · rintro rfl
    exact hs.apart f (mem_of_past hd (.inl rfl)) hf
  · exact fun hcon => hs.apart f (mem_of_past hd (.inr hcon)) hf

include h hs hj hv hd hh hsub in
/-- What the copy of entry `j` leaves alone. -/
theorem Sharing.keep {f : Nat} (hfu : f ≠ u) (hfw : f ≠ w) (hfs : f ∉ s'.take k')
    (hfv : ¬ pageTables.Table m.word l v f) : m₄.word f = m₁.word f := by
  obtain ⟨hagree, -⟩ := h.below hs hj hv hd hh
  rw [hsub.frame f hfw hfs (by rwa [hagree.table]), hh.frame f hfu hfw]

include h hs hj hv hd hh hsub in
theorem Sharing.row_parent : m₄.word t = m.word t := by
  obtain ⟨htu, htw, hts⟩ := hs.table_ne hd .root
  rw [h.keep hs hj hv hd hh hsub htu htw (fun hcon => hts (List.mem_of_mem_take hcon))
    (hs.sound.1 j hj v hv).2, h.row]

include h hs hj hv hd hh hsub in
theorem Sharing.row_child : m₄.word u = m₃.word u := by
  obtain ⟨hagree, -⟩ := h.below hs hj hv hd hh
  refine hsub.frame u ?_ ?_ ?_
  · rintro rfl
    exact hs.fresh (mem_of_past hd (.inl rfl))
  · exact fun hcon => hs.fresh (mem_of_past hd (.inr (List.mem_of_mem_take hcon)))
  · rw [hagree.table]
    exact fun hcon => hs.child (hcon.of_child hj hv)

include h hs hj hv hd hh hsub in
/-- The new table is the only change in the child's tree. -/
theorem Sharing.regraft : pageTables.Regraft m₁.word m₄.word l u j w := by
  have hrow := h.row_child hs hj hv hd hh hsub
  refine ⟨hj, by rw [hrow, hh.link], fun i _ hi => by rw [hrow, hh.row i hi], ?_⟩
  intro i hi hij x hx
  refine .of_eq fun g hg => ?_
  have hgu : g ≠ u := by
    rintro rfl
    exact (h.sound.1 i hi x hx).2 hg
  have hgs : g ∈ s.take k := ((h.table g).mp (hg.of_child hi hx)).resolve_left hgu
  obtain ⟨hgw, hgs'⟩ := not_mem_past hs.stock.nodup hd hgs
  refine h.keep hs hj hv hd hh hsub hgu hgw (fun hcon => hgs' (List.mem_of_mem_take hcon)) ?_
  exact fun hcon => hs.apart g (List.mem_of_mem_take hgs) (hcon.of_child hj hv)

include h hs hj in
/-- The child's tables before. -/
theorem Sharing.beside (f : Nat) :
    pageTables.Beside m₁.word l u j f ↔ f = u ∨ f ∈ s.take k := by
  have hnone : pageTables.child (m₁.word u j) = none := by
    rw [h.rest j le_rfl]
    exact hs.clear_child hj
  rw [← h.table, Radix.table_iff hj]
  simp [hnone]

include h hs hj hv hd hh hsub in
theorem Sharing.count_step (f : Nat) : (m₄.page f).refCount =
    if f ∈ s.take (k + (k' + 1)) then 1
    else (m.page f).refCount + naming f (leavesBehind m.word l t (j + 1)) := by
  obtain ⟨hagree, -⟩ := h.below hs hj hv hd hh
  have hleaves : naming f (leavesBehind m.word l t (j + 1)) =
      naming f (leavesBehind m.word l t j) + naming f (pageTables.leaves m.word l v) := by
    simp [leavesBehind, List.range_succ, hv]
  -- no entry names a free frame
  have hzero : f ∈ s → naming f (pageTables.leaves m.word l v) = 0 := by
    intro hfs
    refine List.countP_eq_zero.mpr fun e he => ?_
    simp only [decide_eq_true_eq]
    rintro rfl
    refine hs.leaf e ?_ hfs
    rw [Radix.leaves, List.mem_flatMap]
    exact ⟨j, List.mem_range.mpr hj, by simpa [hv] using he⟩
  have hmem := mem_take_past hd k' f
  rw [hsub.count, hh.count, h.count, hagree.leaves, hleaves]
  by_cases hf' : f ∈ s'.take k'
  · rw [if_pos hf', if_pos (hmem.mpr (.inr (.inr hf')))]
  · rw [if_neg hf']
    by_cases hfw : f = w
    · rw [if_pos hfw, if_pos (hmem.mpr (.inr (.inl hfw))), hzero (mem_of_past hd (.inl hfw))]
    · rw [if_neg hfw]
      by_cases hft : f ∈ s.take k
      · rw [if_pos hft, if_pos (hmem.mpr (.inl hft)), hzero (List.mem_of_mem_take hft)]
      · have hnot : f ∉ s.take (k + (k' + 1)) := by
          rw [hmem]
          tauto
        rw [if_neg hft, if_neg hnot, Nat.add_assoc]

include h hs hj hv hd hh hsub in
/-- Behind a loop over that pair entry `j` is done. -/
theorem Sharing.step (hk' : k' ≤ s'.length) : Sharing m l t u s (j + 1) (k + (k' + 1)) m₄ := by
  obtain ⟨hagree, -⟩ := h.below hs hj hv hd hh
  have hgraft := h.regraft hs hj hv hd hh hsub
  have hbeside := h.beside hs hj
  have hrow := h.row_child hs hj hv hd hh hsub
  have hlen : s.length = k + (s'.length + 1) := by
    have hcount := congrArg List.length hd
    simp only [List.length_drop, List.length_cons] at hcount
    have henough := h.enough
    omega
  have hu : u ≠ w ∧ u ∉ s'.take k' := by
    refine ⟨fun hcon => hs.fresh (mem_of_past hd (.inl hcon)), fun hcon => ?_⟩
    exact hs.fresh (mem_of_past hd (.inr (List.mem_of_mem_take hcon)))
  refine ⟨?_, by omega, ?_, h.row_parent hs hj hv hd hh hsub, ?_, ?_, ?_, ?_, ?_,
    h.count_step hs hj hv hd hh hsub, ?_⟩
  · have hdrop : s.drop (k + (k' + 1)) = s'.drop k' := by
      rw [← List.drop_drop, hd, List.drop_succ_cons]
    rw [hdrop]
    exact hsub.stock
  · rw [hsub.kpml4, hh.kpml4, h.kpml4]
  · intro i x hi hx
    by_cases hij : i = j
    · subst hij
      obtain rfl := Option.some.inj (hv.symm.trans hx)
      rw [if_pos (Nat.lt_succ_self i)]
      exact hagree.trans hsub.parent
    · have hiff : i < j + 1 ↔ i < j := by omega
      simp only [hiff]
      refine (h.parent i x hi hx).frame fun g hg => ?_
      obtain ⟨hgu, hgw, hgs⟩ := hs.table_ne hd (hg.of_child hi hx)
      exact h.keep hs hj hv hd hh hsub hgu hgw (fun hcon => hgs (List.mem_of_mem_take hcon))
        (fun hcon => hs.sound.2 i j hi hj hij x v hx hv g hg hcon)
  · refine hgraft.sound h.sound hsub.sound ?_ ?_
    · rw [hsub.table, not_or]
      exact hu
    · intro i hi hij x hx f hf hcon
      have hbes := (hbeside f).mp (.inr ⟨i, hi, hij, x, hx, hcon⟩)
      rw [hsub.table] at hf
      obtain rfl | hbes := hbes
      · exact hf.elim hu.1 hu.2
      · obtain ⟨hfw, hfs⟩ := not_mem_past hs.stock.nodup hd hbes
        exact hf.elim hfw (fun hf => hfs (List.mem_of_mem_take hf))
  · intro f
    rw [hgraft.table, hbeside, hsub.table, mem_take_past hd]
    tauto
  · intro i hi
    rw [hrow, hh.row i (by omega), h.rest i (by omega)]
  · intro ix hix
    rw [hgraft.look hix]
    by_cases hij : ix (l + 1) = j
    · rw [if_pos hij, if_pos (by omega), hsub.copy ix hix.pred, hagree.look_eq hix.pred]
      simp [Radix.look, hij, hv]
    · have hiff : ix (l + 1) < j + 1 ↔ ix (l + 1) < j := by omega
      simp only [hij, if_false, hiff]
      exact h.copy ix hix
  · intro f hfu hfs hft
    rw [mem_take_past hd] at hfs
    push Not at hfs
    rw [h.keep hs hj hv hd hh hsub hfu hfs.2.1 hfs.2.2 (fun hcon => hft (hcon.of_child hj hv)),
      h.frame f hfu hfs.1 hft]

end Step

/-- The table behind entry `j` is taken from the list, which is not empty. -/
theorem Sharing.hang (h : Sharing m l t u s j k m₁) (hs : Sharable m role (l + 1) t u s)
    (hd : s.drop k = w :: s') :
    ∃ m₂, m₁.allocatePageForProcess = some (kernBase + w * 4096, m₂) ∧
      Hanging m₁ u j w s' ((m₂.memset0 w).set u j (entry (w * 4096) 7)) := by
  have hws : w ∈ s := List.mem_of_mem_drop (hd ▸ List.mem_cons_self)
  have hwu : w ≠ u := by
    rintro rfl
    exact hs.fresh hws
  have hlt := hs.lt w hws
  simp only [capacity] at hlt
  have hstock := h.stock
  rw [hd] at hstock
  -- the kernel's tables are as they were
  have hlinear : Linear m₁ role := by
    refine hs.linear.congr (fun _ => Iff.rfl) (fun f hf => ?_) h.kpml4
    obtain ⟨hfs, hfu, hft⟩ := hs.kernel f hf
    rw [h.frame f hfu (fun hcon => hfs (List.mem_of_mem_take hcon)) hft]
  obtain ⟨m₂, halloc, hword, hkp, hpage, hstock₂⟩ :=
    hstock.takeForProcess hlinear (fun hcon => (hs.kernel w hcon).1 hws)
  refine ⟨m₂, halloc, hstock₂.congr rfl rfl, hkp, ?_, ?_, ?_, ?_, ?_⟩
  · intro i
    rw [Mem.set_word_of_ne _ _ hwu, Mem.memset0_word_self]
  · rw [Mem.set_word_self, pageTables_child_some, present_entry]
    exact ⟨by decide, frameOf_entry (by decide) (by omega)⟩
  · intro i hi
    rw [Mem.set_word, if_neg (fun hcon => hi hcon.2), Mem.memset0,
      Mem.setFrame_word_of_ne _ _ (Ne.symm hwu), hword]
  · intro f
    rw [Mem.set_page, Mem.memset0, Mem.setFrame_page, hpage]
    by_cases hf : f = w
    · simp [hf]
    · simp [hf]
  · intro f hfu hfw
    rw [Mem.set_word_of_ne _ _ hfu, Mem.memset0, Mem.setFrame_word_of_ne _ _ hfw, hword]

theorem belowBehind_succ (word : Nat → Nat → Word) (l t j : Nat) :
    (belowBehind word l t (j + 1)).length = (belowBehind word l t j).length +
      ((pageTables.child (word t j)).map fun v =>
        (pageTables.below word l v).length + 1).getD 0 := by
  unfold belowBehind
  rw [List.range_succ, List.flatMap_append, List.length_append]
  congr 1
  cases h : pageTables.child (word t j) with
  | none => simp [h]
  | some v => simp [h]

/-- Going on does not make it less. -/
theorem belowBehind_le (word : Nat → Nat → Word) (l t : Nat) {i j : Nat} (hij : i ≤ j) :
    (belowBehind word l t i).length ≤ (belowBehind word l t j).length := by
  induction j, hij using Nat.le_induction with
  | base => exact le_rfl
  | succ j _ ih =>
      rw [belowBehind_succ]
      omega

/-- All entries have been copied. -/
theorem Sharing.shared (h : Sharing m l t u s (pageTables.entries (l + 1)) k m₁) :
    Shared m (l + 1) t u s k m₁ := by
  refine ⟨h.stock, h.kpml4, ?_, h.sound, h.table, ?_, h.count, ?_, h.frame⟩
  · intro i hi
    refine ⟨by rw [h.row], fun v hv => ?_⟩
    have hagree := h.parent i v hi hv
    rwa [if_pos hi] at hagree
  · intro ix hix
    rw [h.copy ix hix, if_pos (hix (l + 1) le_rfl)]
  · intro i hi
    exact ⟨h.rest i hi, by rw [h.row]⟩

end Directory

/-- The loops of `copytables` at any level come to an end if and only if there is a free
frame for each table below the parent's. -/
theorem copyLevel_spec {role : Nat → Role} (l : Nat) (m : Mem) (t u : Nat) (s : List Nat)
    (h : Sharable m role l t u s) :
    (∃ m', Mem.copyLevel l m t u = some m' ∧ (pageTables.below m.word l t).length ≤ s.length ∧
      Shared m l t u s (pageTables.below m.word l t).length m') ∨
    Mem.copyLevel l m t u = none ∧ s.length < (pageTables.below m.word l t).length := by
  induction l generalizing m t u s with
  | zero =>
      obtain ⟨m', hrun, hshared⟩ := copyLevel_zero h
      exact .inl ⟨m', hrun, Nat.zero_le _, hshared⟩
  | succ l ih =>
      have hall : pageTables.below m.word (l + 1) t =
          belowBehind m.word l t (pageTables.entries (l + 1)) := rfl
      rw [hall]
      have hloop := foldlM_range_or (n := pageTables.entries (l + 1)) (s := m)
        (Q := s.length < (belowBehind m.word l t (pageTables.entries (l + 1))).length)
        (P := fun j m₁ => Sharing m l t u s j (belowBehind m.word l t j).length m₁)
        (f := fun m₁ i => if present (m₁.word t i) then m₁.allocatePageForProcess.bind fun r =>
            let m := r.2.memset0 ((r.1 - kernBase) / 4096)
            let m := m.set u i (entry (r.1 - kernBase) 7)
            Mem.copyLevel l m (frameOf (m.word t i)) ((r.1 - kernBase) / 4096)
          else some m₁) h.start ?_
      · obtain ⟨m', hrun, hdone⟩ | hnone := hloop
        · exact .inl ⟨m', hrun, hdone.enough, hdone.shared⟩
        · exact .inr hnone
      · intro j m₁ hj hS
        have hword : m₁.word t j = m.word t j := by rw [hS.row]
        have hsucc := belowBehind_succ m.word l t j
        have hle := belowBehind_le m.word l t (show j + 1 ≤ pageTables.entries (l + 1) from hj)
        rw [hword]
        by_cases hpres : present (m.word t j) = true
        · have hv := pageTables_child_some.mpr ⟨hpres, rfl⟩
          rw [if_pos hpres]
          rw [hv, Option.map_some, Option.getD_some] at hsucc
          cases hd : s.drop (belowBehind m.word l t j).length with
          | nil =>
              have hstock := hS.stock
              rw [hd] at hstock
              refine .inr ⟨?_, ?_⟩
              · rw [hstock.emptyForProcess]
                rfl
              · have hlen := List.drop_eq_nil_iff.mp hd
                omega
          | cons w s' =>
              obtain ⟨m₂, halloc, hhang⟩ := hS.hang h hd
              obtain ⟨hagree, hshar⟩ := hS.below h hj hv hd hhang
              have hws : w ∈ s := List.mem_of_mem_drop (hd ▸ List.mem_cons_self)
              have hrow : ((m₂.memset0 w).set u j (entry (w * 4096) 7)).word t = m.word t := by
                rw [hhang.frame t (fun hcon => h.child (hcon ▸ .root))
                  (fun hcon => h.apart w hws (hcon ▸ .root)), hS.row]
              have hlen := congrArg List.length hd
              simp only [List.length_drop, List.length_cons] at hlen
              have hsub : kernBase + w * 4096 - kernBase = w * 4096 := Nat.add_sub_cancel_left _ _
              rw [halloc]
              simp only [Option.bind_some, hsub, frame_div, hrow]
              have hrec := ih _ _ _ _ hshar
              rw [hagree.below] at hrec
              obtain ⟨m₄, hrun, hk', hshared⟩ | ⟨hrun, hk'⟩ := hrec
              · refine .inl ⟨m₄, hrun, ?_⟩
                rw [hsucc]
                exact hS.step h hj hv hd hhang hshared hk'
              · exact .inr ⟨hrun, by omega⟩
        · have hv := pageTables_child_none.mpr hpres
          refine .inl ⟨m₁, if_neg hpres, ?_⟩
          rw [hv, Option.map_none, Option.getD_none, Nat.add_zero] at hsucc
          rw [hsucc]
          exact hS.skip hv

/-- What is written to the child's own table is not in the parent's tree. -/
theorem Sharable.agree_set {m : Mem} {role : Nat → Role} {p c : Nat} {s : List Nat}
    (h : Sharable m role 3 p c s) (i : Nat) (w : Word) :
    pageTables.Agree id m.word (m.set c i w).word 3 p := by
  refine .of_eq fun g hg => Mem.set_word_of_ne _ _ ?_
  rintro rfl
  exact h.child hg

/-- `copytables` with a list that is long enough. -/
theorem copytables_spec {m : Mem} {role : Nat → Role} {p c : Nat} {s : List Nat}
    (h : Sharable m role 3 p c s) :
    ((∃ m', m.copytables p c = some m') ↔ (pageTables.below m.word 3 p).length ≤ s.length) ∧
    ∀ m', m.copytables p c = some m' →
      Shared (m.set c 511 (m.word p 511)) 3 p c s (pageTables.below m.word 3 p).length m' := by
  have hpc : p ≠ c := fun hcon => h.child (hcon ▸ .root)
  have hagree := h.agree_set 511 (m.word p 511)
  have h₀ : Sharable (m.set c 511 (m.word p 511)) role 3 p c s := by
    refine ⟨hagree.sound h.sound, h.stock.congr rfl rfl, h.lt, ?_, ?_, h.fresh, ?_, ?_, ?_, ?_⟩
    · intro f hf
      rw [hagree.table]
      exact h.apart f hf
    · rw [hagree.table]
      exact h.child
    · intro i hi
      have hlt : i < 511 := hi
      rw [Mem.set_word, if_neg (by omega)]
      exact h.clear i hi
    · rw [hagree.leaves]
      exact h.leaf
    · exact h.linear.congr (fun _ => Iff.rfl)
        (fun f hf => Mem.set_word_of_ne _ _ (h.kernel f hf).2.1) rfl
    · intro f hf
      rw [hagree.table]
      exact h.kernel f hf
  have hspec := copyLevel_spec 3 _ p c s h₀
  rw [hagree.below] at hspec
  unfold Mem.copytables
  obtain ⟨m', hrun, hk, hshared⟩ | ⟨hrun, hk⟩ := hspec
  · refine ⟨⟨fun _ => hk, fun _ => ⟨m', hrun⟩⟩, fun m'' hrun' => ?_⟩
    obtain rfl := Option.some.inj (hrun.symm.trans hrun')
    exact hshared
  · refine ⟨⟨?_, fun hcon => by omega⟩, ?_⟩
    · rintro ⟨m', hrun'⟩
      simp [hrun] at hrun'
    · intro m' hrun'
      simp [hrun] at hrun'

/-- After `copytables` the child maps what the parent maps, with the same entries. -/
theorem copytables_same_frames (m : Mem) (role : Nat → Role) (p c : Nat) (s : List Nat)
    (h : Sharable m role 3 p c s) :
    ((∃ m', m.copytables p c = some m') ↔ (pageTables.below m.word 3 p).length ≤ s.length) ∧
    ∀ m', m.copytables p c = some m' →
      (∀ v, idx v 39 < 511 → m'.walk c v = (m.walk p v).map shareEntry ∧
        m'.walk p v = (m.walk p v).map shareEntry) ∧
      (∀ e, frameOf (shareEntry e) = frameOf e ∧ ∀ i < 64, (shareEntry e).getLsbD i =
        if i = 1 then false else if i = 9 then true else e.getLsbD i) ∧
      (∀ f, (m'.page f).refCount =
        if f ∈ s.take (pageTables.below m.word 3 p).length then 1
        else (m.page f).refCount + naming f (pageTables.leaves m.word 3 p)) ∧
      (c :: pageTables.below m'.word 3 c ++ p :: pageTables.below m'.word 3 p).Nodup ∧
      (∀ f, f ∈ pageTables.below m'.word 3 c ↔
        f ∈ s.take (pageTables.below m.word 3 p).length) ∧
      m'.word c 511 = m.word p 511 ∧ m'.word p 511 = m.word p 511 := by
  obtain ⟨hiff, hall⟩ := copytables_spec h
  refine ⟨hiff, fun m' hrun => ?_⟩
  have hS := hall m' hrun
  have hpc : p ≠ c := fun hcon => h.child (hcon ▸ .root)
  have hagree := h.agree_set 511 (m.word p 511)
  have hparent := hagree.trans hS.parent
  have hbelow : ∀ f, f ∈ pageTables.below m'.word 3 c ↔
      f ∈ s.take (pageTables.below m.word 3 p).length := by
    intro f
    have htable := hS.table f
    rw [Radix.table_iff_below] at htable
    by_cases hfc : f = c
    · subst hfc
      refine iff_of_false (List.nodup_cons.mp hS.sound.nodup).1 ?_
      exact fun hcon => h.fresh (List.mem_of_mem_take hcon)
    · simpa [hfc] using htable
  refine ⟨?_, fun e => ⟨frameOf_shareEntry e, fun i hi => getLsbD_shareEntry e hi⟩, ?_, ?_, hbelow,
    ?_, ?_⟩
  · intro v hv
    have hix := indices_valid hv
    rw [walk_eq_look, walk_eq_look, walk_eq_look, hS.copy _ hix, hagree.look_eq hix]
    exact ⟨rfl, hparent.look pageTables_child_share hix⟩
  · intro f
    rw [hS.count f, hagree.leaves]
    rfl
  · rw [List.nodup_append]
    refine ⟨hS.sound.nodup, (hparent.sound h.sound).nodup, ?_⟩
    rintro f hf g hg rfl
    have htable := (hparent.table f).mp (Radix.table_iff_below.mpr (List.mem_cons.mp hg))
    obtain rfl | hf := List.mem_cons.mp hf
    · exact h.child htable
    · exact h.apart f (List.mem_of_mem_take ((hbelow f).mp hf)) htable
  · rw [(hS.past 511 (by decide)).1, Mem.set_word_self]
  · rw [(hS.past 511 (by decide)).2, Mem.set_word_of_ne _ _ hpc]

/-- The kernel's tables in the frames 1 to 5, a process with PML4 10 and one page, at
0x400000 in frame 20, and cleared memory. The frames 600 to 605 are free. -/
def onePageMem : Mem where
  word f i :=
    match f with
    | 1 => if i = 511 then entry (2 * 4096) 3 else 0
    | 2 => if i = 510 then entry (3 * 4096) 3 else 0
    | 3 => if i = 0 then entry (4 * 4096) 3 else if i = 1 then entry (5 * 4096) 3 else 0
    | 4 => entry (i * 4096) 3
    | 5 => entry ((512 + i) * 4096) 3
    | 10 => if i = 0 then entry (11 * 4096) 7 else 0
    | 11 => if i = 0 then entry (12 * 4096) 7 else 0
    | 12 => if i = 2 then entry (13 * 4096) 7 else 0
    | 13 => if i = 0 then entry (20 * 4096) 7 else 0
    | _ => 0
  page f :=
    { address := f * 4096, free := decide (600 ≤ f ∧ f ≤ 605),
      refCount := if 600 ≤ f ∧ f ≤ 605 then 0 else 1,
      next := if f < 605 then some (f + 1) else none }
  head := some 600
  kpml4 := 1

section Example

theorem onePageMem_stock : Stock onePageMem [600, 601, 602, 603, 604, 605] :=
  ⟨.cons (.cons (.cons (.cons (.cons (.cons .nil))))), fun _ _ => rfl, by decide⟩

/-- One entry of a table of this memory. -/
theorem child_of_ite {i j : Nat} {w : Word} (hj : j ≠ i) :
    pageTables.child (if j = i then w else 0) = none := by
  rw [if_neg hj]
  decide

theorem onePageMem_tree :
    pageTables.Sound onePageMem.word 3 10 ∧
    (∀ f, pageTables.Table onePageMem.word 3 10 f ↔ f = 13 ∨ f = 12 ∨ f = 11 ∨ f = 10) ∧
    pageTables.leaves onePageMem.word 3 10 = pageTables.leaves onePageMem.word 0 13 := by
  have h1 : pageTables.child (onePageMem.word 12 2) = some 13 := by decide
  have h2 : pageTables.child (onePageMem.word 11 0) = some 12 := by decide
  have h3 : pageTables.child (onePageMem.word 10 0) = some 11 := by decide
  have n1 : ∀ j, j ≠ 2 → pageTables.child (onePageMem.word 12 j) = none := fun j => child_of_ite
  have n2 : ∀ j, j ≠ 0 → pageTables.child (onePageMem.word 11 j) = none := fun j => child_of_ite
  have n3 : ∀ j, j ≠ 0 → pageTables.child (onePageMem.word 10 j) = none := fun j => child_of_ite
  have t0 : ∀ f, pageTables.Table onePageMem.word 0 13 f ↔ f = 13 := fun f => Iff.rfl
  have t1 := fun f => Radix.table_of_single (l := 0) (by decide) h1 n1 f
  have t2 := fun f => Radix.table_of_single (l := 1) (by decide) h2 n2 f
  have t3 := fun f => Radix.table_of_single (l := 2) (by decide) h3 n3 f
  simp only [t0] at t1
  simp only [t1] at t2
  simp only [t2, or_assoc] at t3
  refine ⟨?_, t3, ?_⟩
  · refine Radix.sound_of_single (by decide) h3 n3 ?_ (by rw [t2]; decide)
    refine Radix.sound_of_single (by decide) h2 n2 ?_ (by rw [t1]; decide)
    exact Radix.sound_of_single (by decide) h1 n1 trivial (by rw [t0]; decide)
  · rw [Radix.leaves_of_single (by decide) h3 n3, Radix.leaves_of_single (by decide) h2 n2,
      Radix.leaves_of_single (by decide) h1 n1]

theorem onePageMem_leaf {e : Word} (he : e ∈ pageTables.leaves onePageMem.word 3 10) :
    frameOf e = 20 := by
  rw [onePageMem_tree.2.2, Radix.leaves, List.mem_filterMap] at he
  obtain ⟨i, -, he⟩ := he
  by_cases hi : i = 0
  · subst hi
    have hword : onePageMem.word 13 0 = entry (20 * 4096) 7 := rfl
    rw [hword, pageTables_child_isSome, present_entry, if_pos (by decide)] at he
    obtain rfl := Option.some.inj he
    exact frameOf_entry (by decide) (by decide)
  · have hchild : pageTables.child (onePageMem.word 13 i) = none := child_of_ite hi
    simp [hchild] at he

def onePageRole (f : Nat) : Role :=
  if f ∈ [10, 11, 12, 13, 30, 600, 601, 602, 603, 604, 605] then .data else .kernel

theorem onePageMem_sharable :
    Sharable onePageMem onePageRole 3 10 30 [600, 601, 602, 603, 604, 605] := by
  obtain ⟨hsound, htable, -⟩ := onePageMem_tree
  refine ⟨hsound, onePageMem_stock, by decide, ?_, ?_, by decide, fun _ _ => rfl, ?_, ?_, ?_⟩
  · intro f hf
    rw [htable]
    simp only [List.mem_cons, List.not_mem_nil, or_false] at hf
    omega
  · rw [htable]
    decide
  · intro e he
    rw [onePageMem_leaf he]
    decide
  · intro f hf
    have hmem : f ∈ [10, 11, 12, 13, 30, 600, 601, 602, 603, 604, 605] := by
      by_contra hcon
      exact hf (if_neg hcon)
    clear hf
    revert f
    decide +kernel
  · intro f hf
    have hmem : f ∉ [10, 11, 12, 13, 30, 600, 601, 602, 603, 604, 605] := by
      intro hcon
      rw [onePageRole, if_pos hcon] at hf
      cases hf
    rw [htable]
    simp only [List.mem_cons, List.not_mem_nil, or_false, not_or] at hmem ⊢
    omega

end Example

/-- Copying a process with one page: three new tables, and the page shared. -/
theorem copytables_same_frames_one :
    ∃ m', onePageMem.copytables 10 30 = some m' ∧
      m'.walk 30 0x400000 = (onePageMem.walk 10 0x400000).map shareEntry := by
  obtain ⟨hiff, hall⟩ := copytables_same_frames onePageMem onePageRole 10 30
    [600, 601, 602, 603, 604, 605] onePageMem_sharable
  obtain ⟨m', hrun⟩ := hiff.mpr (by decide +kernel)
  exact ⟨m', hrun, ((hall m' hrun).1 0x400000 (by decide)).1⟩

/-- The count of a frame that becomes a table of the child is one afterwards, though no
entry of the parent names it. -/
theorem table_count_grows :
    ¬ ∀ m role p c s, Sharable m role 3 p c s → ∀ m', m.copytables p c = some m' →
      ∀ f, (m'.page f).refCount =
        (m.page f).refCount + naming f (pageTables.leaves m.word 3 p) := by
  intro hall
  have hlength : (pageTables.below onePageMem.word 3 10).length = 3 := by decide +kernel
  obtain ⟨hiff, hspec⟩ := copytables_spec onePageMem_sharable
  obtain ⟨m', hrun⟩ := hiff.mpr (by rw [hlength]; decide)
  have hcount := (hspec m' hrun).count 600
  have hclaim := hall _ _ _ _ _ onePageMem_sharable m' hrun 600
  have hnone : naming 600 (pageTables.leaves onePageMem.word 3 10) = 0 := by
    refine List.countP_eq_zero.mpr fun e he => ?_
    rw [onePageMem_leaf he]
    decide
  rw [hlength, if_pos (by decide)] at hcount
  rw [hcount, hnone] at hclaim
  exact absurd hclaim (by decide)

end X86Kernel.Paging
