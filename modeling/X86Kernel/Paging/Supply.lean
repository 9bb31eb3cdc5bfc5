import X86Kernel.Paging.Extend

/-!
How many frames an operation takes. The list of free frames is a stack, and
`init_pages_for_process` pops one frame for each table that is missing on the
way to the page: with fewer on the list it does not return.
-/

namespace X86Kernel.Paging

open Lib

/-- The free frames, in the order in which `allocate_page` hands them out. -/
def FreeList (m : Mem) (l : List Nat) : Prop := Chain (fun f => (m.page f).next) m.head l

/-- The tables missing on the way from `pml4` to the page of `v`. -/
def Mem.missingTables (m : Mem) (pml4 v : Nat) : Nat :=
  let e4 := m.word pml4 (idx v 39)
  let e3 := m.word (frameOf e4) (idx v 30)
  let e2 := m.word (frameOf e3) (idx v 21)
  if present e4 then if present e3 then if present e2 then 0 else 1 else 2 else 3

/-- The operation from `m` to `m'` took the first `n` frames of the list. -/
def Takes (n : Nat) (m m' : Mem) : Prop :=
  ∀ l, FreeList m l → n ≤ l.length ∧ FreeList m' (l.drop n)

/-- The words of memory are no part of the list. -/
theorem FreeList.congr {m m' : Mem} {l : List Nat} (h : FreeList m l) (hpage : m'.page = m.page)
    (hhead : m'.head = m.head) : FreeList m' l := by
  unfold FreeList
  rw [hpage, hhead]
  exact h

theorem Takes.of_eq {m m' : Mem} (hpage : m'.page = m.page) (hhead : m'.head = m.head) :
    Takes 0 m m' :=
  fun _ h => ⟨Nat.zero_le _, h.congr hpage hhead⟩

theorem Takes.trans {n n' : Nat} {m₁ m₂ m₃ : Mem} (h : Takes n m₁ m₂) (h' : Takes n' m₂ m₃) :
    Takes (n + n') m₁ m₃ := by
  intro l hl
  obtain ⟨hlen, hdrop⟩ := h l hl
  obtain ⟨hlen', hdrop'⟩ := h' _ hdrop
  rw [List.length_drop] at hlen'
  rw [List.drop_drop] at hdrop'
  exact ⟨by omega, hdrop'⟩

namespace Mem

variable {m m' : Mem}

/-- `allocate_page` returns as long as the list is not empty. -/
theorem allocatePage_ok {l : List Nat} (h : FreeList m l) (hl : 0 < l.length) :
    ∃ r, m.allocatePage = some r := by
  cases hhead : m.head with
  | none =>
      unfold FreeList at h
      rw [hhead] at h
      simp [h.eq_nil] at hl
  | some f => exact ⟨_, by rw [allocatePage, hhead]⟩

theorem allocatePage_takes {a : Nat} (h : m.allocatePage = some (a, m')) : Takes 1 m m' := by
  intro l hl
  obtain ⟨f, hhead, -, -, -, hhead', hpage⟩ := allocatePage_eq h
  unfold FreeList at hl ⊢
  rw [hhead] at hl
  obtain ⟨rest, rfl, htail⟩ := hl.eq_cons
  refine ⟨by simp, ?_⟩
  rw [hhead']
  refine htail.congr ?_
  intro g _
  by_cases hg : g = f
  · simp [hpage, hg]
  · simp [hpage, hg]

/-- A list that starts somewhere has a first element. -/
theorem newTable_ok {l : List Nat} (flags : Word) (zero : Bool) (t i : Nat) (h : FreeList m l)
    (hl : 0 < l.length) : ∃ r, newTable flags zero m t i = some r := by
  obtain ⟨r, hr⟩ := allocatePage_ok h hl
  exact ⟨_, by rw [newTable, hr]; rfl⟩

theorem newTable_takes {flags : Word} {zero : Bool} {t i f : Nat}
    (h : newTable flags zero m t i = some (f, m')) : Takes 1 m m' := by
  obtain ⟨⟨a, m₁⟩, halloc, hrest⟩ := Option.bind_eq_some_iff.mp h
  obtain ⟨-, rfl⟩ : a / 4096 = f ∧ _ = m' := by simpa using hrest
  refine (allocatePage_takes halloc).trans (Takes.of_eq ?_ ?_)
  · cases zero <;> rfl
  · cases zero <;> rfl

/-- `map` and `init_pages_for_process` take a frame for each missing table. -/
theorem mapAt_takes {flags : Word} {zero : Bool} {v phy pml4 : Nat}
    (h : mapAt flags zero m v phy pml4 = some m') : Takes (m.missingTables pml4 v) m m' := by
  unfold mapAt at h
  unfold missingTables
  dsimp only at h ⊢
  split_ifs at h ⊢ with h4 h3 h2
  · obtain rfl := Option.some.inj h
    exact Takes.of_eq rfl rfl
  · obtain ⟨⟨p1, m₁⟩, hn₁, hset⟩ := Option.bind_eq_some_iff.mp h
    obtain rfl := Option.some.inj hset
    exact (newTable_takes hn₁).trans (Takes.of_eq rfl rfl)
  · obtain ⟨⟨p2, m₂⟩, hn₂, h⟩ := Option.bind_eq_some_iff.mp h
    obtain ⟨⟨p1, m₁⟩, hn₁, hset⟩ := Option.bind_eq_some_iff.mp h
    obtain rfl := Option.some.inj hset
    exact ((newTable_takes hn₂).trans (newTable_takes hn₁)).trans (Takes.of_eq rfl rfl)
  · obtain ⟨⟨p3, m₃⟩, hn₃, h⟩ := Option.bind_eq_some_iff.mp h
    obtain ⟨⟨p2, m₂⟩, hn₂, h⟩ := Option.bind_eq_some_iff.mp h
    obtain ⟨⟨p1, m₁⟩, hn₁, hset⟩ := Option.bind_eq_some_iff.mp h
    obtain rfl := Option.some.inj hset
    exact (((newTable_takes hn₃).trans (newTable_takes hn₂)).trans (newTable_takes hn₁)).trans
      (Takes.of_eq rfl rfl)

/-- They return when the list has as many frames. -/
theorem mapAt_ok {l : List Nat} (flags : Word) (zero : Bool) {v pml4 : Nat} (phy : Nat)
    (h : FreeList m l) (hl : m.missingTables pml4 v ≤ l.length) :
    ∃ m', mapAt flags zero m v phy pml4 = some m' := by
  unfold missingTables at hl
  unfold mapAt
  dsimp only at hl ⊢
  split_ifs at hl ⊢ with h4 h3 h2
  · exact ⟨_, rfl⟩
  · obtain ⟨⟨p1, m₁⟩, hn₁⟩ := newTable_ok flags zero
      (frameOf (m.word (frameOf (m.word pml4 (idx v 39))) (idx v 30))) (idx v 21) h hl
    exact ⟨_, by rw [hn₁]; rfl⟩
  · obtain ⟨⟨p2, m₂⟩, hn₂⟩ := newTable_ok flags zero (frameOf (m.word pml4 (idx v 39)))
      (idx v 30) h (by omega)
    have hl₂ := (newTable_takes hn₂ l h).2
    obtain ⟨⟨p1, m₁⟩, hn₁⟩ := newTable_ok flags zero p2 (idx v 21) hl₂
      (by rw [List.length_drop]; omega)
    refine ⟨m₁.set p1 (idx v 12) (entry phy flags), ?_⟩
    simp only [hn₂, Option.bind_eq_bind, Option.bind_some]
    rw [hn₁]
    rfl
  · obtain ⟨⟨p3, m₃⟩, hn₃⟩ := newTable_ok flags zero pml4 (idx v 39) h (by omega)
    have hl₃ := (newTable_takes hn₃ l h).2
    obtain ⟨⟨p2, m₂⟩, hn₂⟩ := newTable_ok flags zero p3 (idx v 30) hl₃
      (by rw [List.length_drop]; omega)
    have hl₂ := (newTable_takes hn₂ _ hl₃).2
    obtain ⟨⟨p1, m₁⟩, hn₁⟩ := newTable_ok flags zero p2 (idx v 21) hl₂
      (by simp only [List.length_drop]; omega)
    refine ⟨m₁.set p1 (idx v 12) (entry phy flags), ?_⟩
    simp only [hn₃, Option.bind_eq_bind, Option.bind_some]
    rw [hn₂, Option.bind_some]
    dsimp only
    rw [hn₁]
    rfl

end Mem

/-- The frames `l` are free, and `allocate_page` returns them in this order. -/
structure Stock (m : Mem) (l : List Nat) : Prop where
  list : FreeList m l
  address : ∀ f ∈ l, (m.page f).address = f * 4096
  free : ∀ f ∈ l, (m.page f).free = true

section Stock

variable {m : Mem} {f : Nat} {l : List Nat}

theorem Stock.nodup (h : Stock m l) : l.Nodup := Chain.nodup h.list

/-- The first of the frames. -/
theorem Stock.take (h : Stock m (f :: l)) :
    ∃ m', m.allocatePage = some (f * 4096, m') ∧ m'.word = m.word ∧ m'.kpml4 = m.kpml4 ∧
      m'.page = Function.update m.page f { m.page f with free := false, refCount := 1 } ∧
      Stock m' l := by
  have hlist := h.list
  obtain ⟨⟨a, m'⟩, halloc⟩ := Mem.allocatePage_ok hlist (by simp)
  obtain ⟨-, hlist'⟩ := Mem.allocatePage_takes halloc _ hlist
  obtain ⟨g, hhead, rfl, hword, hkpml4, -, hpage⟩ := Mem.allocatePage_eq halloc
  unfold FreeList at hlist
  rw [hhead] at hlist
  obtain ⟨rest, heq, -⟩ := hlist.eq_cons
  obtain ⟨rfl, rfl⟩ := List.cons_eq_cons.mp heq
  have hkeep : ∀ g ∈ l, m'.page g = m.page g := by
    intro g hg
    rw [hpage, Function.update_of_ne]
    rintro rfl
    exact (List.nodup_cons.mp h.nodup).1 hg
  refine ⟨m', by rw [halloc, h.address f (by simp)], hword, hkpml4, hpage, hlist', ?_, ?_⟩
  · intro g hg
    rw [hkeep g hg]
    exact h.address g (by simp [hg])
  · intro g hg
    rw [hkeep g hg]
    exact h.free g (by simp [hg])

/-- Without one `allocate_page` does not return. -/
theorem Stock.empty (h : Stock m []) : m.allocatePage = none := by
  have hlist := h.list
  unfold FreeList at hlist
  unfold Mem.allocatePage
  cases hhead : m.head with
  | none => rfl
  | some f =>
      rw [hhead] at hlist
      obtain ⟨rest, hrest, -⟩ := hlist.eq_cons
      cases hrest

/-- The kernel finds the frame at the same address plus the offset of its own half, where
the linear map has it. -/
theorem Stock.takeForProcess {role : Nat → Role} (h : Stock m (f :: l)) (hlinear : Linear m role)
    (hf : role f ≠ .kernel) :
    ∃ m', m.allocatePageForProcess = some (kernBase + f * 4096, m') ∧ m'.word = m.word ∧
      m'.kpml4 = m.kpml4 ∧
      m'.page = Function.update m.page f { m.page f with free := false, refCount := 1 } ∧
      Stock m' l := by
  obtain ⟨m', halloc, hword, hkp, hpage, hstock⟩ := h.take
  have hmap := (hlinear.congr (fun _ => Iff.rfl) (fun g _ => congrFun hword g) hkp).map hf
  refine ⟨m', ?_, hword, hkp, hpage, hstock⟩
  unfold Mem.allocatePageForProcess
  rw [halloc]
  simp only [Option.bind_eq_bind, Option.bind_some]
  rw [hmap]
  rfl

theorem Stock.emptyForProcess (h : Stock m []) : m.allocatePageForProcess = none := by
  unfold Mem.allocatePageForProcess
  rw [h.empty]
  rfl

/-- Writing tables takes no frames. -/
theorem Stock.congr {m' : Mem} (h : Stock m l) (hpage : m'.page = m.page)
    (hhead : m'.head = m.head) : Stock m' l := by
  refine ⟨h.list.congr hpage hhead, ?_, ?_⟩
  · rw [hpage]
    exact h.address
  · rw [hpage]
    exact h.free

end Stock

def clearedMem : Mem where
  word _ _ := 0
  page f :=
    { address := f * 4096, free := decide (600 ≤ f ∧ f ≤ 605), refCount := 0,
      next := if f < 605 then some (f + 1) else none }
  head := some 600
  kpml4 := 0

theorem clearedMem_stock : Stock clearedMem [600, 601, 602, 603, 604, 605] :=
  ⟨.cons (.cons (.cons (.cons (.cons (.cons .nil))))), fun _ _ => rfl, by decide⟩

section Tree

variable {m m' : Mem} {G : Ghost} {p v : Nat}

/-- The missing tables are those the tree does not have. -/
theorem Inv.missingTables (h : Inv m G) (hp : G.tab (p, 3, 0) = some p)
    (hv : v / 4096 < userPages) :
    m.missingTables p v =
      if G.tab (p, 2, v / 4096 / 134217728) = none then 3
      else if G.tab (p, 1, v / 4096 / 262144) = none then 2
      else if G.tab (p, 0, v / 4096 / 512) = none then 1 else 0 := by
  unfold Mem.missingTables
  simp only [idx_39, idx_30, idx_21]
  generalize v / 4096 = n at *
  rw [h.word_top hp hv]
  cases h2 : G.tab (p, 2, n / 134217728) with
  | none => simp
  | some t2 =>
      rw [present_tableWord, tableWord_some_frame (h.tab_lt h2), h.word_dir h2 hv]
      cases h1 : G.tab (p, 1, n / 262144) with
      | none => simp
      | some t1 =>
          rw [present_tableWord, tableWord_some_frame (h.tab_lt h1), h.word_mid h1 hv]
          cases h0 : G.tab (p, 0, n / 512) <;> simp

theorem Inv.missingTables_zero (h : Inv m G) (hp : G.tab (p, 3, 0) = some p)
    (hv : v / 4096 < userPages) (htab : G.tab (p, 0, v / 4096 / 512) ≠ none) :
    m.missingTables p v = 0 := by
  obtain ⟨hmid, hdir⟩ := h.trees.above htab
  rw [h.missingTables hp hv, if_neg hdir, if_neg hmid, if_neg htab]

theorem Inv.initPages_takes (h : Inv m G) (hp : G.tab (p, 3, 0) = some p)
    (hv : v / 4096 < userPages) {phy : Nat} (hrun : m.initPagesForProcess v phy p = some m') :
    Takes (m.missingTables p v) m m' := by
  have h₀ := h.linkKernel hp (entry (addrOf (m.word m.kpml4 511)) 7)
  have htakes := Mem.mapAt_takes hrun
  rw [h₀.missingTables hp hv, ← h.missingTables hp hv] at htakes
  exact htakes

theorem Inv.initPages_ok (h : Inv m G) (hp : G.tab (p, 3, 0) = some p)
    (hv : v / 4096 < userPages) (phy : Nat) {l : List Nat} (hl : FreeList m l)
    (hlen : m.missingTables p v ≤ l.length) : ∃ m', m.initPagesForProcess v phy p = some m' := by
  have h₀ := h.linkKernel hp (entry (addrOf (m.word m.kpml4 511)) 7)
  refine Mem.mapAt_ok 7 true phy (hl.congr rfl rfl) ?_
  rw [h₀.missingTables hp hv, ← h.missingTables hp hv]
  exact hlen

end Tree

end X86Kernel.Paging
