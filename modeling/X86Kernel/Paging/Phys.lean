import X86Kernel.Lib.Chain
import X86Kernel.Paging.Entry

/-!
Physical memory, the frame allocator and the page tables of `paging.c`.

Memory is a word for every frame and every index in it. The kernel reaches a
frame through its linear map at `kernBase`, so a kernel pointer is modelled by
the frame it points at. `pagelist` is a function; the list of free frames is
threaded through `next`. `allocate_page` never returns when no frame is free:
that is `none` here, in it and in everything that calls it.
-/

namespace X86Kernel.Paging

structure Page where
  address : Nat
  free : Bool
  refCount : Nat
  next : Option Nat
  deriving DecidableEq, Repr

/-- Memory, the allocator and the frame of the kernel's own PML4 (`k_cr3`). -/
structure Mem where
  word : Nat → Nat → Word
  page : Nat → Page
  head : Option Nat
  kpml4 : Nat

/-- The start of the kernel's linear map. -/
def kernBase : Nat := 0xffffffff80000000

def idx (v s : Nat) : Nat := v / 2 ^ s % 512

namespace Mem

def set (m : Mem) (f i : Nat) (w : Word) : Mem :=
  { m with word := Function.update m.word f (Function.update (m.word f) i w) }

def setFrame (m : Mem) (f : Nat) (ws : Nat → Word) : Mem :=
  { m with word := Function.update m.word f ws }

def setPage (m : Mem) (i : Nat) (p : Page) : Mem :=
  { m with page := Function.update m.page i p }

def memset0 (m : Mem) (f : Nat) : Mem := m.setFrame f fun _ => 0

/-- `free`. The count of a frame that goes back to the list stays 1. -/
def free (m : Mem) (add : Nat) : Mem :=
  let i := add / 4096
  if (m.page i).address = add ∧ 1 < (m.page i).refCount then
    m.setPage i { m.page i with refCount := (m.page i).refCount - 1 }
  else if (m.page i).address = add then
    { m.setPage i { m.page i with free := true, next := m.head } with head := some i }
  else m

def getrefcount (m : Mem) (add : Nat) : Nat := (m.page (add / 4096)).refCount

def increfcount (m : Mem) (add : Nat) : Mem :=
  m.setPage (add / 4096)
    { m.page (add / 4096) with refCount := (m.page (add / 4096)).refCount + 1 }

/-- `allocate_page`. The contents of the frame are what they were. -/
def allocatePage (m : Mem) : Option (Nat × Mem) :=
  match m.head with
  | none => none
  | some i => some ((m.page i).address,
      { m.setPage i { m.page i with free := false, refCount := 1 } with
        head := (m.page i).next })

/-- A new table hung into entry `i` of the table `t`. -/
def newTable (flags : Word) (zero : Bool) (m : Mem) (t i : Nat) : Option (Nat × Mem) := do
  let (a, m) ← m.allocatePage
  let m := m.set t i (entry a flags)
  some (a / 4096, if zero then m.memset0 (a / 4096) else m)

/-- The common body of `map` and `init_pages_for_process`: descend from `pml4`
to the page table of `vaddr`, with new tables where one is missing. Below a new
table everything is new, whatever its frame contained. -/
def mapAt (flags : Word) (zero : Bool) (m : Mem) (vaddr phy pml4 : Nat) : Option Mem :=
  let id1 := idx vaddr 39
  let id2 := idx vaddr 30
  let id3 := idx vaddr 21
  let id4 := idx vaddr 12
  if present (m.word pml4 id1) then
    let p3 := frameOf (m.word pml4 id1)
    if present (m.word p3 id2) then
      let p2 := frameOf (m.word p3 id2)
      if present (m.word p2 id3) then
        let p1 := frameOf (m.word p2 id3)
        some (m.set p1 id4 (entry phy flags))
      else do
        let (p1, m) ← newTable flags zero m p2 id3
        some (m.set p1 id4 (entry phy flags))
    else do
      let (p2, m) ← newTable flags zero m p3 id2
      let (p1, m) ← newTable flags zero m p2 id3
      some (m.set p1 id4 (entry phy flags))
  else do
    let (p3, m) ← newTable flags zero m pml4 id1
    let (p2, m) ← newTable flags zero m p3 id2
    let (p1, m) ← newTable flags zero m p2 id3
    some (m.set p1 id4 (entry phy flags))

/-- `map`, on the kernel's own tables; new tables are not cleared. -/
def map (m : Mem) (vaddr phy : Nat) : Option Mem := mapAt 3 false m vaddr phy m.kpml4

/-- `allocate_page_for_process`: the kernel address of a new frame. -/
def allocatePageForProcess (m : Mem) : Option (Nat × Mem) := do
  let (ax, m) ← m.allocatePage
  let m ← m.map (kernBase + ax) ax
  some (kernBase + ax, m)

/-- `init_pages_for_process`: the kernel half, then one user page. -/
def initPagesForProcess (m : Mem) (vaddr phy pml4 : Nat) : Option Mem :=
  mapAt 7 true (m.set pml4 511 (entry (addrOf (m.word m.kpml4 511)) 7)) vaddr phy pml4

/-- `getPTE`: the page table of `v` in the tables of `pml4`. No entry on the
way is checked: below a missing one this reads frame 0, and with two missing it
follows what it finds there, as a frame even where the linear map has none. -/
def getPTE (m : Mem) (pml4 v : Nat) : Nat :=
  let p3 := frameOf (m.word pml4 (idx v 39))
  let p2 := frameOf (m.word p3 (idx v 30))
  frameOf (m.word p2 (idx v 21))

/-- The user entries of a table: entry 511 of a PML4 belongs to the kernel. -/
def entries (level : Nat) : Nat := if level = 3 then 511 else 512

/-- The nested loops of `copytables`, by the level of the tables `p` and `c`
they are in: 3 for the PML4s, 0 for the page tables. -/
def copyLevel : Nat → Mem → Nat → Nat → Option Mem
  | 0, m, p1, c1 => (List.range (entries 0)).foldlM (fun m l =>
      if present (m.word p1 l) then
        let m := m.increfcount (addrOf (m.word p1 l))
        let m := m.set p1 l (shareEntry (m.word p1 l))
        some (m.set c1 l (m.word p1 l))
      else some m) m
  | level + 1, m, p, c => (List.range (entries (level + 1))).foldlM (fun m i =>
      if present (m.word p i) then do
        let (c', m) ← m.allocatePageForProcess
        let m := m.memset0 ((c' - kernBase) / 4096)
        let m := m.set c i (entry (c' - kernBase) 7)
        copyLevel level m (frameOf (m.word p i)) ((c' - kernBase) / 4096)
      else some m) m

def copytables (m : Mem) (p c : Nat) : Option Mem :=
  copyLevel 3 (m.set c 511 (m.word p 511)) p c

/-- The nested loops of `dealloc_pml4`, by level. -/
def deallocLevel : Nat → Mem → Nat → Mem
  | 0, m, p1 => (List.range (entries 0)).foldl (fun m l =>
      (if present (m.word p1 l) then m.free (addrOf (m.word p1 l)) else m).set p1 l 0) m
  | level + 1, m, p => (List.range (entries (level + 1))).foldl (fun m i =>
      (if present (m.word p i) then
        let m := deallocLevel level m (frameOf (m.word p i))
        m.free (addrOf (m.word p i))
      else m).set p i 0) m

/-- `dealloc_pml4`. The PML4 itself is kept. -/
def deallocPml4 (m : Mem) (pm4 : Nat) : Mem := deallocLevel 3 m pm4

/-- What the MMU does with a user address: the page's entry, if every entry on
the way is present. -/
def walk (m : Mem) (pml4 v : Nat) : Option Word :=
  let e4 := m.word pml4 (idx v 39)
  if present e4 then
    let e3 := m.word (frameOf e4) (idx v 30)
    if present e3 then
      let e2 := m.word (frameOf e3) (idx v 21)
      if present e2 then
        let e1 := m.word (frameOf e2) (idx v 12)
        if present e1 then some e1 else none
      else none
    else none
  else none

def load (m : Mem) (pml4 v : Nat) : Option Byte :=
  (m.walk pml4 v).map fun e => byteAt (m.word (frameOf e) (v % 4096 / 8)) (v % 8)

/-- A write to a user address, which changes the word it falls in by `g`; it
faults, `none`, unless the page is present and writable. -/
def store (m : Mem) (pml4 v : Nat) (g : Word → Word) : Option Mem :=
  match m.walk pml4 v with
  | some e =>
      if writable e then
        let i := v % 4096 / 8
        some (m.set (frameOf e) i (g (m.word (frameOf e) i)))
      else none
  | none => none

theorem set_word (m : Mem) (f i g j : Nat) (w : Word) :
    (m.set f i w).word g j = if g = f ∧ j = i then w else m.word g j := by
  unfold set
  by_cases hg : g = f
  · subst hg
    by_cases hj : j = i
    · subst hj
      simp
    · simp [hj]
  · simp [hg]

theorem set_word_of_ne (m : Mem) {f i g : Nat} (w : Word) (h : g ≠ f) :
    (m.set f i w).word g = m.word g := by
  funext j
  simp [set_word, h]

@[simp] theorem set_word_self (m : Mem) (f i : Nat) (w : Word) : (m.set f i w).word f i = w := by
  simp [set_word]

@[simp] theorem set_page (m : Mem) (f i : Nat) (w : Word) : (m.set f i w).page = m.page := rfl

@[simp] theorem set_head (m : Mem) (f i : Nat) (w : Word) : (m.set f i w).head = m.head := rfl

@[simp] theorem set_kpml4 (m : Mem) (f i : Nat) (w : Word) : (m.set f i w).kpml4 = m.kpml4 := rfl

@[simp] theorem setFrame_word_self (m : Mem) (f : Nat) (ws : Nat → Word) :
    (m.setFrame f ws).word f = ws := by
  simp [setFrame]

theorem setFrame_word_of_ne (m : Mem) {f g : Nat} (ws : Nat → Word) (h : g ≠ f) :
    (m.setFrame f ws).word g = m.word g := by
  simp [setFrame, h]

@[simp] theorem setFrame_page (m : Mem) (f : Nat) (ws : Nat → Word) :
    (m.setFrame f ws).page = m.page := rfl

@[simp] theorem setFrame_head (m : Mem) (f : Nat) (ws : Nat → Word) :
    (m.setFrame f ws).head = m.head := rfl

@[simp] theorem setFrame_kpml4 (m : Mem) (f : Nat) (ws : Nat → Word) :
    (m.setFrame f ws).kpml4 = m.kpml4 := rfl

@[simp] theorem memset0_word_self (m : Mem) (f : Nat) : (m.memset0 f).word f = fun _ => 0 :=
  setFrame_word_self m f _

@[simp] theorem free_word (m : Mem) (add : Nat) : (m.free add).word = m.word := by
  unfold free setPage
  dsimp only
  split_ifs <;> rfl

@[simp] theorem free_kpml4 (m : Mem) (add : Nat) : (m.free add).kpml4 = m.kpml4 := by
  unfold free setPage
  dsimp only
  split_ifs <;> rfl

@[simp] theorem increfcount_word (m : Mem) (add : Nat) : (m.increfcount add).word = m.word := rfl

@[simp] theorem increfcount_head (m : Mem) (add : Nat) : (m.increfcount add).head = m.head := rfl

/-- What a successful `allocate_page` did. -/
theorem allocatePage_eq {m m' : Mem} {a : Nat} (h : m.allocatePage = some (a, m')) :
    ∃ f, m.head = some f ∧ a = (m.page f).address ∧ m'.word = m.word ∧
      m'.kpml4 = m.kpml4 ∧ m'.head = (m.page f).next ∧
      m'.page = Function.update m.page f { m.page f with free := false, refCount := 1 } := by
  unfold allocatePage at h
  cases hhead : m.head with
  | none => simp [hhead] at h
  | some f =>
      simp only [hhead, Option.some.injEq, Prod.mk.injEq] at h
      obtain ⟨rfl, rfl⟩ := h
      exact ⟨f, rfl, rfl, rfl, rfl, rfl, rfl⟩

end Mem

end X86Kernel.Paging
