import X86Kernel.Paging.Phys

/-!
The memory of a process: its PML4 and its list of areas, and the functions of
`process.c` and `idt.c` that build, copy, extend, repair and destroy it.

A node of the area list is a frame of its own; its words 0, 1 and 5 are the
fields `vm_start`, `vm_end` and `next`. The loops over the list run on fuel,
one more than there are frames: a list that does not end in time never ends,
which is `none`, as running out of memory is.
-/

namespace X86Kernel.Kern

open Paging

/-- The fields of `task_struct` that describe memory. Both are 0 in a slot that
was never used. -/
structure Space where
  pml4e : Nat
  vm : Word
  deriving DecidableEq

def Space.root (sp : Space) : Nat := sp.pml4e / 4096

def frameAt (w : Word) : Nat := (w.toNat - kernBase) / 4096

def toNode (w : Word) : Option Nat := if w = 0 then none else some (frameAt w)

def vmStart (m : Mem) (vm : Word) : Word := m.word (frameAt vm) 0

def vmEnd (m : Mem) (vm : Word) : Word := m.word (frameAt vm) 1

def vmNext (m : Mem) (vm : Word) : Word := m.word (frameAt vm) 5

/-- Enough iterations for every list without a cycle. -/
def fuel : Nat := 75001

/-- `kmalloc`: a page, and further pages that nobody gets to know of. -/
def kmalloc (m : Mem) (size : Nat) : Option (Nat × Mem) := do
  let (add, m) ← m.allocatePageForProcess
  let m ← (List.range (size / 4096)).foldlM
    (fun m _ => m.allocatePageForProcess.map Prod.snd) m
  some (add, m)

def vmaSize : Nat := 48

def newVma (m : Mem) (start stop next : Word) : Option (Word × Mem) := do
  let (a, m) ← kmalloc m vmaSize
  let f := (a - kernBase) / 4096
  some (BitVec.ofNat 64 a, ((m.set f 0 start).set f 1 stop).set f 5 next)

structure Phdr where
  type : Nat
  offset : Nat
  vaddr : Nat
  filesz : Nat
  memsz : Nat
  deriving DecidableEq, Repr

structure Image where
  phdrs : List Phdr
  data : Nat → Byte

/-- The loop that maps the pages from `start` on, as many as lie below `stop`. -/
def mapPages (m : Mem) (pml4 start stop : Nat) : Option Mem :=
  (List.range ((stop - start + 4095) / 4096)).foldlM (fun m j => do
    let (yy, m) ← m.allocatePage
    m.initPagesForProcess (start + 4096 * j) yy pml4) m

/-- `memcpy` and `memset` to user addresses, byte by byte. -/
def copyBytes (m : Mem) (pml4 dst : Nat) (src : Nat → Byte) (count : Nat) : Option Mem :=
  (List.range count).foldlM (fun m j =>
    m.store pml4 (dst + j) fun w => setByte w ((dst + j) % 8) (src j)) m

/-- One iteration of the loader's loop. The source of the copy is
`eh + ep->p_offset`, which counts in ELF headers of 64 bytes. -/
def loadSegment (img : Image) (pml4 : Nat) (s : Word × Mem) (ep : Phdr) :
    Option (Word × Mem) :=
  if ep.type = 1 then do
    let (vm, m) ← newVma s.2 (BitVec.ofNat 64 ep.vaddr) (BitVec.ofNat 64 (ep.vaddr + ep.memsz)) s.1
    let m ← mapPages m pml4 (ep.vaddr / 4096 * 4096) (ep.vaddr + ep.memsz)
    let m ← copyBytes m pml4 ep.vaddr (fun j => img.data (64 * ep.offset + j)) ep.filesz
    let m ← copyBytes m pml4 (ep.vaddr + ep.filesz) (fun _ => 0) (ep.memsz - ep.filesz)
    some (vm, m)
  else some s

def heapStart : Nat := 0x4B0FFFFF0000

def stackStart : Nat := 0x100FFFFF0000

def stackEnd : Nat := 0x100FFEFF0000

/-- The part `create_process` and `execvpe` share: the segments from the last
to the first, the empty heap area, the first page of the stack and its area. -/
def loadImage (img : Image) (pml4 : Nat) (s : Word × Mem) : Option (Word × Mem) := do
  let (vm, m) ← img.phdrs.reverse.foldlM (loadSegment img pml4) s
  let (vm2, m) ← newVma m (BitVec.ofNat 64 heapStart) (BitVec.ofNat 64 heapStart) vm
  let (add, m) ← m.allocatePage
  let m ← m.initPagesForProcess stackStart add pml4
  newVma m (BitVec.ofNat 64 stackStart) (BitVec.ofNat 64 stackEnd) vm2

/-- A write of the kernel to the user stack: the address, and what becomes of
the word there. -/
abbrev Write := Nat × (Word → Word)

def wordWrite (a : Nat) (w : Nat) : Write := (a, fun _ => BitVec.ofNat 64 w)

def stringWrites (a : Nat) (s : List Byte) : List Write :=
  (s ++ [0]).zipIdx.map fun (b, j) => (a + j, fun w => setByte w ((a + j) % 8) b)

/-- The words pushed below `rsp`, the first one highest. -/
def pushWords (rsp : Nat) (ws : List Nat) : List Write :=
  ws.zipIdx.map fun (w, j) => wordWrite (rsp - 8 * (j + 1)) w

/-- The strings of `args` pushed below `rsp`, the last one first: the writes,
the addresses of the strings, and the new `rsp`. Pointer arithmetic on `rsp`
counts in words, so a string of `l` bytes takes `8 * l`. -/
def pushStrings (rsp : Nat) : List (List Byte) → List Write × List Nat × Nat
  | [] => ([], [], rsp)
  | s :: rest =>
      let (ws, temp, rsp) := pushStrings rsp rest
      let rsp := rsp - 8 * (s.length + 1)
      (ws ++ stringWrites rsp s, rsp :: temp, rsp)

def initialRsp : Nat := stackStart + 510 * 8

/-- The stack `create_process` builds: the file name, two zero words, the
address of the lower of them and the count 1. -/
def createWrites (name : List Byte) : List Write :=
  let (ws, _, rsp) := pushStrings initialRsp [name]
  ws ++ pushWords rsp [0, 0, rsp - 8 * 2, 1]

/-- The stack `execvpe` builds without an environment: the strings, the two
zero words, the pointers to the strings from the last to the first, and their
number. -/
def execWrites (args : List (List Byte)) : List Write :=
  let (ws, temp, rsp) := pushStrings initialRsp args
  ws ++ pushWords rsp ([0, 0] ++ temp.reverse ++ [args.length])

/-- `create_process`, as far as memory goes. -/
def createProcess (m : Mem) (img : Image) (name : List Byte) : Option (Space × Mem) := do
  let (a, m) ← m.allocatePageForProcess
  let pml4 := (a - kernBase) / 4096
  let (vm, m) ← loadImage img pml4 (0, m.memset0 pml4)
  let m ← (createWrites name).foldlM (fun m w => m.store pml4 w.1 w.2) m
  some ({ pml4e := a - kernBase, vm := vm }, m)

/-- How `isr14` ends: it returns, it makes the process exit, or it stays in its
endless loop. The last two leave memory alone. -/
inductive Fault where
  | resume (m : Mem)
  | segv
  | stuck

/-- The scan over the areas: is `bb` strictly inside one of them? -/
def scanAreas (m : Mem) (bb : Nat) : Nat → Word → Option Bool
  | 0, _ => none
  | n + 1, vm =>
      if vm = 0 then some false
      else if (vmStart m vm).toNat < bb ∧ bb < (vmEnd m vm).toNat then some true
      else scanAreas m bb n (vmNext m vm)

def inAreas (m : Mem) (sp : Space) (bb : Nat) : Option Bool :=
  if bb < (vmStart m sp.vm + 4096).toNat ∧ (vmEnd m sp.vm).toNat < bb then some true
  else scanAreas m bb fuel sp.vm

/-- `isr14` for a fault of the process `sp` at `bb`. The copy reads through the
faulting address itself. -/
def isr14 (m : Mem) (sp : Space) (bb : Nat) : Option Fault := do
  if ← inAreas m sp bb then
    let k := m.getPTE sp.root bb
    let e := m.word k (idx bb 12)
    if cow e then
      let add := addrOf e
      if m.getrefcount add = 2 then
        let (pn, m) ← m.allocatePage
        let src ← m.walk sp.root bb
        let m := m.setFrame (pn / 4096) (m.word (frameOf src))
        let m ← m.initPagesForProcess (bb / 4096 * 4096) pn sp.root
        some (.resume (m.free add))
      else if m.getrefcount add = 1 then some (.resume (m.set k (idx bb 12) (ownEntry e)))
      else some .stuck
    else if bb < (vmStart m sp.vm).toNat ∧ (vmEnd m sp.vm).toNat < bb then
      let (pn, m) ← m.allocatePage
      let m ← m.initPagesForProcess (bb / 4096 * 4096) pn sp.root
      some (.resume m)
    else some .segv
  else some .segv

/-- A write of the process `sp` at `a`, which changes the word there by `g`.
After a fault that `isr14` repairs, the CPU does the write again. -/
def write (m : Mem) (sp : Space) (a : Nat) (g : Word → Word) : Option Fault :=
  match m.store sp.root a g with
  | some m => some (.resume m)
  | none =>
      match isr14 m sp a with
      | some (.resume m) => (m.store sp.root a g).map .resume
      | r => r

def read (m : Mem) (sp : Space) (a : Nat) : Option Fault :=
  if (m.walk sp.root a).isSome then some (.resume m) else isr14 m sp a

/-- A write of the kernel to the stack of a new image. Where the stack has no
page yet, it faults as a write of the process would. -/
def stackWrite (sp : Space) (m : Mem) (w : Write) : Option Mem :=
  match write m sp w.1 w.2 with
  | some (.resume m) => some m
  | _ => none

/-- `execvpe` from the point where it cannot fail any more. The old areas stay
in the list, behind the new ones. -/
def execvpe (m : Mem) (sp : Space) (img : Image) (args : List (List Byte)) :
    Option (Space × Mem) := do
  let (vm, m) ← loadImage img sp.root (sp.vm, m.deallocPml4 sp.root)
  let sp := { sp with vm := vm }
  let m ← (execWrites args).foldlM (stackWrite sp) m
  some (sp, m)

def copyNode (m : Mem) (f : Nat) (a : Word) : Mem :=
  m.setFrame f fun i => if i < vmaSize / 8 then m.word (frameAt a) i else m.word f i

/-- The loop of `copytask` over the areas `a` of the parent, behind the last
node `p` of the child so far. -/
def copyAreas : Nat → Mem → Word → Word → Option Mem
  | 0, _, _, _ => none
  | n + 1, m, a, p =>
      if a = 0 then some m
      else do
        let (v, m) ← kmalloc m vmaSize
        let f := (v - kernBase) / 4096
        let m := copyNode m f a
        let m := m.set (frameAt p) 5 (BitVec.ofNat 64 v)
        copyAreas n m (vmNext m a) (BitVec.ofNat 64 v)

/-- `copytask`: the memory of the child. The first node has no predecessor
whose `next` could be set. -/
def copytask (m : Mem) (r : Space) : Option (Space × Mem) := do
  let (v, m) ← m.allocatePageForProcess
  let c := (v - kernBase) / 4096
  let m ← (m.memset0 c).copytables r.root c
  if r.vm = 0 then some ({ pml4e := v - kernBase, vm := 0 }, m)
  else do
    let (w, m) ← kmalloc m vmaSize
    let m := copyNode m ((w - kernBase) / 4096) r.vm
    let m ← copyAreas fuel m (vmNext m r.vm) (BitVec.ofNat 64 w)
    some ({ pml4e := v - kernBase, vm := BitVec.ofNat 64 w }, m)

/-- The loop of `removeProcess` over the areas. -/
def freeAreas : Nat → Mem → Word → Option Mem
  | 0, _, _ => none
  | n + 1, m, vm =>
      if vm = 0 then some m
      else freeAreas n (m.free (vm.toNat - kernBase)) (vmNext m vm)

def removeProcess (m : Mem) (sp : Space) : Option Mem := do
  let m ← freeAreas fuel m sp.vm
  some ((m.deallocPml4 sp.root).free sp.pml4e)

/-- The number of pages `malloc` adds; the division truncates. -/
def mallocPages (bytes : Int) : Nat := (bytes.tdiv 4096 + 1).toNat

/-- `malloc`: whole pages at the end of the heap area, the second of the list. -/
def malloc (m : Mem) (sp : Space) (bytes : Int) : Option Mem :=
  let vm := vmNext m sp.vm
  (List.range (mallocPages bytes)).foldlM (fun m _ => do
    let (add, m) ← m.allocatePage
    let m ← m.initPagesForProcess (vmEnd m vm).toNat add sp.root
    some (m.set (frameAt vm) 1 (vmEnd m vm + 4096))) m

end X86Kernel.Kern
