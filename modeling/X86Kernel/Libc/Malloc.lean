import Mathlib.Logic.Function.Basic
import X86Kernel.Lib.Arena

/-!
The heap of the C library (`libc/malloc.c`): a circular list of free blocks
threaded through their own headers, searched first fit from a roving pointer.
Pointers are byte addresses, and `p + n` on a `Header *` is `p + 16 * n`. The
kernel's `malloc` call, which the library uses as its `sbrk`, is a parameter: it
sees the regions it has granted so far and the bytes it is asked for.

The two loops of the source carry fuel; `none` means that it ran out.
-/

namespace X86Kernel.Libc

open Lib

/-- `union header`, the sixteen bytes in front of every block. -/
structure Header where
  ptr : Nat
  size : Nat
  deriving DecidableEq, Repr

def sizeofHeader : Nat := 16

def NALLOC : Int := 1024

def NULL : Nat := 0

def refused : Nat := 2 ^ 64 - 1

def unsigned (x : Int) : Nat := (x % 2 ^ 32).toNat

def int (x : Int) : Int := x.bmod (2 ^ 32)

/-- The headers in memory, the roving pointer, and the regions `sbrk` has
granted, the latest first. -/
structure Heap where
  mem : Nat → Header
  freep : Nat
  regions : List Extent

namespace Heap

def setPtr (h : Heap) (p v : Nat) : Heap :=
  { h with mem := Function.update h.mem p { h.mem p with ptr := v } }

def setSize (h : Heap) (p v : Nat) : Heap :=
  { h with mem := Function.update h.mem p { h.mem p with size := v } }

@[simp] theorem setPtr_freep (h : Heap) (p v : Nat) : (h.setPtr p v).freep = h.freep := rfl

@[simp] theorem setSize_freep (h : Heap) (p v : Nat) : (h.setSize p v).freep = h.freep := rfl

@[simp] theorem setPtr_regions (h : Heap) (p v : Nat) : (h.setPtr p v).regions = h.regions := rfl

@[simp] theorem setSize_regions (h : Heap) (p v : Nat) : (h.setSize p v).regions = h.regions := rfl

@[simp] theorem setPtr_ptr (h : Heap) (p v a : Nat) :
    ((h.setPtr p v).mem a).ptr = if a = p then v else (h.mem a).ptr := by
  by_cases ha : a = p
  · subst ha
    simp [setPtr]
  · simp [setPtr, ha]

@[simp] theorem setPtr_size (h : Heap) (p v a : Nat) :
    ((h.setPtr p v).mem a).size = (h.mem a).size := by
  by_cases ha : a = p
  · subst ha
    simp [setPtr]
  · simp [setPtr, ha]

@[simp] theorem setSize_ptr (h : Heap) (p v a : Nat) :
    ((h.setSize p v).mem a).ptr = (h.mem a).ptr := by
  by_cases ha : a = p
  · subst ha
    simp [setSize]
  · simp [setSize, ha]

@[simp] theorem setSize_size (h : Heap) (p v a : Nat) :
    ((h.setSize p v).mem a).size = if a = p then v else (h.mem a).size := by
  by_cases ha : a = p
  · subst ha
    simp [setSize]
  · simp [setSize, ha]

end Heap

/-- The loop of `free`: the node behind which `bp` belongs, or the last one
where the list wraps. -/
def seek (mem : Nat → Header) (bp : Nat) : Nat → Nat → Option Nat
  | 0, _ => none
  | fuel + 1, p =>
      if bp > p ∧ bp < (mem p).ptr then some p
      else if p ≥ (mem p).ptr ∧ (bp > p ∨ bp < (mem p).ptr) then some p
      else seek mem bp fuel (mem p).ptr

/-- Join the block with the free one behind it, or link to that one. -/
def joinUpper (h : Heap) (bp p : Nat) : Heap :=
  if bp + sizeofHeader * (h.mem bp).size = (h.mem p).ptr then
    let h := h.setSize bp (unsigned ((h.mem bp).size + (h.mem (h.mem p).ptr).size))
    h.setPtr bp (h.mem (h.mem p).ptr).ptr
  else h.setPtr bp (h.mem p).ptr

/-- Join the block with the free one in front of it, or link that one to it. -/
def joinLower (h : Heap) (bp p : Nat) : Heap :=
  if p + sizeofHeader * (h.mem p).size = bp then
    let h := h.setSize p (unsigned ((h.mem p).size + (h.mem bp).size))
    h.setPtr p (h.mem bp).ptr
  else h.setPtr p bp

def free (fuel : Nat) (h : Heap) (ap : Nat) : Option Heap := do
  let bp := ap - sizeofHeader
  let p ← seek h.mem bp fuel h.freep
  some { joinLower (joinUpper h bp p) bp p with freep := p }

section

variable (sbrk : List Extent → Int → Nat)

/-- `morecore`: a region of at least `NALLOC` units, put on the free list. The
result is the roving pointer, or `NULL` when `sbrk` refuses. -/
def morecore (fuel : Nat) (h : Heap) (nu : Int) : Option (Nat × Heap) :=
  let nu := if nu < NALLOC then NALLOC else nu
  let increment := int (nu * sizeofHeader)
  let cp := sbrk h.regions increment
  if cp = refused then some (NULL, h)
  else do
    let h := { h with regions := ⟨cp, increment.toNat⟩ :: h.regions }
    let h := h.setSize cp (unsigned nu)
    let h ← free fuel h (cp + sizeofHeader)
    some (h.freep, h)

/-- What `malloc` does with a block that is large enough: unlink it, or cut the
request off its tail. -/
def take (h : Heap) (nunits prevp p : Nat) : Nat × Heap :=
  if (h.mem p).size = nunits then
    let h := h.setPtr prevp (h.mem p).ptr
    (p + sizeofHeader, { h with freep := prevp })
  else
    let h := h.setSize p ((h.mem p).size - nunits)
    let p := p + sizeofHeader * (h.mem p).size
    let h := h.setSize p nunits
    (p + sizeofHeader, { h with freep := prevp })

/-- The loop of `malloc`. Once it is back at the roving pointer it asks for a new
region and goes on behind the pointer that `morecore` returns. -/
def search (nunits : Nat) : Nat → Heap → Nat → Nat → Option (Nat × Heap)
  | 0, _, _, _ => none
  | fuel + 1, h, prevp, p =>
      if (h.mem p).size ≥ nunits then some (take h nunits prevp p)
      else if p = h.freep then do
        let (p, h) ← morecore sbrk fuel h (int nunits)
        if p = NULL then some (NULL, h) else search nunits fuel h p (h.mem p).ptr
      else search nunits fuel h p (h.mem p).ptr

/-- The units `malloc` looks for: the bytes rounded up, and one for the header. -/
def unitsFor (nbytes : Nat) : Nat :=
  unsigned (((nbytes + sizeofHeader - 1) % 2 ^ 64 / sizeofHeader + 1 : Nat))

/-- The first call of all makes `base` a list of its own. -/
def initBase (base : Nat) (h : Heap) : Heap :=
  if h.freep = NULL then { (h.setPtr base base).setSize base 0 with freep := base } else h

def malloc (base fuel : Nat) (h : Heap) (nbytes : Nat) : Option (Nat × Heap) :=
  let h := initBase base h
  search sbrk (unitsFor nbytes) fuel h h.freep (h.mem h.freep).ptr

end

end X86Kernel.Libc
