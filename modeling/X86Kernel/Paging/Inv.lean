import X86Kernel.Lib.RefCount
import X86Kernel.Paging.Phys

/-!
What physical memory looks like between two kernel operations: every frame has
one role, the tables of an address space form a tree, and the count of a user
page is the number of its page table entries.

An address space is named by the frame of its PML4. Its tables are named by
level and key: the table at level `l` with key `k` covers the pages `n` with
`n / 512 ^ (l + 1) = k`. The view of the tables that the invariant is about is
kept in a `Ghost`; it is not part of the machine.
-/

namespace X86Kernel.Paging

open Lib

def capacity : Nat := 75000

/-- The number of user tables at a level: PML4 entry 511 is the kernel's. -/
def keys : Nat → Nat
  | 0 => 511 * 512 * 512
  | 1 => 511 * 512
  | 2 => 511
  | 3 => 1
  | _ => 0

/-- The user pages, below PML4 entry 511. -/
def userPages : Nat := 511 * 512 * 512 * 512

inductive Role where
  | free
  /-- held by the kernel since boot -/
  | kernel
  /-- a user page, or a frame in the kernel's hands -/
  | data
  | table (p level key : Nat)
  /-- a node of the area list of the process with PML4 `p` -/
  | vma (p : Nat)
  deriving DecidableEq

structure Pte where
  frame : Nat
  own : Bool
  deriving DecidableEq

/-- Entries are written with flags 7; a shared one has lost its write bit and
carries bit 9. -/
def Pte.word (e : Pte) : Word := entry (e.frame * 4096) (if e.own then 7 else 0x205)

def leafWord : Option Pte → Word
  | none => 0
  | some e => e.word

def tableWord : Option Nat → Word
  | none => 0
  | some f => entry (f * 4096) 7

/-- The reading of memory that the invariant is about: the role of every
frame, the tables and the pages of every address space, and how many
references to a frame the kernel holds outside of page tables. -/
structure Ghost where
  role : Nat → Role
  tab : Nat × Nat × Nat → Option Nat
  leaf : Nat × Nat → Option Pte
  held : Nat → Nat

def Ghost.mapped (G : Ghost) (x : Nat × Nat) : Option Nat := (G.leaf x).map Pte.frame

/-- The free list and the recorded addresses. -/
structure Pool (m : Mem) (role : Nat → Role) : Prop where
  chain : ∃ l, Chain (fun f => (m.page f).next) m.head l ∧ l.Nodup ∧
    ∀ f, f ∈ l ↔ role f = .free
  managed : ∀ f, role f ≠ .kernel → f < capacity ∧ (m.page f).address = f * 4096
  flag : ∀ f, role f ≠ .kernel → ((m.page f).free = true ↔ role f = .free)

structure Trees (word : Nat → Nat → Word) (G : Ghost) : Prop where
  role : ∀ p l k t, G.tab (p, l, k) = some t ↔ G.role t = .table p l k
  key : ∀ p l k, G.tab (p, l, k) ≠ none → k < keys l
  root : ∀ p t, G.tab (p, 3, 0) = some t → t = p
  up : ∀ p l k, G.tab (p, l, k) ≠ none → l < 3 → G.tab (p, l + 1, k / 512) ≠ none
  link : ∀ p l k t i, G.tab (p, l + 1, k) = some t → i < 512 → k * 512 + i < keys l →
    word t i = tableWord (G.tab (p, l, k * 512 + i))
  page : ∀ p k t i, G.tab (p, 0, k) = some t → i < 512 →
    word t i = leafWord (G.leaf (p, k * 512 + i))
  leaf : ∀ p n, G.leaf (p, n) ≠ none → G.tab (p, 0, n / 512) ≠ none

structure Refs (rc : Nat → Nat) (G : Ghost) : Prop where
  target : ∀ x e, G.leaf x = some e → G.role e.frame = .data
  finite : FiniteRefs G.mapped
  count : ∀ f, G.role f = .data → rc f = refCount G.mapped f + G.held f
  pos : ∀ f, G.role f = .data → 0 < rc f
  own : ∀ x e, G.leaf x = some e → e.own = true → rc e.frame = 1
  table : ∀ f p l k, G.role f = .table p l k → rc f = 1
  vma : ∀ f p, G.role f = .vma p → rc f = 1
  held : ∀ f, G.role f ≠ .data → G.held f = 0
  inj : ∀ p n n' e e', G.leaf (p, n) = some e → G.leaf (p, n') = some e' →
    e.frame = e'.frame → n = n'

def Linear (m : Mem) (role : Nat → Role) : Prop :=
  ∀ f, role f ≠ .kernel →
    let v := kernBase + f * 4096
    let e4 := m.word m.kpml4 (idx v 39)
    let e3 := m.word (frameOf e4) (idx v 30)
    let e2 := m.word (frameOf e3) (idx v 21)
    present e4 = true ∧ present e3 = true ∧ present e2 = true ∧
      role m.kpml4 = .kernel ∧ role (frameOf e4) = .kernel ∧ role (frameOf e3) = .kernel ∧
      role (frameOf e2) = .kernel ∧ m.word (frameOf e2) (idx v 12) = entry (f * 4096) 3

structure Inv (m : Mem) (G : Ghost) : Prop where
  pool : Pool m G.role
  linear : Linear m G.role
  trees : Trees m.word G
  refs : Refs (fun f => (m.page f).refCount) G

/-- The frame at an address that is a multiple of the page size. -/
theorem frame_div (f : Nat) : f * 4096 / 4096 = f := Nat.mul_div_cancel f (by decide)

/-- The table a key belongs to. -/
theorem key_div {k i : Nat} (hi : i < 512) : (k * 512 + i) / 512 = k := by omega

theorem keys_child {l k i : Nat} (hk : k < keys (l + 1)) (hi : i < Mem.entries (l + 1)) :
    k * 512 + i < keys l := by
  unfold Mem.entries at hi
  match l with
  | 0 | 1 | 2 =>
      simp only [keys] at *
      simp at hi
      omega
  | l + 3 => simp [keys] at hk

theorem tableWord_some_frame {f : Nat} (hf : f < capacity) :
    frameOf (tableWord (some f)) = f :=
  frameOf_entry (by decide) (by simp only [capacity] at hf; omega)

theorem tableWord_some_addr {f : Nat} (hf : f < capacity) :
    addrOf (tableWord (some f)) = f * 4096 := by
  apply addrOf_entry (by decide)
  · simp only [capacity] at hf
    omega
  · exact Dvd.intro_left _ rfl

@[simp] theorem present_tableWord (o : Option Nat) : present (tableWord o) = o.isSome := by
  cases o with
  | none => decide
  | some f =>
      simp only [tableWord, present_entry, Option.isSome_some]
      decide

@[simp] theorem present_leafWord (o : Option Pte) : present (leafWord o) = o.isSome := by
  cases o with
  | none => decide
  | some e =>
      simp only [leafWord, Pte.word, present_entry, Option.isSome_some]
      cases e.own <;> decide

theorem leafWord_eq_zero {o : Option Pte} (h : leafWord o = 0) : o = none := by
  have hp := present_leafWord o
  rw [h, present_zero] at hp
  simpa using hp.symm

theorem tableWord_eq_zero {o : Option Nat} (h : tableWord o = 0) : o = none := by
  have hp := present_tableWord o
  rw [h, present_zero] at hp
  simpa using hp.symm

theorem Pte.frameOf_word {e : Pte} (hf : e.frame < capacity) : frameOf e.word = e.frame := by
  unfold Pte.word
  apply frameOf_entry
  · cases e.own <;> decide
  · simp only [capacity] at hf
    omega

theorem Pte.addrOf_word {e : Pte} (hf : e.frame < capacity) :
    addrOf e.word = e.frame * 4096 := by
  unfold Pte.word
  apply addrOf_entry
  · cases e.own <;> decide
  · simp only [capacity] at hf
    omega
  · exact Dvd.intro_left _ rfl

@[simp] theorem Pte.writable_word (e : Pte) : writable e.word = e.own := by
  unfold Pte.word
  rw [writable_entry]
  cases e.own <;> decide

@[simp] theorem Pte.cow_word (e : Pte) : cow e.word = !e.own := by
  unfold Pte.word
  rw [cow_entry]
  cases e.own <;> decide

def Pte.share (e : Pte) : Pte := { e with own := false }

theorem Pte.share_word (e : Pte) : shareEntry e.word = e.share.word := by
  unfold Pte.word Pte.share
  rw [shareEntry_entry]
  cases e.own <;> rfl

theorem Pte.own_word {e : Pte} (h : e.own = false) :
    ownEntry e.word = ({ e with own := true } : Pte).word := by
  unfold Pte.word
  rw [ownEntry_entry, h]
  rfl

end X86Kernel.Paging
