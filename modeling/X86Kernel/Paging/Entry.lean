import Mathlib.Tactic

/-!
The 64-bit words of memory, as page table entries and as eight bytes. An entry
holds the physical address of a frame and flag bits. Physical addresses are
natural numbers; a frame is numbered by its address over 4096.
-/

namespace X86Kernel.Paging

abbrev Word := BitVec 64
abbrev Byte := BitVec 8

/-- `0xFFFFFFFFFFFFF000`, which keeps the address of an entry. -/
def pageMask : Word := 0xFFFFFFFFFFFFF000

def present (e : Word) : Bool := e &&& 1 ≠ 0

def writable (e : Word) : Bool := e &&& 2 ≠ 0

/-- `e & 0x200`: the page is shared copy-on-write. -/
def cow (e : Word) : Bool := e &&& 0x200 ≠ 0

def entry (a : Nat) (flags : Word) : Word := (BitVec.ofNat 64 a &&& pageMask) ||| flags

def addrOf (e : Word) : Nat := (e &&& pageMask).toNat

def frameOf (e : Word) : Nat := addrOf e / 4096

/-- `(e & 0xFFFFFFFFFFFFFFFD) | 0x200`: what `copytables` makes of an entry. -/
def shareEntry (e : Word) : Word := (e &&& 0xFFFFFFFFFFFFFFFD) ||| 0x200

/-- `(e | 2) & 0xFFFFFFFFFFFFFDFF`: what `isr14` makes of the last sharer's. -/
def ownEntry (e : Word) : Word := (e ||| 2) &&& 0xFFFFFFFFFFFFFDFF

@[simp] theorem present_zero : present 0 = false := by decide

/-- Tests on bits below the address see the flags only. -/
theorem entry_and_of_mask {c : Word} (hc : pageMask &&& c = 0) (a : Nat) (flags : Word) :
    entry a flags &&& c = flags &&& c := by
  unfold entry
  rw [BitVec.and_or_distrib_right, BitVec.and_assoc, hc]
  simp

@[simp] theorem present_entry (a : Nat) (flags : Word) :
    present (entry a flags) = present flags := by
  unfold present
  rw [entry_and_of_mask (by decide)]

@[simp] theorem writable_entry (a : Nat) (flags : Word) :
    writable (entry a flags) = writable flags := by
  unfold writable
  rw [entry_and_of_mask (by decide)]

@[simp] theorem cow_entry (a : Nat) (flags : Word) :
    cow (entry a flags) = cow flags := by
  unfold cow
  rw [entry_and_of_mask (by decide)]

theorem shareEntry_entry (a : Nat) (flags : Word) :
    shareEntry (entry a flags) = entry a (shareEntry flags) := by
  have hmask : pageMask &&& 0xFFFFFFFFFFFFFFFD = pageMask := by decide
  unfold shareEntry entry
  rw [BitVec.and_or_distrib_right, BitVec.and_assoc, hmask, BitVec.or_assoc]

theorem ownEntry_entry (a : Nat) (flags : Word) :
    ownEntry (entry a flags) = entry a (ownEntry flags) := by
  have hmask : pageMask &&& 0xFFFFFFFFFFFFFDFF = pageMask := by decide
  unfold ownEntry entry
  rw [BitVec.or_assoc, BitVec.and_or_distrib_right, BitVec.and_assoc, hmask]

/-- The mask clears the offset inside the page. -/
theorem toNat_and_pageMask (w : Word) : (w &&& pageMask).toNat = w.toNat / 4096 * 4096 := by
  have hmask : ∀ j : Fin 64, pageMask.getLsbD j = decide (12 ≤ j.val) := by decide
  apply Nat.eq_of_testBit_eq
  intro i
  have h4096 : w.toNat / 4096 * 4096 = (w.toNat >>> 12) <<< 12 := by
    rw [Nat.shiftRight_eq_div_pow, Nat.shiftLeft_eq]
  rw [h4096, Nat.testBit_shiftLeft, Nat.testBit_shiftRight]
  have hbit : (w &&& pageMask).toNat.testBit i = (w.getLsbD i && pageMask.getLsbD i) :=
    BitVec.getLsbD_and
  rw [hbit]
  by_cases hi : i < 64
  · rw [hmask ⟨i, hi⟩]
    by_cases h12 : 12 ≤ i
    · have hidx : 12 + (i - 12) = i := by omega
      simp [h12, hidx, BitVec.getLsbD]
    · simp [h12]
  · rw [BitVec.getLsbD_of_ge w i (by omega)]
    by_cases h12 : 12 ≤ i
    · have hidx : 12 + (i - 12) = i := by omega
      have hzero : w.toNat.testBit i = false := BitVec.getLsbD_of_ge w i (by omega)
      simp [h12, hidx, hzero]
    · simp [h12]

theorem addrOf_entry {a : Nat} {flags : Word} (hf : flags &&& pageMask = 0)
    (ha : a < 2 ^ 64) (h : 4096 ∣ a) : addrOf (entry a flags) = a := by
  have hidem : pageMask &&& pageMask = pageMask := by decide
  unfold addrOf entry
  rw [BitVec.and_or_distrib_right, hf, BitVec.and_assoc, hidem]
  have hzero : BitVec.ofNat 64 a &&& pageMask ||| 0 = BitVec.ofNat 64 a &&& pageMask := by simp
  rw [hzero, toNat_and_pageMask, BitVec.toNat_ofNat, Nat.mod_eq_of_lt ha]
  omega

theorem addrOf_dvd (e : Word) : 4096 ∣ addrOf e := by
  unfold addrOf
  rw [toNat_and_pageMask]
  exact Dvd.intro_left _ rfl

/-- Frames that a table entry can name. -/
theorem frameOf_entry {f : Nat} {flags : Word} (hf : flags &&& pageMask = 0)
    (hlt : f < 2 ^ 52) : frameOf (entry (f * 4096) flags) = f := by
  unfold frameOf
  rw [addrOf_entry hf (by omega) (Dvd.intro_left _ rfl)]
  omega

/-- Byte `i` of a word, the least significant first. -/
def byteAt (w : Word) (i : Nat) : Byte := w.extractLsb' (8 * i) 8

/-- The word with byte `i` replaced. -/
def setByte (w : Word) (i : Nat) (b : Byte) : Word :=
  (w &&& ~~~ ((0xFF : Word) <<< (8 * i))) ||| (b.setWidth 64 <<< (8 * i))

theorem getLsbD_byteMask (i j : Nat) (hj : j < 64) :
    ((0xFF : Word) <<< (8 * i)).getLsbD j = decide (8 * i ≤ j ∧ j < 8 * i + 8) := by
  have hff : ∀ k : Fin 64, (0xFF : Word).getLsbD k = decide (k.val < 8) := by decide
  rw [BitVec.getLsbD_shiftLeft]
  by_cases hlo : j < 8 * i
  · have hout : ¬ (8 * i ≤ j ∧ j < 8 * i + 8) := by omega
    simp [hlo]
  · rw [hff ⟨j - 8 * i, by omega⟩]
    have hiff : (j - 8 * i < 8) ↔ (8 * i ≤ j ∧ j < 8 * i + 8) := by omega
    simp only [hlo, hj, hiff, decide_true, decide_false, Bool.not_false, Bool.true_and]

theorem byteAt_setByte {i j : Nat} (hi : i < 8) (hj : j < 8) (w : Word) (b : Byte) :
    byteAt (setByte w i b) j = if j = i then b else byteAt w j := by
  apply BitVec.eq_of_getLsbD_eq
  intro k hk
  have h64 : 8 * j + k < 64 := by omega
  have hmask := getLsbD_byteMask i (8 * j + k) h64
  simp only [byteAt, setByte, BitVec.getLsbD_extractLsb', BitVec.getLsbD_or,
    BitVec.getLsbD_and, BitVec.getLsbD_not, hmask, BitVec.getLsbD_shiftLeft,
    BitVec.getLsbD_setWidth, h64, hk, decide_true, Bool.true_and]
  by_cases hji : j = i
  · subst hji
    have hsub : 8 * j + k - 8 * j = k := by omega
    simp [hsub, hk]
    intro h
    omega
  · have hout : ¬ (8 * i ≤ 8 * j + k ∧ 8 * j + k < 8 * i + 8) := by omega
    simp only [hji, hout, if_false]
    by_cases hlo : 8 * j + k < 8 * i
    · simp [hlo, hk]
    · have hb : b.getLsbD (8 * j + k - 8 * i) = false :=
        BitVec.getLsbD_of_ge b _ (by omega)
      simp [hlo, hb, hk]

end X86Kernel.Paging
