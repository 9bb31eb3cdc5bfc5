import X86Kernel.Lib.Bytes
import Mathlib.Logic.Function.Basic

/-!
`strcpy` of the C library (`string.c`), into an array whose size is known. `none` is
a store behind the array's end.
-/

namespace X86Kernel.Libc

open Lib

/-- `strcpy(&row[k], s)`, where `row` has `size` bytes. -/
def strcpy (size : Nat) : (Nat → UInt8) → Nat → List UInt8 → Option (Nat → UInt8)
  | row, k, [] => if k < size then some (Function.update row k 0) else none
  | row, k, c :: s =>
      if k < size then strcpy size (Function.update row k c) (k + 1) s else none

/-- A string that fits is copied, and nothing beside it changes. -/
theorem strcpy_spec {size k : Nat} {s : List UInt8} (row : Nat → UInt8)
    (hfits : k + s.length < size) :
    ∃ row', strcpy size row k s = some row' ∧ Holds row' k (s ++ [0]) ∧
      ∀ v, v < k ∨ k + s.length < v → row' v = row v := by
  induction s generalizing row k with
  | nil =>
      refine ⟨Function.update row k 0, if_pos hfits, ?_, fun v hv => ?_⟩
      · exact holds_cons.mpr ⟨Function.update_self .., Holds.nil⟩
      · exact Function.update_of_ne (by simp only [List.length_nil] at hv; omega) _ _
  | cons c s ih =>
      simp only [List.length_cons] at hfits ⊢
      obtain ⟨row', hcopy, hholds, hrest⟩ := ih (k := k + 1) (Function.update row k c) (by omega)
      refine ⟨row', by rw [strcpy, if_pos (by omega), hcopy], ?_, fun v hv => ?_⟩
      · refine holds_cons.mpr ⟨?_, hholds⟩
        rw [hrest k (by omega), Function.update_self]
      · rw [hrest v (by omega), Function.update_of_ne (by omega)]

end X86Kernel.Libc
