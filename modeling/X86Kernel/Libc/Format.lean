import X86Kernel.Dev.Print
import X86Kernel.Lib.Bytes
import Mathlib.Data.List.TakeWhile

/-!
Numbers in `printf` of the C library (`printf.c`), beside those of the kernel.
`print_int` fills its buffer from the last digit to the first and takes each digit
from the array `nums`, with the index that `%` gives it; `print_pointer` stops after
the loop that makes the digits, when the last one is still the first.
-/

namespace X86Kernel.Libc

open Lib

def puts (s : List UInt8) : List UInt8 := s.takeWhile (· ≠ 0)

/-- `nums[k]`; in front of the array is something else of the stack. -/
def nums (below : Int → UInt8) (k : Int) : UInt8 :=
  if 0 ≤ k then UInt8.ofInt (48 + k) else below k

def countLoop : Nat → Int → Option Nat
  | 0, _ => none
  | n + 1, temp =>
      let temp := temp.tdiv 10
      if temp = 0 then some 1 else (countLoop n temp).map (· + 1)

def fillLoop (below : Int → UInt8) : Nat → Int → (Nat → UInt8) → Option (Nat → UInt8)
  | 0, _, _ => none
  | p + 1, num, buf =>
      let buf := Function.update buf p (nums below (num.tmod 10))
      let num := num.tdiv 10
      if num = 0 then some buf else fillLoop below p num buf

/-- `print_int`, with what its stack held. -/
def printInt (below : Int → UInt8) (buf : Nat → UInt8) (num : Int) : Option (List UInt8) := do
  let p ← countLoop 99 num
  let buf ← fillLoop below p num (Function.update buf p 0)
  some (strAt buf 100 0)

/-- `print_pointer`. Its loop is the kernel's. -/
def printPointer (i : Nat) : Option (List UInt8) := (Dev.hexLoop 99 i).map puts

/-- `%d` of the number and `%p` of the pointer are the same characters in both. -/
def Agree (below : Int → UInt8) (buf : Nat → UInt8) (d : Int) (p : Nat) : Prop :=
  printInt below buf d = some (Dev.printInt d) ∧
    ∃ out, printPointer p = some out ∧ Dev.printPointer p = some out

section Pointers

variable {n p : Nat}

def hexVal (c : UInt8) : Nat := if c < 65 then c.toNat - 48 else c.toNat - 55

theorem hexVal_hexChar : ∀ d < 16, hexVal (Dev.hexChar (d : Nat)) = d := by decide

theorem hexChar_ne_zero : ∀ d < 16, Dev.hexChar (d : Nat) ≠ 0 := by decide

/-- The loop makes the digits in base 16, the last one first. -/
theorem hexLoop_digits (hp : p < 16 ^ n) :
    Dev.hexLoop n p = some ((Nat.digits 16 p).map fun d : Nat => Dev.hexChar d) := by
  induction n generalizing p with
  | zero =>
      obtain rfl : p = 0 := by simpa using hp
      rw [Dev.hexLoop, if_pos Nat.cast_zero, Nat.digits_zero, List.map_nil]
  | succ n ih =>
      rw [Dev.hexLoop]
      by_cases hzero : p = 0
      · rw [if_pos (by exact_mod_cast hzero), hzero, Nat.digits_zero, List.map_nil]
      · have hdiv : (p : Int).tdiv 16 = (p / 16 : Nat) := rfl
        have hmod : (p : Int).tmod 16 = (p % 16 : Nat) := rfl
        rw [if_neg (by exact_mod_cast hzero), hdiv, hmod,
          ih (Nat.div_lt_of_lt_mul (by rwa [← Nat.pow_succ'])), Option.map_some,
          Nat.digits_def' (by decide) (Nat.pos_of_ne_zero hzero), List.map_cons]

theorem printPointer_eq (hp : p < 2 ^ 64) :
    printPointer p = some ((Nat.digits 16 p).map fun d : Nat => Dev.hexChar d) := by
  have hroom : p < 16 ^ 99 := hp.trans (by norm_num)
  rw [printPointer, hexLoop_digits hroom, Option.map_some, puts, List.takeWhile_eq_self_iff.mpr]
  intro c hc
  obtain ⟨d, hd, rfl⟩ := List.mem_map.mp hc
  simpa using hexChar_ne_zero d (Nat.digits_lt_base (by decide) hd)

theorem kernel_printPointer_eq (hp : p < 2 ^ 64) :
    Dev.printPointer p = some ((Nat.digits 16 p).map fun d : Nat => Dev.hexChar d).reverse := by
  have hroom : p < 16 ^ 32 := hp.trans (by norm_num)
  rw [Dev.printPointer, hexLoop_digits hroom, Option.map_some]

/-- The order of the digits does not matter when they are the same from both ends. -/
theorem pointers_agree_iff (hp : p < 2 ^ 64) :
    (∃ out, printPointer p = some out ∧ Dev.printPointer p = some out) ↔
      (Nat.digits 16 p).reverse = Nat.digits 16 p := by
  have hback : ∀ l : List Nat, (∀ d ∈ l, d < 16) →
      (l.map fun d : Nat => Dev.hexChar d).map hexVal = l := by
    intro l hl
    rw [List.map_map]
    exact (List.map_congr_left fun d hd => hexVal_hexChar d (hl d hd)).trans l.map_id
  have hlt : ∀ d ∈ Nat.digits 16 p, d < 16 := fun d hd => Nat.digits_lt_base (by decide) hd
  rw [printPointer_eq hp, kernel_printPointer_eq hp, ← List.map_reverse]
  constructor
  · rintro ⟨out, hout, hout'⟩
    have hsame := (Option.some.inj hout').trans (Option.some.inj hout).symm
    rw [← hback (Nat.digits 16 p).reverse (by simpa using hlt), hsame, hback _ hlt]
  · intro hrev
    exact ⟨_, rfl, by rw [hrev]⟩

end Pointers

section Integers

variable {below : Int → UInt8} {σ : Int} {room n k : Nat} {buf : Nat → UInt8}

/-- A digit as `print_int` takes it out of `nums` for a number of sign `σ`. -/
def digitOf (below : Int → UInt8) (σ : Int) (d : Nat) : UInt8 := nums below (σ * d)

theorem sign_div (hσ : σ = 1 ∨ σ = -1) (n : Nat) :
    (σ * n).tdiv 10 = σ * (n / 10 : Nat) ∧ (σ * n).tmod 10 = σ * (n % 10 : Nat) ∧
      (σ * (n / 10 : Nat) = 0 ↔ n < 10) := by
  rcases hσ with rfl | rfl
  · simp only [one_mul]
    exact ⟨rfl, rfl, by omega⟩
  · simp only [neg_one_mul, Int.neg_tdiv, Int.neg_tmod]
    exact ⟨rfl, rfl, by omega⟩

structure Loops (below : Int → UInt8) (σ : Int) (room n : Nat) (ds : List Nat) : Prop where
  numeral : IsNumeral 10 ds n
  count : countLoop room (σ * n) = some ds.length
  fill : ∀ buf, ∃ buf', fillLoop below ds.length (σ * n) buf = some buf' ∧
    Holds buf' 0 (ds.map (digitOf below σ)) ∧ ∀ v, ds.length ≤ v → buf' v = buf v

theorem Loops.single (hσ : σ = 1 ∨ σ = -1) (hn : n < 10) (hroom : 0 < room) :
    Loops below σ room n [n] := by
  obtain ⟨room, rfl⟩ : ∃ m, room = m + 1 := ⟨room - 1, by omega⟩
  obtain ⟨hdiv, hmod, hlast⟩ := sign_div hσ n
  refine ⟨IsNumeral.single hn, ?_, fun buf => ?_⟩
  · rw [countLoop, hdiv, if_pos (hlast.mpr hn), List.length_singleton]
  · refine ⟨Function.update buf 0 (digitOf below σ n), ?_, ?_, fun v hv => ?_⟩
    · simp only [List.length_singleton, fillLoop, hdiv, if_pos (hlast.mpr hn), hmod,
        Nat.mod_eq_of_lt hn, digitOf]
    · exact holds_cons.mpr ⟨Function.update_self .., Holds.nil⟩
    · exact Function.update_of_ne (by simp only [List.length_singleton] at hv; omega) _ _

theorem Loops.snoc {ds : List Nat} (hσ : σ = 1 ∨ σ = -1) (hn : 10 ≤ n)
    (h : Loops below σ room (n / 10) ds) : Loops below σ (room + 1) n (ds ++ [n % 10]) := by
  obtain ⟨hdiv, hmod, hlast⟩ := sign_div hσ n
  have hmore : ¬ σ * (n / 10 : Nat) = 0 := fun hzero => absurd (hlast.mp hzero) (by omega)
  refine ⟨h.numeral.snoc (by decide) hn, ?_, fun buf => ?_⟩
  · rw [countLoop, hdiv, if_neg hmore, h.count, List.length_append, List.length_singleton,
      Option.map_some]
  · obtain ⟨buf', hfill, hholds, hrest⟩ :=
      h.fill (Function.update buf ds.length (digitOf below σ (n % 10)))
    rw [List.length_append, List.length_singleton]
    refine ⟨buf', ?_, ?_, fun v hv => ?_⟩
    · simp only [fillLoop, hdiv, if_neg hmore, hmod]
      exact hfill
    · rw [List.map_append, holds_append, List.length_map, Nat.zero_add]
      refine ⟨hholds, holds_cons.mpr ⟨?_, Holds.nil⟩⟩
      rw [hrest _ (Nat.le_refl _), Function.update_self]
    · rw [hrest v (by omega), Function.update_of_ne (by omega)]

/-- There are no more digits than the buffer has room for. -/
theorem exists_loops (hσ : σ = 1 ∨ σ = -1) (hn : n < 10 ^ (k + 1)) (hroom : k < room) :
    ∃ ds, Loops below σ room n ds ∧ ds.length ≤ k + 1 := by
  induction k generalizing n room with
  | zero => exact ⟨[n], .single hσ (by simpa using hn) hroom, by simp⟩
  | succ k ih =>
      by_cases hlast : n < 10
      · exact ⟨[n], .single hσ hlast (by omega), by simp⟩
      · obtain ⟨room, rfl⟩ : ∃ m, room = m + 1 := ⟨room - 1, by omega⟩
        have hless : n / 10 < 10 ^ (k + 1) := Nat.div_lt_of_lt_mul (by rwa [← Nat.pow_succ'])
        obtain ⟨ds, hds, hlen⟩ : ∃ ds, Loops below σ room (n / 10) ds ∧ ds.length ≤ k + 1 :=
          ih hless (by omega)
        exact ⟨_, hds.snoc hσ (by omega), by simpa using hlen⟩

/-- The digits of a number that is not negative are those of its numeral. -/
theorem printInt_nonneg (hn : n < 10 ^ 10) :
    ∃ ds, IsNumeral 10 ds n ∧ printInt below buf n = some (ds.map Dev.digitChar) := by
  obtain ⟨ds, hds, hlen⟩ := @exists_loops below 1 99 n 9 (.inl rfl) hn (by decide)
  have hcount := hds.count
  obtain ⟨buf', hfill, hholds, hrest⟩ := hds.fill (Function.update buf ds.length 0)
  rw [one_mul] at hcount hfill
  have hchar : ds.map (digitOf below 1) = ds.map Dev.digitChar := by
    have hdigit : ∀ d < 10, UInt8.ofInt (48 + ((d : Nat) : Int)) = Dev.digitChar d := by decide
    refine List.map_congr_left fun d hd => ?_
    rw [digitOf, one_mul, nums, if_pos (Int.natCast_nonneg d), hdigit d (hds.numeral.digit d hd)]
  have hnul : (0 : UInt8) ∉ ds.map Dev.digitChar := by
    have hdigit : ∀ d < 10, Dev.digitChar d ≠ 0 := by decide
    intro hmem
    obtain ⟨d, hd, hzero⟩ := List.mem_map.mp hmem
    exact hdigit d (hds.numeral.digit d hd) hzero
  have hstring : Holds buf' 0 (ds.map Dev.digitChar ++ [0]) := by
    refine holds_append.mpr ⟨hchar ▸ hholds, holds_cons.mpr ⟨?_, Holds.nil⟩⟩
    rw [List.length_map, Nat.zero_add, hrest _ (Nat.le_refl _), Function.update_self]
  refine ⟨ds, hds.numeral, ?_⟩
  rw [printInt, hcount]
  simp only [Option.bind_eq_bind, Option.bind_some, hfill]
  rw [hstring.strAt hnul (by rw [List.length_map]; omega)]

/-- The digits of a negative number come from in front of `nums`, and there is no
sign: fewer characters than the kernel prints. -/
theorem printInt_neg (hn : n < 10 ^ 10) :
    ∃ ds out, IsNumeral 10 ds n ∧ printInt below buf (-n) = some out ∧
      out.length ≤ ds.length ∧ ds.length ≤ 10 := by
  obtain ⟨ds, hds, hlen⟩ := @exists_loops below (-1) 99 n 9 (.inr rfl) hn (by decide)
  have hcount := hds.count
  obtain ⟨buf', hfill, -, hrest⟩ := hds.fill (Function.update buf ds.length 0)
  rw [neg_one_mul] at hcount hfill
  refine ⟨ds, strAt buf' 100 0, hds.numeral, ?_, strAt_length_le ?_, hlen⟩
  · rw [printInt, hcount]
    simp only [Option.bind_eq_bind, Option.bind_some, hfill]
  · rw [Nat.zero_add, hrest _ (Nat.le_refl _), Function.update_self]

/-- The integers that both print the same are those that are not negative. -/
theorem integers_agree_iff {d : Int} (hlo : -2 ^ 31 ≤ d) (hhi : d < 2 ^ 31) :
    printInt below buf d = some (Dev.printInt d) ↔ 0 ≤ d := by
  constructor
  · intro hsame
    by_contra hneg
    obtain ⟨n, rfl⟩ : ∃ n : Nat, d = -n := ⟨d.natAbs, by omega⟩
    obtain ⟨ds, out, hds, hout, hle, hlen⟩ := @printInt_neg below n buf (by omega)
    obtain rfl : out = Dev.printInt (-n) := Option.some.inj (hout.symm.trans hsame)
    by_cases hmin : n = 2 ^ 31
    · subst hmin
      have hkernel : (Dev.printInt (-(2 ^ 31 : Nat))).length = 11 := by decide
      omega
    · obtain ⟨ds', hds', hkernel⟩ := Dev.printInt_decimal (i := -n) (by omega) hhi
      rw [Int.natAbs_neg, Int.natAbs_natCast] at hds'
      rw [hkernel, if_pos (by omega), hds'.unique hds (by decide), List.length_append,
        List.length_map, List.length_singleton] at hle
      omega
  · intro hpos
    obtain ⟨n, rfl⟩ := Int.eq_ofNat_of_zero_le hpos
    obtain ⟨ds, hds, hout⟩ := @printInt_nonneg below n buf (by omega)
    obtain ⟨ds', hds', hkernel⟩ := Dev.printInt_decimal (i := n) (by omega) hhi
    rw [Int.natAbs_natCast] at hds'
    rw [hout, hkernel, if_neg (by omega), hds.unique hds' (by decide), List.nil_append]

/-- The two `print_int` and the two `print_pointer` print the same for an integer that
is not negative and a pointer whose digits can be read from both ends. -/
theorem format_agree_iff {d : Int} (hlo : -2 ^ 31 ≤ d) (hhi : d < 2 ^ 31) {p : Nat}
    (hp : p < 2 ^ 64) :
    Agree below buf d p ↔ 0 ≤ d ∧ (Nat.digits 16 p).reverse = Nat.digits 16 p :=
  and_congr (integers_agree_iff hlo hhi) (pointers_agree_iff hp)

end Integers

/-- The integer 105 and the pointer `0xABA`. -/
theorem format_agree_example : Agree (fun _ => 0) (fun _ => 0) 105 0xABA ↔
    (0 : Int) ≤ 105 ∧ (Nat.digits 16 0xABA).reverse = Nat.digits 16 0xABA :=
  format_agree_iff (by decide) (by decide) (by decide)

/-- `0x10` is printed as `01` by the library. -/
theorem format_not_agree :
    ¬ ∀ (below : Int → UInt8) (buf : Nat → UInt8) (d : Int) (p : Nat), -2 ^ 31 ≤ d →
      d < 2 ^ 31 → p < 2 ^ 64 → Agree below buf d p := by
  intro h
  obtain ⟨-, out, hout, hout'⟩ := h (fun _ => 0) (fun _ => 0) 0 0x10 (by decide) (by decide)
    (by decide)
  have hlib : printPointer 0x10 = some [48, 49] := by decide
  have hkernel : Dev.printPointer 0x10 = some [49, 48] := by decide
  rw [hlib] at hout
  rw [hkernel] at hout'
  exact absurd (hout.trans hout'.symm) (by decide)

end X86Kernel.Libc
