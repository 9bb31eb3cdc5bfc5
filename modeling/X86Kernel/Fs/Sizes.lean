import Mathlib.Data.Int.ModEq
import Mathlib.Data.Nat.Digits.Defs
import Mathlib.Tactic.LinearCombination
import X86Kernel.Fs.Ustar

/-!
The two decoders of the size field: `getsize`, which `init_tarfs` uses, and
`octal_to_binary`, whose result becomes the size of an open file. The second
reads the digits as a decimal number, and then puts a group of three decimal
digits in place of every digit, from a table in which the last two entries are
wrong.

Both are sums over the digits, so that they can be compared digit by digit
modulo powers of 8, from the lowest digit on: a difference at one digit can only
be made up for by a carry into the next.
-/

namespace X86Kernel.Fs

open Lib

def digitsOf (field : List UInt8) : List Nat := (field.map fun c => c.toNat - 48).reverse

def IsOctal (field : List UInt8) : Prop :=
  field.length = 11 ∧ ∀ c ∈ field, 48 ≤ c.toNat ∧ c.toNat ≤ 55

def sizeValue (field : List UInt8) : Nat := Nat.ofDigits 8 (digitsOf field)

section Digits

theorem digitsOf_concat (field : List UInt8) (c : UInt8) :
    digitsOf (field ++ [c]) = (c.toNat - 48) :: digitsOf field := by
  simp [digitsOf]

theorem octalValue_congr {inp inp' : Nat → UInt8} {j : Nat} (h : ∀ i < j, inp i = inp' i) :
    octalValue inp j = octalValue inp' j := by
  induction j with
  | zero => rfl
  | succ j ih => rw [octalValue, octalValue, h j (by omega), ih (fun i hi => h i (by omega))]

theorem octalValue_eq (field : List UInt8) :
    octalValue (fun i => field.getD i 0) field.length = sizeValue field := by
  induction field using List.reverseRecOn with
  | nil => rfl
  | append_singleton field c ih =>
      have hbefore : octalValue (fun i => (field ++ [c]).getD i 0) field.length =
          octalValue (fun i => field.getD i 0) field.length := by
        apply octalValue_congr
        intro i hi
        simp [List.getElem?_append_left hi]
      have hlast : (field ++ [c]).getD field.length 0 = c := by simp
      have hvalue : sizeValue (field ++ [c]) = c.toNat - 48 + 8 * sizeValue field := by
        unfold sizeValue
        rw [digitsOf_concat, Nat.ofDigits_cons]
      rw [List.length_append, List.length_singleton, octalValue, hbefore, ih, hlast, hvalue]
      omega

/-- `getsize` is the number, as far as an `unsigned int` goes. -/
theorem getsize_eq {field : List UInt8} (h : IsOctal field) :
    getsize (fun i => field.getD i 0) = BitVec.ofNat 32 (sizeValue field) := by
  have hdigits : ∀ i < 11, 48 ≤ (field.getD i 0).toNat ∧ (field.getD i 0).toNat ≤ 55 := by
    intro i hi
    have hlt : i < field.length := by rw [h.1]; exact hi
    have hget : field.getD i 0 = field[i] := by simp [hlt]
    rw [hget]
    exact h.2 _ (List.getElem_mem hlt)
  have hloop := getsizeLoop_eq hdigits 0 1
  have hvalue := octalValue_eq field
  rw [h.1] at hvalue
  rw [hvalue] at hloop
  simpa [getsize] using hloop

theorem int32_modEq (x : Int) : int32 x ≡ x [ZMOD 2 ^ 32] := by
  unfold int32
  rw [BitVec.toInt_ofInt]
  exact Int.bmod_emod

theorem int32_eq_self {x : Int} (hlo : -2 ^ 31 ≤ x) (hhi : x < 2 ^ 31) : int32 x = x := by
  unfold int32
  rw [BitVec.toInt_ofInt, Int.bmod_eq_of_le] <;> omega

theorem int32_congr {x y : Int} (h : x ≡ y [ZMOD 2 ^ 32]) : int32 x = int32 y := by
  unfold int32
  rw [BitVec.toInt_ofInt, BitVec.toInt_ofInt, ← Int.emod_bmod, ← Int.emod_bmod y]
  exact congrArg (fun z => Int.bmod z _) h

/-- The first loop of `octal_to_binary` reads the digits as a decimal number. -/
theorem decimal_eq {field : List UInt8} (h : ∀ c ∈ field, 48 ≤ c.toNat ∧ c.toNat ≤ 55) :
    field.foldl (fun oct c => int32 (digit c + int32 (oct * 10))) 0 =
      int32 (Nat.ofDigits 10 (digitsOf field) : Nat) := by
  induction field using List.reverseRecOn with
  | nil => rfl
  | append_singleton field c ih =>
      obtain ⟨hlo, hhi⟩ := h c (by simp)
      rw [List.foldl_append, List.foldl_cons, List.foldl_nil,
        ih (fun c' hc' => h c' (by simp [hc'])), digit_eq hlo hhi, digitsOf_concat,
        Nat.ofDigits_cons]
      apply int32_congr
      push_cast
      refine Int.ModEq.add_left _ ((int32_modEq _).trans ?_)
      rw [mul_comm (10 : Int)]
      exact (int32_modEq _).mul_right 10

/-- The sum that the second loop makes of a number with `n` decimal digits. -/
def tableSum : Nat → Nat → Int
  | 0, _ => 0
  | n + 1, o => octalDict.getD (o % 10) 0 + 1000 * tableSum n (o / 10)

theorem tableSum_zero (n : Nat) : tableSum n 0 = 0 := by
  induction n with
  | zero => rfl
  | succ n ih => simp [tableSum, ih, octalDict]

theorem dictAt_zeros (n : Nat) (k : Int) : dictAt zeros n k = octalDict.getD k.toNat 0 := by
  unfold dictAt zeros
  split_ifs with hk
  · rfl
  · by_cases hneg : k < 0
    · simp [octalDict, Int.toNat_of_nonpos (Int.le_of_lt hneg)]
    · rw [List.getD_eq_getElem?_getD, List.getElem?_eq_none (by simp [octalDict]; omega)]
      rfl

/-- The second loop between zeros, modulo what an `int` holds. -/
theorem binaryLoop_modEq (n o : Nat) (bin i : Int) :
    binaryLoop zeros n o bin i ≡ bin + i * tableSum n o [ZMOD 2 ^ 32] := by
  induction n generalizing o bin i with
  | zero => simp [binaryLoop, tableSum]
  | succ n ih =>
      by_cases ho : o = 0
      · subst ho
        simp [binaryLoop, tableSum_zero]
      · have hdiv : (o : Int).tdiv 10 = ((o / 10 : Nat) : Int) := rfl
        have hmod : ((o : Int).tmod 10).toNat = o % 10 := rfl
        rw [binaryLoop, if_neg (by exact_mod_cast ho), dictAt_zeros, hdiv, hmod]
        refine (ih _ _ _).trans ?_
        rw [tableSum]
        generalize octalDict.getD (o % 10) 0 = d at *
        have hbin : (bin + int32 (d * i)) % 2 ^ 64 ≡ bin + d * i [ZMOD 2 ^ 32] := by
          have hmod64 : (bin + int32 (d * i)) % 2 ^ 64 ≡ bin + int32 (d * i) [ZMOD 2 ^ 32] :=
            (Int.mod_modEq _ _).of_dvd (by norm_num)
          exact hmod64.trans ((int32_modEq _).add_left bin)
        have hsum := hbin.add ((int32_modEq (i * 1000)).mul_right (tableSum n (o / 10)))
        rwa [show bin + d * i + i * 1000 * tableSum n (o / 10) =
          bin + i * (d + 1000 * tableSum n (o / 10)) by ring] at hsum

/-- Of a negative number nothing is left. -/
theorem binaryLoop_neg (n o : Nat) (i : Int) : binaryLoop zeros n (-o) 0 i = 0 := by
  induction n generalizing o i with
  | zero => rfl
  | succ n ih =>
      have hdiv : (-(o : Int)).tdiv 10 = -((o / 10 : Nat) : Int) := by
        rw [Int.neg_tdiv]
        rfl
      have hmod : ((-(o : Int)).tmod 10).toNat = 0 := by
        rw [Int.neg_tmod]
        exact Int.toNat_of_nonpos (by have := Int.tmod_nonneg 10 (Int.natCast_nonneg o); omega)
      rw [binaryLoop, dictAt_zeros, hdiv, hmod]
      split_ifs with hzero
      · rfl
      · have hzero' : (0 + int32 (octalDict.getD 0 0 * i)) % 2 ^ 64 = 0 := by
          simp [octalDict, int32]
        rw [hzero']
        exact ih (o / 10) _

end Digits

section Search

/-- The beginnings of `n` digits that can stand in a field on which the two
decoders agree: `w` is the weight of the next digit in the second, `c` the carry
from the digits before, and `d` by how much the number it works on is less than
the decimal number of the field, after as many digits. -/
def candidates : Nat → Int → Int → Int → List (List Nat)
  | 0, _, _, _ => [[]]
  | n + 1, w, c, d => (List.range 8).flatMap fun e : Nat =>
      let t := ((e : Int) - d) % 10
      let s := c + w * octalDict.getD t.toNat 0 - e
      if s % 8 = 0 then (candidates n (w * 125) (s / 8) ((d - e + t) / 10)).map (e :: ·) else []

/-- Every field on which they agree begins with a candidate. -/
theorem take_mem_candidates {n o : Nat} {es : List Nat} {w c d : Int} (hes : ∀ e ∈ es, e < 8)
    (hlen : n ≤ es.length) (hd : ((Nat.ofDigits 10 es : Nat) : Int) - o = d)
    (hagree : (8 : Int) ^ n ∣ c + w * tableSum n o - ((Nat.ofDigits 8 es : Nat) : Int)) :
    es.take n ∈ candidates n w c d := by
  induction n generalizing o es w c d with
  | zero => simp [candidates]
  | succ n ih =>
      obtain ⟨e, es, rfl⟩ : ∃ e es', es = e :: es' := by
        cases es with
        | nil => simp at hlen
        | cons e es => exact ⟨e, es, rfl⟩
      have he := hes e (by simp)
      rw [Nat.ofDigits_cons, Nat.cast_add, Nat.cast_mul] at hd hagree
      -- the next digit of the number, and what it leaves for the rest
      have ht : ((e : Int) - d) % 10 = (o % 10 : Nat) := by omega
      have hrest : ((Nat.ofDigits 10 es : Nat) : Int) - (o / 10 : Nat) =
          (d - e + (o % 10 : Nat)) / 10 := by
        omega
      rw [tableSum] at hagree
      generalize htab : octalDict.getD (o % 10) 0 = x at hagree
      obtain ⟨q, hq⟩ := hagree
      have hsum : c + w * x - e = 8 * (8 ^ n * q - (w * 125 * tableSum n (o / 10) -
          (Nat.ofDigits 8 es : Nat))) := by
        rw [pow_succ, Nat.cast_ofNat] at hq
        linear_combination hq
      have hcarry : (c + w * x - e) / 8 = 8 ^ n * q - (w * 125 * tableSum n (o / 10) -
          (Nat.ofDigits 8 es : Nat)) := by
        rw [hsum, Int.mul_ediv_cancel_left _ (by norm_num)]
      have htail := ih (w := w * 125) (c := (c + w * x - e) / 8)
        (fun e' he' => hes e' (by simp [he'])) (by simpa using hlen) hrest
        ⟨q, by rw [hcarry]; ring⟩
      simp only [candidates, List.take_succ_cons, List.mem_flatMap, List.mem_range]
      refine ⟨e, he, ?_⟩
      rw [ht, Int.toNat_natCast, htab, if_pos (by rw [hsum]; simp)]
      exact List.mem_map_of_mem htail

/-- What `octal_to_binary` makes of digits, the lowest first, between zeros. -/
def binaryOf (es : List Nat) : Nat :=
  (binaryLoop zeros 10 (int32 (Nat.ofDigits 10 es : Nat)) 0 1).toNat

/-- The sizes that `octal_to_binary` gets right. -/
def RightSize (v : Nat) : Prop := v = 0 ∨ v = 1 ∨ v = 2 ^ 28 ∨ v = 2 ^ 28 + 1

instance (v : Nat) : Decidable (RightSize v) := inferInstanceAs (Decidable (_ ∨ _))

/-- There are few candidates, and they can be tried. -/
theorem candidates_right : ∀ j ∈ List.range 5, ∀ l ∈ candidates 10 1 0 (2 ^ 32 * (j : Int)),
    ∀ e ∈ List.range 2, binaryOf (l ++ [e]) = Nat.ofDigits 8 (l ++ [e]) →
      RightSize (Nat.ofDigits 8 (l ++ [e])) := by
  decide +kernel

theorem binaryLoop_nonneg {around : Around} (n : Nat) {oct bin i : Int} (h : 0 ≤ bin) :
    0 ≤ binaryLoop around n oct bin i := by
  induction n generalizing oct bin i with
  | zero => exact h
  | succ n ih =>
      rw [binaryLoop]
      split_ifs
      · exact h
      · exact ih (Int.emod_nonneg _ (by norm_num))

/-- Eleven digits with a value below `2 ^ 31`. -/
theorem split_top {es : List Nat} (hlen : es.length = 11) (hes : ∀ e ∈ es, e < 8)
    (hval : Nat.ofDigits 8 es < 2 ^ 31) :
    ∃ e, es = es.take 10 ++ [e] ∧ e < 2 ∧ Nat.ofDigits 10 es < 5 * 2 ^ 32 := by
  have hsplit : es = es.take 10 ++ [es[10]] := by
    conv_lhs => rw [← List.take_append_drop 10 es]
    rw [List.drop_eq_getElem_cons (by omega), List.drop_of_length_le (by omega)]
  have htake : (es.take 10).length = 10 := by
    rw [List.length_take]
    omega
  have htop : es[10] < 2 := by
    rw [hsplit, Nat.ofDigits_append, htake, Nat.ofDigits_singleton] at hval
    omega
  refine ⟨es[10], hsplit, htop, ?_⟩
  have hlow : Nat.ofDigits 10 (es.take 10) < 10 ^ (es.take 10).length :=
    Nat.ofDigits_lt_base_pow_length (by norm_num) (fun e he => by
      have := hes e (List.mem_of_mem_take he)
      omega)
  rw [htake] at hlow
  rw [hsplit, Nat.ofDigits_append, htake, Nat.ofDigits_singleton]
  omega

/-- Where `octal_to_binary` is right, the size is one of the four. -/
theorem rightSize_of_binaryOf {es : List Nat} (hlen : es.length = 11) (hes : ∀ e ∈ es, e < 8)
    (hval : Nat.ofDigits 8 es < 2 ^ 31) (h : binaryOf es = Nat.ofDigits 8 es) :
    RightSize (Nat.ofDigits 8 es) := by
  obtain ⟨e, hsplit, he, hten⟩ := split_top hlen hes hval
  obtain ⟨o, ho | ho⟩ := Int.eq_nat_or_neg (int32 (Nat.ofDigits 10 es : Nat))
  · -- the number is the decimal one, less a multiple of `2 ^ 32`
    have hcongr := int32_modEq (Nat.ofDigits 10 es : Nat)
    have hbound : o < 2 ^ 31 := by
      have hlt := BitVec.toInt_lt (x := BitVec.ofInt 32 ((Nat.ofDigits 10 es : Nat) : Int))
      change int32 _ < _ at hlt
      rw [ho] at hlt
      exact_mod_cast hlt
    rw [ho] at hcongr
    obtain ⟨j, hj⟩ := hcongr.dvd
    obtain ⟨j, rfl⟩ := Int.eq_ofNat_of_zero_le (show 0 ≤ j by omega)
    have hbin : binaryLoop zeros 10 o 0 1 = (Nat.ofDigits 8 es : Nat) := by
      have hnonneg : 0 ≤ binaryLoop zeros 10 o 0 1 := binaryLoop_nonneg 10 (by norm_num)
      rw [binaryOf, ho] at h
      omega
    have hagree : (8 : Int) ^ 10 ∣ 0 + 1 * tableSum 10 o - ((Nat.ofDigits 8 es : Nat) : Int) := by
      have hmod := binaryLoop_modEq 10 o 0 1
      rw [hbin] at hmod
      exact dvd_trans (by norm_num) hmod.dvd
    have hmem := take_mem_candidates hes (by omega) hj hagree
    have hright := candidates_right j (by rw [List.mem_range]; omega) _ hmem e
      (List.mem_range.mpr he)
    rw [← hsplit] at hright
    exact hright h
  · rw [binaryOf, ho, binaryLoop_neg] at h
    rw [← h]
    decide

/-- The four sizes, each with its digits. -/
theorem digits_of_rightSize {es : List Nat} (hlen : es.length = 11) (hes : ∀ e ∈ es, e < 8)
    (h : RightSize (Nat.ofDigits 8 es)) :
    es = [0, 0, 0, 0, 0, 0, 0, 0, 0, 0, 0] ∨ es = [1, 0, 0, 0, 0, 0, 0, 0, 0, 0, 0] ∨
      es = [0, 0, 0, 0, 0, 0, 0, 0, 0, 2, 0] ∨ es = [1, 0, 0, 0, 0, 0, 0, 0, 0, 2, 0] := by
  have hunique : ∀ l : List Nat, l.length = 11 → (∀ e ∈ l, e < 8) →
      Nat.ofDigits 8 es = Nat.ofDigits 8 l → es = l := fun l hl hl8 hvalue =>
    Nat.ofDigits_inj_of_len_eq (by norm_num) (hlen.trans hl.symm) hes hl8 hvalue
  obtain h | h | h | h := h
  · exact .inl (hunique _ rfl (by decide) h)
  · exact .inr (.inl (hunique _ rfl (by decide) h))
  · exact .inr (.inr (.inl (hunique _ rfl (by decide) h)))
  · exact .inr (.inr (.inr (hunique _ rfl (by decide) h)))

theorem binaryOf_of_rightSize {es : List Nat} (hlen : es.length = 11) (hes : ∀ e ∈ es, e < 8)
    (h : RightSize (Nat.ofDigits 8 es)) : binaryOf es = Nat.ofDigits 8 es := by
  obtain rfl | rfl | rfl | rfl := digits_of_rightSize hlen hes h
  · decide
  · decide
  · decide +kernel
  · decide +kernel

end Search

section Words

/-- The number that the first loop of `octal_to_binary` leaves. -/
def decimalOf (field : List UInt8) : Int := int32 (Nat.ofDigits 10 (digitsOf field) : Nat)

/-- The second loop stays in `octal_dict`: the number has not wrapped to a negative
one, nor to one with a digit 8 or 9. -/
def DigitsInTable (field : List UInt8) : Prop :=
  0 ≤ decimalOf field ∧ ∀ d ∈ Nat.digits 10 (decimalOf field).toNat, d < 8

instance (field : List UInt8) : Decidable (DigitsInTable field) :=
  inferInstanceAs (Decidable (_ ∧ _))

/-- What the second loop adds up when it reads `word n k` at index `k`. -/
def loopSum (word : Nat → Int → Int) : Nat → Int → Int → Int
  | 0, _, _ => 0
  | n + 1, oct, i =>
      if oct = 0 then 0
      else int32 (word n (oct.tmod 10) * i) + loopSum word n (oct.tdiv 10) (int32 (i * 1000))

/-- The words that are read outside of `octal_dict`. -/
def outside (around : Around) (n : Nat) (k : Int) : Int :=
  if 0 ≤ k ∧ k < 8 then 0 else (around n k).toInt

/-- The loop leaves `octal_dict`, and the words it finds there are just what the digits
inside of it leave of the number. -/
def MadeUp (around : Around) (field : List UInt8) : Prop :=
  ¬ DigitsInTable field ∧ loopSum (outside around) 10 (decimalOf field) 1 ≡
    sizeValue field - loopSum (dictAt zeros) 10 (decimalOf field) 1 [ZMOD 2 ^ 64]

theorem binaryLoop_eq_loopSum (around : Around) (n : Nat) {oct bin i : Int} (hlo : 0 ≤ bin)
    (hhi : bin < 2 ^ 64) :
    binaryLoop around n oct bin i = (bin + loopSum (dictAt around) n oct i) % 2 ^ 64 := by
  induction n generalizing oct bin i with
  | zero => rw [binaryLoop, loopSum, Int.add_zero, Int.emod_eq_of_lt hlo hhi]
  | succ n ih =>
      rw [binaryLoop, loopSum]
      split_ifs with hzero
      · rw [Int.add_zero, Int.emod_eq_of_lt hlo hhi]
      · rw [ih (Int.emod_nonneg _ (by norm_num)) (Int.emod_lt_of_pos _ (by norm_num)),
          Int.emod_add_emod, Int.add_assoc]

/-- Every word is in the array or outside of it. -/
theorem loopSum_dictAt (around : Around) (n : Nat) (oct i : Int) :
    loopSum (dictAt around) n oct i =
      loopSum (dictAt zeros) n oct i + loopSum (outside around) n oct i := by
  induction n generalizing oct i with
  | zero => rfl
  | succ n ih =>
      rw [loopSum, loopSum, loopSum]
      split_ifs with hzero
      · rfl
      · have hword : int32 (dictAt around n (oct.tmod 10) * i) =
            int32 (dictAt zeros n (oct.tmod 10) * i) +
              int32 (outside around n (oct.tmod 10) * i) := by
          unfold dictAt outside zeros
          split_ifs <;> simp [int32]
        rw [ih, hword]
        ring

theorem loopSum_outside (around : Around) (n o : Nat) (i : Int)
    (hin : ∀ d ∈ Nat.digits 10 o, d < 8) : loopSum (outside around) n o i = 0 := by
  induction n generalizing o i with
  | zero => rfl
  | succ n ih =>
      rw [loopSum]
      split_ifs with hzero
      · rfl
      · have hpos : 0 < o := by omega
        rw [Nat.digits_def' (by norm_num) hpos] at hin
        have hdigit : (o : Int).tmod 10 = (o % 10 : Nat) := rfl
        have hrest : (o : Int).tdiv 10 = (o / 10 : Nat) := rfl
        have hlow := hin (o % 10) (by simp)
        rw [hdigit, hrest, ih (o / 10) _ fun d hd => hin d (by simp [hd]), outside,
          if_pos ⟨by omega, by omega⟩]
        simp [int32]

theorem octalToBinary_eq {field : List UInt8} (hoct : IsOctal field) (around : Around) :
    (octalToBinary around field : Int) =
      (loopSum (dictAt zeros) 10 (decimalOf field) 1 +
        loopSum (outside around) 10 (decimalOf field) 1) % 2 ^ 64 := by
  have hnonneg : 0 ≤ binaryLoop around 10 (decimalOf field) 0 1 :=
    binaryLoop_nonneg 10 (by norm_num)
  have hloop : binaryLoop around 10 (decimalOf field) 0 1 =
      (0 + loopSum (dictAt around) 10 (decimalOf field) 1) % 2 ^ 64 :=
    binaryLoop_eq_loopSum around 10 (by norm_num) (by norm_num)
  rw [Int.zero_add, loopSum_dictAt] at hloop
  rw [octalToBinary, decimal_eq hoct.2, ← hloop]
  exact Int.toNat_of_nonneg hnonneg

/-- Inside of the table it does not matter what is around. -/
theorem octalToBinary_inTable {field : List UInt8} (hoct : IsOctal field)
    (hin : DigitsInTable field) (around : Around) :
    octalToBinary around field = octalToBinary zeros field := by
  have hall : ∀ around, loopSum (outside around) 10 (decimalOf field) 1 = 0 := by
    intro around
    have hsum := loopSum_outside around 10 (decimalOf field).toNat 1 hin.2
    rwa [Int.toNat_of_nonneg hin.1] at hsum
  have hsame := (octalToBinary_eq hoct around).trans
    (by rw [hall around, ← hall zeros, ← octalToBinary_eq hoct zeros])
  exact_mod_cast hsame

end Words

/-- The size of the file an open descriptor refers to is what `octal_to_binary`
makes of the field; a read of at least that many bytes returns as many. -/
theorem readTarfs_install (A : Archive) (f : Files) (h : Header) (flags : Option Int)
    (around : Around) (count : Int) (hsize : octalToBinary around h.size < 2 ^ 31)
    (hcount : octalToBinary around h.size ≤ count) (hmax : count < 2 ^ 31) :
    ((f.install h flags around).2.readTarfs A (f.fdC + 3) count).1.ret =
      octalToBinary around h.size := by
  simp only [Files.install, Files.readTarfs, Function.update_self]
  generalize octalToBinary around h.size = v at *
  rw [if_neg (by norm_num)]
  split_ifs with hzero hless
  · simp only
    omega
  · exact int32_eq_self (by omega) (by omega)
  · simp only
    omega

theorem digitsOf_lt {field : List UInt8} (hoct : IsOctal field) : ∀ e ∈ digitsOf field, e < 8 := by
  intro e he
  simp only [digitsOf, List.mem_reverse, List.mem_map] at he
  obtain ⟨c, hc, rfl⟩ := he
  have := hoct.2 c hc
  omega

theorem digitsOf_length {field : List UInt8} (hoct : IsOctal field) :
    (digitsOf field).length = 11 := by
  simp [digitsOf, hoct.1]

/-- Between zeros, the second decoder finds the number that the field denotes for four
sizes. -/
theorem octalToBinary_zeros_iff {field : List UInt8} (hoct : IsOctal field)
    (hval : sizeValue field < 2 ^ 31) :
    octalToBinary zeros field = sizeValue field ↔ RightSize (sizeValue field) := by
  have hbinary : octalToBinary zeros field = binaryOf (digitsOf field) := by
    rw [octalToBinary, binaryOf, decimal_eq hoct.2]
  rw [hbinary]
  exact ⟨rightSize_of_binaryOf (digitsOf_length hoct) (digitsOf_lt hoct) hval,
    binaryOf_of_rightSize (digitsOf_length hoct) (digitsOf_lt hoct)⟩

/-- The digits of the four sizes are in the table. -/
theorem inTable_of_rightSize {field : List UInt8} (hoct : IsOctal field)
    (h : RightSize (sizeValue field)) : DigitsInTable field := by
  unfold DigitsInTable decimalOf
  obtain heq | heq | heq | heq :=
    digits_of_rightSize (digitsOf_length hoct) (digitsOf_lt hoct) h
  all_goals
    rw [heq]
    decide +kernel

/-- The second decoder finds the number that the field denotes for four sizes, and else
only if the words around its table make up for them. -/
theorem octalToBinary_eq_iff {field : List UInt8} (hoct : IsOctal field)
    (hval : sizeValue field < 2 ^ 31) (around : Around) :
    octalToBinary around field = sizeValue field ↔
      RightSize (sizeValue field) ∨ MadeUp around field := by
  by_cases hin : DigitsInTable field
  · rw [octalToBinary_inTable hoct hin, octalToBinary_zeros_iff hoct hval]
    exact ⟨Or.inl, fun h => h.resolve_right fun hmade => hmade.1 hin⟩
  · have hwrong : ¬ RightSize (sizeValue field) := fun h => hin (inTable_of_rightSize hoct h)
    have hsum := octalToBinary_eq hoct around
    rw [or_iff_right hwrong, MadeUp, and_iff_right hin, Int.ModEq]
    omega

/-- A word of the stack is not known: whatever is there, it finds the number for the
four sizes only. -/
theorem octalToBinary_all_iff {field : List UInt8} (hoct : IsOctal field)
    (hval : sizeValue field < 2 ^ 31) :
    (∀ around, octalToBinary around field = sizeValue field) ↔ RightSize (sizeValue field) :=
  ⟨fun h => (octalToBinary_zeros_iff hoct hval).mp (h zeros),
    fun h around => (octalToBinary_eq_iff hoct hval around).mpr (.inl h)⟩

/-- The two decoders agree on the number the field denotes, and a read of the whole
file returns it. -/
def SizesAgree (around : Around) (field : List UInt8) : Prop :=
  octalToBinary around field = (getsize fun i => field.getD i 0).toNat ∧
    (getsize fun i => field.getD i 0).toNat = sizeValue field ∧
    ∀ (A : Archive) (f : Files) (h : Header) (flags : Option Int) (count : Int),
      h.size = field → sizeValue field ≤ count → count < 2 ^ 31 →
      ((f.install h flags around).2.readTarfs A (f.fdC + 3) count).1.ret = sizeValue field

theorem sizesAgree_iff {field : List UInt8} (hoct : IsOctal field)
    (hval : sizeValue field < 2 ^ 31) (around : Around) :
    SizesAgree around field ↔ octalToBinary around field = sizeValue field := by
  have hget : (getsize fun i => field.getD i 0).toNat = sizeValue field := by
    rw [getsize_eq hoct, BitVec.toNat_ofNat]
    omega
  rw [SizesAgree, hget]
  refine ⟨And.left, fun hsame => ⟨hsame, rfl, fun A f h flags count hfield hcount hmax => ?_⟩⟩
  have hread := readTarfs_install A f h flags around count
  rw [hfield, hsame] at hread
  exact hread hval hcount hmax

/-- The decoders agree for exactly four sizes, whatever the stack holds around
`octal_dict`. For any other they agree only if the loop reads words of it that happen to
make up the difference. -/
theorem sizes_agree_iff (field : List UInt8) (hoct : IsOctal field)
    (hval : sizeValue field < 2 ^ 31) :
    ((∀ around, SizesAgree around field) ↔ RightSize (sizeValue field)) ∧
      ∀ around, SizesAgree around field ↔ RightSize (sizeValue field) ∨ MadeUp around field := by
  simp only [sizesAgree_iff hoct hval]
  exact ⟨octalToBinary_all_iff hoct hval, octalToBinary_eq_iff hoct hval⟩

/-- A file of one byte. -/
theorem sizes_agree_iff_one :
    sizeValue [48, 48, 48, 48, 48, 48, 48, 48, 48, 48, 49] = 1 ∧
      ∀ around, SizesAgree around [48, 48, 48, 48, 48, 48, 48, 48, 48, 48, 49] :=
  ⟨by decide, (sizes_agree_iff [48, 48, 48, 48, 48, 48, 48, 48, 48, 48, 49]
    ⟨rfl, by decide +kernel⟩ (by decide)).1.mpr (by decide)⟩

/-- A field whose decimal number wraps to 330434139: with the right word behind the
table, the size is right. -/
example : octalToBinary (fun _ _ => 941195675) [49, 55, 53, 49, 48, 51, 48, 51, 51, 50, 51] =
    sizeValue [49, 55, 53, 49, 48, 51, 48, 51, 51, 50, 51] := by decide +kernel

/-- A file of eight bytes, which is opened with a size of a thousand, whatever the stack
holds. -/
theorem sizes_disagree :
    ¬ ∃ around, ∀ field : List UInt8, IsOctal field → sizeValue field < 2 ^ 31 →
      SizesAgree around field := by
  rintro ⟨around, hall⟩
  have hoct : IsOctal [48, 48, 48, 48, 48, 48, 48, 48, 48, 49, 48] := ⟨rfl, by decide +kernel⟩
  have hsame := (hall _ hoct (by decide)).1
  rw [octalToBinary_inTable hoct (by decide +kernel)] at hsame
  revert hsame
  decide +kernel

end X86Kernel.Fs
