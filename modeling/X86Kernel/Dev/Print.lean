import X86Kernel.Fs.Sizes
import X86Kernel.Lib.Numeral

/-!
Formatted output of the kernel (`kprintf.c`). The functions for numbers give the
characters that go to `put_to_screen`. `parse_str` moves on in each of its cases by
itself, and the cases of a conversion it does not know do not.
-/

namespace X86Kernel.Dev

open Lib

def digitChar (d : Nat) : UInt8 := UInt8.ofNat (48 + d)

/-- The loop of `print_int`. `j` is the power of ten with `k - 1` zeros, and 0 for
`k = 0`. -/
def printIntLoop : Nat → Bool → Int → List UInt8
  | 0, _, _ => []
  | k + 1, leadZero, i =>
      let j : Int := 10 ^ k
      if leadZero = true ∧ i.tdiv j = 0 then printIntLoop k leadZero i
      else UInt8.ofInt (48 + i.tdiv j) :: printIntLoop k false (i.tmod j)

def printInt (i : Int) : List UInt8 :=
  let zero := if i = 0 then [48] else []
  let minus := if i < 0 then [45] else []
  let i := if i < 0 then Fs.int32 (i * -1) else i
  zero ++ minus ++ printIntLoop 10 true i

/-- `out` is `i` in decimal: a minus sign if `i` is negative, and the digits of its
absolute value, the first of which is 0 only when it is alone. -/
def Decimal (out : List UInt8) (i : Int) : Prop :=
  ∃ ds, IsNumeral 10 ds i.natAbs ∧ out = (if i < 0 then [45] else []) ++ ds.map digitChar

/-- A turn of the loop that prints. -/
theorem printIntLoop_digit {k n : Nat} {leadZero : Bool} (hn : n < 10 ^ (k + 1))
    (hlead : leadZero = true → n / 10 ^ k ≠ 0) :
    printIntLoop (k + 1) leadZero n =
      digitChar (n / 10 ^ k) :: printIntLoop k false ((n % 10 ^ k : Nat) : Int) := by
  have hdiv : (n : Int).tdiv (10 ^ k) = (n / 10 ^ k : Nat) := by
    rw [Int.ofNat_tdiv]
    norm_cast
  have hmod : (n : Int).tmod (10 ^ k) = (n % 10 ^ k : Nat) := by
    rw [Int.ofNat_tmod]
    norm_cast
  have hchar : ∀ d < 10, UInt8.ofInt (48 + ((d : Nat) : Int)) = digitChar d := by decide
  have hdigit : n / 10 ^ k < 10 := Nat.div_lt_of_lt_mul (by rwa [← Nat.pow_succ])
  simp only [printIntLoop, hdiv, hmod]
  rw [if_neg fun h => hlead h.1 (by exact_mod_cast h.2), hchar _ hdigit]

/-- A turn of the loop that skips a zero. -/
theorem printIntLoop_skip {k n : Nat} (hn : n < 10 ^ k) :
    printIntLoop (k + 1) true n = printIntLoop k true n := by
  have hdiv : (n : Int).tdiv (10 ^ k) = 0 := by
    refine Int.tdiv_eq_zero_of_lt (by omega) ?_
    exact_mod_cast hn
  simp only [printIntLoop, hdiv]
  exact if_pos ⟨trivial, trivial⟩

/-- After the first digit that is not 0 every digit is printed. -/
theorem printIntLoop_false {k n : Nat} (hn : n < 10 ^ k) :
    ∃ ds, Padded 10 k ds n ∧ printIntLoop k false n = ds.map digitChar := by
  induction k generalizing n with
  | zero =>
      obtain rfl : n = 0 := by simpa using hn
      exact ⟨[], Padded.nil, rfl⟩
  | succ k ih =>
      obtain ⟨ds, hds, hloop⟩ := ih (Nat.mod_lt n (Nat.pow_pos (by decide)))
      refine ⟨_, hds.cons hn, ?_⟩
      rw [printIntLoop_digit hn (by simp), hloop, List.map_cons]

/-- The loop prints what a number is written with in decimal. -/
theorem printIntLoop_true {k n : Nat} (hn : n < 10 ^ k) (hpos : 0 < n) :
    ∃ ds, IsNumeral 10 ds n ∧ printIntLoop k true n = ds.map digitChar := by
  induction k with
  | zero =>
      rw [Nat.pow_zero] at hn
      omega
  | succ k ih =>
      by_cases hlt : n < 10 ^ k
      · rw [printIntLoop_skip hlt]
        exact ih hlt
      · have hdigit : n / 10 ^ k ≠ 0 :=
          (Nat.div_pos (by omega) (Nat.pow_pos (by decide))).ne'
        obtain ⟨ds, hds, hloop⟩ :=
          printIntLoop_false (Nat.mod_lt n (Nat.pow_pos (show 0 < 10 by decide)))
        refine ⟨_, (hds.cons hn).numeral hdigit, ?_⟩
        rw [printIntLoop_digit hn fun _ => hdigit, hloop, List.map_cons]

/-- `i* -1` of the smallest `int` is negative: behind the sign comes a full stop. -/
theorem printInt_smallest : ¬ Decimal (printInt (-2 ^ 31)) (-2 ^ 31) := by
  rintro ⟨ds, hds, hout⟩
  have hprint : printInt (-2 ^ 31) = 45 :: 46 :: (printInt (-2 ^ 31)).drop 2 := by decide
  obtain ⟨d, rest, rfl⟩ : ∃ d rest, ds = d :: rest := by
    rcases hds.lead with hzero | ⟨d, rest, hcons, -⟩
    · exact ⟨0, [], hzero⟩
    · exact ⟨d, rest, hcons⟩
  rw [hprint, if_pos (by decide), List.map_cons, List.singleton_append, List.cons.injEq,
    List.cons.injEq] at hout
  have hdigit : ∀ d < 10, digitChar d ≠ 46 := by decide
  exact hdigit d (hds.digit d (by simp)) hout.2.1.symm

/-- Every other `int` is printed in decimal. -/
theorem printInt_decimal {i : Int} (hlo : -2 ^ 31 < i) (hhi : i < 2 ^ 31) :
    Decimal (printInt i) i := by
  obtain hzero | hpos | hneg : i = 0 ∨ 0 < i ∨ i < 0 := by omega
  · subst hzero
    exact ⟨[0], IsNumeral.single (by decide), by decide⟩
  · obtain ⟨ds, hds, hloop⟩ := printIntLoop_true (k := 10) (n := i.natAbs) (by omega) (by omega)
    rw [Int.natAbs_of_nonneg hpos.le] at hloop
    refine ⟨ds, hds, ?_⟩
    simp only [printInt, if_neg hpos.ne', if_neg (show ¬ i < 0 by omega), hloop]
    rfl
  · obtain ⟨ds, hds, hloop⟩ := printIntLoop_true (k := 10) (n := i.natAbs) (by omega) (by omega)
    have habs : Fs.int32 (i * -1) = i.natAbs := by
      rw [Fs.int32_eq_self (by omega) (by omega)]
      omega
    refine ⟨ds, hds, ?_⟩
    simp only [printInt, if_neg hneg.ne, if_pos hneg, habs, hloop]
    rfl

/-- `print_int` prints every `int` in decimal but the smallest, which has no
counterpart without the sign. -/
theorem printInt_decimal_iff {i : Int} (hlo : -2 ^ 31 ≤ i) (hhi : i < 2 ^ 31) :
    Decimal (printInt i) i ↔ i ≠ -2 ^ 31 := by
  constructor
  · rintro h rfl
    exact printInt_smallest h
  · intro hi
    exact printInt_decimal (by omega) hhi

/-- A number with zeros inside and at the end. -/
theorem printInt_decimal_zeros :
    Decimal (printInt (-1002000)) (-1002000) ↔ (-1002000 : Int) ≠ -2 ^ 31 :=
  printInt_decimal_iff (by decide) (by decide)

/-- The smallest `int` is not printed in decimal. -/
theorem printInt_not_decimal :
    ¬ ∀ i : Int, -2 ^ 31 ≤ i → i < 2 ^ 31 → Decimal (printInt i) i :=
  fun h => printInt_smallest (h (-2 ^ 31) (by decide) (by decide))

inductive Arg where
  | int (i : Int)
  | str (s : List UInt8)
  | ulong (p : Nat)

/-- A digit of a hexadecimal number, which is negative for a negative number. -/
def hexChar (k : Int) : UInt8 :=
  if k ≤ 9 then UInt8.ofInt (48 + k) else UInt8.ofInt (65 + (k - 10))

/-- The first loop of `print_hex` and of `print_pointer`, when `a` has `n` elements
left. -/
def hexLoop : Nat → Int → Option (List UInt8)
  | n, i =>
      if i = 0 then some []
      else match n with
        | 0 => none
        | n + 1 => (hexLoop n (i.tdiv 16)).map (hexChar (i.tmod 16) :: ·)

/-- `print_hex`, whose digits are written last to first. -/
def printHex (i : Int) : Option (List UInt8) := (hexLoop 11 i).map List.reverse

def printPointer (p : Nat) : Option (List UInt8) := (hexLoop 32 p).map List.reverse

/-- `va_arg(list, int)`, and for the other two types. -/
def vaInt : List Arg → Option (Int × List Arg)
  | .int i :: list => some (i, list)
  | _ => none

def vaStr : List Arg → Option (List UInt8 × List Arg)
  | .str a :: list => some (a, list)
  | _ => none

def vaUlong : List Arg → Option (Nat × List Arg)
  | .ulong p :: list => some (p, list)
  | _ => none

/-- What is left of the format and of the arguments, and what was printed. -/
structure Parse where
  s : List UInt8
  list : List Arg
  out : List UInt8

namespace Parse

/-- `s+=2`, after a conversion with this output. -/
def conversion (p : Parse) (list : List Arg) (out : List UInt8) : Parse :=
  { s := p.s.drop 2, list := list, out := p.out ++ out }

/-- The `switch` behind a `%`. Its default does nothing. -/
def percent (p : Parse) (c : UInt8) : Option Parse :=
  if c = 100 then do
    let (i, list) ← vaInt p.list
    some (p.conversion list (printInt i))
  else if c = 99 then do
    let (i, list) ← vaInt p.list
    some (p.conversion list [UInt8.ofInt i])
  else if c = 115 then do
    let (a, list) ← vaStr p.list
    some (p.conversion list a)
  else if c = 120 then do
    let (i, list) ← vaInt p.list
    some (p.conversion list (← printHex i))
  else if c = 112 then do
    let (q, list) ← vaUlong p.list
    some (p.conversion list (48 :: 120 :: (← printPointer q)))
  else some p

/-- The `switch` behind a backslash. -/
def backslash (p : Parse) (c : UInt8) : Parse :=
  if c = 110 then p.conversion p.list [10]
  else if c = 114 then p.conversion p.list [13]
  else p

/-- One turn of the loop of `parse_str`. -/
def turn (p : Parse) : Option Parse :=
  match p.s with
  | [] => some p
  | c :: rest =>
      if c = 37 then p.percent (rest.headD 0)
      else if c = 92 then some (p.backslash (rest.headD 0))
      else some { p with s := rest, out := p.out ++ [c] }

def turns : Nat → Parse → Option Parse
  | 0, p => some p
  | n + 1, p => if p.s = [] then some p else p.turn.bind (turns n)

/-- `parse_str` comes to the end of the format, and every turn brings it nearer. -/
def Ends (p : Parse) : Prop :=
  (∃ n q, turns n p = some q ∧ q.s = []) ∧
    ∀ n q, turns n p = some q → q.s ≠ [] → ∃ q', q.turn = some q' ∧ q'.s.length < q.s.length

end Parse

def kprintf (fmt : List UInt8) (args : List Arg) : Parse := { s := fmt, list := args, out := [] }

/-- The characters behind a `%` and behind a backslash that `parse_str` knows. -/
def conversions : List UInt8 := [100, 99, 115, 120, 112]

def escapes : List UInt8 := [110, 114]

/-- Read from the left, every `%` and every backslash is followed by a character that
is known behind it. -/
def Known : List UInt8 → Prop
  | [] => True
  | [c] => c ≠ 37 ∧ c ≠ 92
  | c :: d :: rest =>
      if c = 37 then d ∈ conversions ∧ Known rest
      else if c = 92 then d ∈ escapes ∧ Known rest
      else Known (d :: rest)

/-- An argument for a conversion, of its type. -/
def Arg.For (c : UInt8) : Arg → Prop
  | .int i => c ∈ [(100 : UInt8), 99, 120] ∧ -2 ^ 31 ≤ i ∧ i < 2 ^ 31
  | .str a => c = 115 ∧ 0 ∉ a
  | .ulong p => c = 112 ∧ p < 2 ^ 64

/-- There is an argument for every conversion, up to one that is not known. -/
def WellTyped : List UInt8 → List Arg → Prop
  | c :: d :: rest, args =>
      if c = 37 then
        d ∈ conversions → ∃ a list, args = a :: list ∧ a.For d ∧ WellTyped rest list
      else if c = 92 then d ∈ escapes → WellTyped rest args
      else WellTyped (d :: rest) args
  | _, _ => True

def width : List UInt8 → Nat
  | [] => 0
  | c :: rest =>
      if c = 37 then if rest.headD 0 ∈ conversions then 2 else 0
      else if c = 92 then if rest.headD 0 ∈ escapes then 2 else 0
      else 1

theorem known_iff {s : List UInt8} (hs : s ≠ []) :
    Known s ↔ width s ≠ 0 ∧ Known (s.drop (width s)) := by
  have hnul : (0 : UInt8) ∉ conversions ∧ (0 : UInt8) ∉ escapes := by decide
  match s with
  | [] => exact absurd rfl hs
  | [c] =>
      by_cases hp : c = 37
      · simp [Known, width, hp, hnul.1]
      · by_cases hb : c = 92
        · simp [Known, width, hb, hnul.2]
        · simp [Known, width, hp, hb]
  | c :: d :: rest =>
      by_cases hp : c = 37
      · by_cases hd : d ∈ conversions
        · simp [Known, width, hp, hd]
        · simp [Known, width, hp, hd]
      · by_cases hb : c = 92
        · by_cases hd : d ∈ escapes
          · simp [Known, width, hb, hd]
          · simp [Known, width, hb, hd]
        · simp [Known, width, hp, hb]

/-- The digits fit. -/
theorem hexLoop_some {n : Nat} {i : Int} (hi : i.natAbs < 16 ^ n) : ∃ a, hexLoop n i = some a := by
  induction n generalizing i with
  | zero =>
      rw [Nat.pow_zero] at hi
      exact ⟨[], by rw [hexLoop, if_pos (by omega)]⟩
  | succ n ih =>
      by_cases hzero : i = 0
      · exact ⟨[], by rw [hexLoop, if_pos hzero]⟩
      · have hdiv : (i.tdiv 16).natAbs < 16 ^ n := by
          rw [Int.natAbs_tdiv]
          exact Nat.div_lt_of_lt_mul (by rwa [Nat.pow_succ'] at hi)
        obtain ⟨a, ha⟩ := ih hdiv
        exact ⟨_, by rw [hexLoop, if_neg hzero, ha, Option.map_some]⟩

section Turns

variable {p q : Parse}

/-- A conversion that is known takes its argument. -/
theorem percent_known {d : UInt8} {a : Arg} {list : List Arg} (hlist : p.list = a :: list)
    (ha : a.For d) : ∃ q, p.percent d = some q ∧ q.s = p.s.drop 2 ∧ q.list = list := by
  cases a with
  | int i =>
      obtain ⟨hd, hlo, hhi⟩ := ha
      obtain ⟨hex, hhex⟩ := hexLoop_some (n := 11) (i := i) (by norm_num; omega)
      rcases List.mem_cons.mp hd with rfl | hd
      · exact ⟨_, by rw [Parse.percent, if_pos rfl, hlist]; rfl, rfl, rfl⟩
      · rcases List.mem_cons.mp hd with rfl | hd
        · exact ⟨_, by rw [Parse.percent, if_neg (by decide), if_pos rfl, hlist]; rfl, rfl, rfl⟩
        · obtain rfl := List.mem_singleton.mp hd
          exact ⟨_, by simp [Parse.percent, hlist, vaInt, printHex, hhex]; rfl, rfl, rfl⟩
  | str a =>
      obtain ⟨rfl, -⟩ := ha
      exact ⟨_, by simp [Parse.percent, hlist, vaStr]; rfl, rfl, rfl⟩
  | ulong v =>
      obtain ⟨rfl, hv⟩ := ha
      obtain ⟨hex, hhex⟩ := hexLoop_some (n := 32) (i := v) (by norm_num; omega)
      exact ⟨_, by simp [Parse.percent, hlist, vaUlong, printPointer, hhex]; rfl, rfl, rfl⟩

theorem percent_unknown {d : UInt8} (hd : d ∉ conversions) : p.percent d = some p := by
  simp only [conversions, List.mem_cons, List.not_mem_nil, or_false, not_or] at hd
  obtain ⟨h₁, h₂, h₃, h₄, h₅⟩ := hd
  rw [Parse.percent, if_neg h₁, if_neg h₂, if_neg h₃, if_neg h₄, if_neg h₅]

theorem backslash_spec (d : UInt8) :
    (p.backslash d).s = p.s.drop (if d ∈ escapes then 2 else 0) ∧
      (p.backslash d).list = p.list := by
  by_cases hn : d = 110
  · simp [Parse.backslash, hn, escapes, Parse.conversion]
  · by_cases hr : d = 114
    · simp [Parse.backslash, hr, escapes, Parse.conversion]
    · simp [Parse.backslash, hn, hr, escapes]

theorem wellTyped_percent {rest : List UInt8} {args : List Arg}
    (hw : WellTyped (37 :: rest) args) (hd : rest.headD 0 ∈ conversions) :
    ∃ a list, args = a :: list ∧ a.For (rest.headD 0) ∧ WellTyped (rest.drop 1) list := by
  cases rest with
  | nil => exact absurd hd (by decide)
  | cons d rest =>
      rw [WellTyped, if_pos rfl] at hw
      exact hw hd

theorem wellTyped_backslash {rest : List UInt8} {args : List Arg}
    (hw : WellTyped (92 :: rest) args) (hd : rest.headD 0 ∈ escapes) :
    WellTyped (rest.drop 1) args := by
  cases rest with
  | nil => exact absurd hd (by decide)
  | cons d rest =>
      rw [WellTyped, if_neg (by decide), if_pos rfl] at hw
      exact hw hd

theorem wellTyped_plain {c : UInt8} {rest : List UInt8} {args : List Arg}
    (hw : WellTyped (c :: rest) args) (hp : c ≠ 37) (hb : c ≠ 92) : WellTyped rest args := by
  cases rest with
  | nil => simp [WellTyped]
  | cons d rest => rwa [WellTyped, if_neg hp, if_neg hb] at hw

/-- A turn takes `width` characters, and the arguments that are left are right for
the rest of the format. -/
theorem turn_spec (hs : p.s ≠ []) (hw : WellTyped p.s p.list) :
    ∃ q, p.turn = some q ∧ q.s = p.s.drop (width p.s) ∧ WellTyped q.s q.list := by
  obtain ⟨c, rest, hcs⟩ := List.exists_cons_of_ne_nil hs
  by_cases hp : c = 37
  · subst hp
    have hturn : p.turn = p.percent (rest.headD 0) := by simp [Parse.turn, hcs]
    by_cases hd : rest.headD 0 ∈ conversions
    · rw [hcs] at hw
      obtain ⟨a, list, hlist, ha, hrest⟩ := wellTyped_percent hw hd
      obtain ⟨q, hq, hqs, hql⟩ := percent_known hlist ha
      have hdrop : q.s = rest.drop 1 := by rw [hqs, hcs, List.drop_succ_cons]
      refine ⟨q, hturn.trans hq, ?_, by rwa [hdrop, hql]⟩
      rw [hqs, hcs, width, if_pos rfl, if_pos hd]
    · refine ⟨p, hturn.trans (percent_unknown hd), ?_, hw⟩
      rw [hcs, width, if_pos rfl, if_neg hd, List.drop_zero]
  · by_cases hb : c = 92
    · subst hb
      have hturn : p.turn = some (p.backslash (rest.headD 0)) := by simp [Parse.turn, hcs]
      obtain ⟨hqs, hql⟩ := backslash_spec (p := p) (rest.headD 0)
      refine ⟨_, hturn, ?_, ?_⟩
      · rw [hqs, hcs, width, if_neg hp, if_pos rfl]
      · rw [hqs, hql, hcs]
        rw [hcs] at hw
        split_ifs with hd
        · exact wellTyped_backslash hw hd
        · exact hw
    · refine ⟨{ p with s := rest, out := p.out ++ [c] }, ?_, ?_, ?_⟩
      · simp [Parse.turn, hcs, hp, hb]
      · rw [hcs, width, if_neg hp, if_neg hb, List.drop_succ_cons, List.drop_zero]
      · rw [hcs] at hw
        exact wellTyped_plain hw hp hb

/-- Turns keep whether the rest of the format is known. -/
theorem turns_known {n : Nat} (hw : WellTyped p.s p.list) (hq : Parse.turns n p = some q) :
    WellTyped q.s q.list ∧ (Known q.s ↔ Known p.s) := by
  induction n generalizing p with
  | zero =>
      obtain rfl : p = q := Option.some.inj hq
      exact ⟨hw, Iff.rfl⟩
  | succ n ih =>
      rw [Parse.turns] at hq
      split_ifs at hq with hs
      · obtain rfl : p = q := Option.some.inj hq
        exact ⟨hw, Iff.rfl⟩
      · obtain ⟨r, hr, hrs, hwr⟩ := turn_spec hs hw
        rw [hr, Option.bind_some] at hq
        obtain ⟨hwq, hknown⟩ := ih hwr hq
        refine ⟨hwq, hknown.trans ?_⟩
        rw [hrs]
        by_cases hwidth : width p.s = 0
        · rw [hwidth, List.drop_zero]
        · rw [known_iff hs]
          exact (and_iff_right hwidth).symm

/-- In a format that is known all through a turn takes something. -/
theorem turn_advances (hs : p.s ≠ []) (hw : WellTyped p.s p.list) (hk : Known p.s) :
    ∃ q, p.turn = some q ∧ q.s.length < p.s.length ∧ WellTyped q.s q.list ∧ Known q.s := by
  obtain ⟨hwidth, hrest⟩ := (known_iff hs).mp hk
  obtain ⟨q, hq, hqs, hwq⟩ := turn_spec hs hw
  have hpos : 0 < p.s.length := List.length_pos_of_ne_nil hs
  refine ⟨q, hq, ?_, hwq, by rwa [hqs]⟩
  rw [hqs, List.length_drop]
  omega

/-- A format that is known all through is read to its end. -/
theorem ends_of_known (hw : WellTyped p.s p.list) (hk : Known p.s) :
    ∃ n q, Parse.turns n p = some q ∧ q.s = [] := by
  induction hlen : p.s.length using Nat.strong_induction_on generalizing p with
  | _ len ih =>
      by_cases hs : p.s = []
      · exact ⟨0, p, rfl, hs⟩
      · obtain ⟨q, hq, hless, hwq, hkq⟩ := turn_advances hs hw hk
        obtain ⟨n, r, hr, hrs⟩ := ih q.s.length (by omega) hwq hkq rfl
        exact ⟨n + 1, r, by rw [Parse.turns, if_neg hs, hq, Option.bind_some, hr], hrs⟩

/-- A format that is read to its end is known all through. -/
theorem known_of_ends (hw : WellTyped p.s p.list) (h : p.Ends) : Known p.s := by
  obtain ⟨⟨n, q, hq, hqs⟩, -⟩ := h
  have hknown := (turns_known hw hq).2
  rw [hqs] at hknown
  exact hknown.mp trivial

end Turns

/-- `parse_str` comes to the end of a format that has only known characters behind
`%` and the backslash; in any other it stays for ever at the first one that is not. -/
theorem kprintf_ends_iff {fmt : List UInt8} {args : List Arg} (hw : WellTyped fmt args) :
    (kprintf fmt args).Ends ↔ Known fmt := by
  constructor
  · exact known_of_ends hw
  · refine fun hk => ⟨ends_of_known hw hk, fun n q hq hqs => ?_⟩
    obtain ⟨hwq, hknown⟩ := turns_known hw hq
    obtain ⟨q', hq', hless, -⟩ := turn_advances hqs hwq (hknown.mpr hk)
    exact ⟨q', hq', hless⟩

/-- The format `%d\n` with its argument. -/
theorem kprintf_ends_number :
    (kprintf [37, 100, 92, 110] [.int 7]).Ends ↔ Known [37, 100, 92, 110] :=
  kprintf_ends_iff (by simp [WellTyped, conversions, Arg.For])

/-- In `100%` the loop does not come to the end. -/
theorem kprintf_not_ends :
    ¬ ∀ (fmt : List UInt8) (args : List Arg), WellTyped fmt args → (kprintf fmt args).Ends := by
  intro h
  have hw : WellTyped [49, 48, 48, 37] [] := by simp [WellTyped]
  have hknown : Known [49, 48, 48, 37] :=
    known_of_ends (p := kprintf [49, 48, 48, 37] []) hw (h _ _ hw)
  simp [Known] at hknown

end X86Kernel.Dev
