import X86Kernel.Dev.Print
import X86Kernel.Dev.Console

/-!
What `kprintf` shows. A format that is read to its end comes out with its arguments
in place of the conversions, and the screen gets it character by character.
-/

namespace X86Kernel.Dev

open Lib

def hexDigit (d : Nat) : UInt8 := UInt8.ofNat (if d < 10 then 48 + d else 55 + d)

/-- A number in hexadecimal. There are no digits for 0. -/
def hex (n : Nat) : List UInt8 := (Nat.digits 16 n).reverse.map hexDigit

/-- What `print_hex` makes of a negative number: its digits are taken from `'0'`. -/
def negativeHex (n : Nat) : List UInt8 :=
  (Nat.digits 16 n).reverse.map fun d => 48 - UInt8.ofNat d

/-- How an argument is shown. The smallest `int` is negative without its sign, too. -/
def Arg.Shown (c : UInt8) : Arg → List UInt8 → Prop
  | .int i, out =>
      if c = 100 then
        if i = -2 ^ 31 then out = [45, 46, 47, 44, 41, 44, 40, 45, 42, 44, 40] else Decimal out i
      else if c = 99 then out = [UInt8.ofInt i]
      else if i < 0 then out = negativeHex i.natAbs
      else out = hex i.natAbs
  | .str a, out => out = a
  | .ulong p, out => out = 48 :: 120 :: hex p

def escaped (c : UInt8) : UInt8 := if c = 110 then 10 else 13

inductive Renders : List UInt8 → List Arg → List UInt8 → Prop
  | nil (args : List Arg) : Renders [] args []
  | plain {c : UInt8} {rest : List UInt8} {args : List Arg} {out : List UInt8} (hp : c ≠ 37)
      (hb : c ≠ 92) (h : Renders rest args out) : Renders (c :: rest) args (c :: out)
  | escape {c : UInt8} {rest : List UInt8} {args : List Arg} {out : List UInt8}
      (hc : c ∈ escapes) (h : Renders rest args out) :
      Renders (92 :: c :: rest) args (escaped c :: out)
  | conversion {c : UInt8} {rest : List UInt8} {a : Arg} {args : List Arg}
      {shown out : List UInt8} (hc : c ∈ conversions) (ha : a.For c) (hs : a.Shown c shown)
      (h : Renders rest args out) : Renders (37 :: c :: rest) (a :: args) (shown ++ out)

/-- The loop gives the digits of the absolute value, each with the sign of the number. -/
theorem hexLoop_digits {n : Nat} {i : Int} (hi : i.natAbs < 16 ^ n) :
    hexLoop n i = some ((Nat.digits 16 i.natAbs).map fun d : Nat => hexChar (i.sign * d)) := by
  induction n generalizing i with
  | zero =>
      rw [Nat.pow_zero] at hi
      obtain rfl : i = 0 := by omega
      rfl
  | succ n ih =>
      by_cases hzero : i = 0
      · subst hzero
        rw [hexLoop, if_pos rfl]
        rfl
      · have hdiv : (i.tdiv 16).natAbs = i.natAbs / 16 := Int.natAbs_tdiv i 16
        have hmod : i.tmod 16 = i.sign * (i.natAbs % 16 : Nat) := by
          rcases Int.lt_or_gt_of_ne hzero with hneg | hpos
          · rw [Int.sign_eq_neg_one_of_neg hneg, ← Int.neg_neg i, Int.neg_tmod,
              Int.tmod_eq_emod_of_nonneg (by omega)]
            omega
          · rw [Int.sign_eq_one_of_pos hpos, Int.tmod_eq_emod_of_nonneg (by omega)]
            omega
        have hsign : ∀ d ∈ Nat.digits 16 (i.natAbs / 16),
            hexChar ((i.tdiv 16).sign * (d : Int)) = hexChar (i.sign * (d : Int)) := by
          intro d hd
          have hquot : i.natAbs / 16 ≠ 0 := by
            intro hquot
            rw [hquot] at hd
            simp at hd
          have hsame : (i.tdiv 16).sign = i.sign := by
            rw [Int.sign_tdiv, if_neg (by omega)]
            exact Int.mul_one _
          rw [hsame]
        rw [Nat.digits_def' (by decide) (by omega), hexLoop, if_neg hzero,
          ih (by rw [hdiv]; exact Nat.div_lt_of_lt_mul (by rwa [Nat.pow_succ'] at hi)), hdiv, hmod,
          Option.map_some, List.map_cons, List.map_congr_left hsign]

theorem hexChar_digit : ∀ d < 16, hexChar ((d : Nat) : Int) = hexDigit d := by decide

theorem hexChar_negative : ∀ d < 16, hexChar (-((d : Nat) : Int)) = 48 - UInt8.ofNat d := by decide

/-- `print_pointer`, and `print_hex` of a number that is not negative. -/
theorem hexLoop_hex {n k : Nat} (hk : k < 16 ^ n) :
    (hexLoop n k).map List.reverse = some (hex k) := by
  rw [hexLoop_digits (by simpa using hk), Option.map_some, Option.some.injEq, Int.natAbs_natCast,
    ← List.map_reverse, hex]
  refine List.map_congr_left fun d hd => ?_
  have hdigit : d < 16 := Nat.digits_lt_base (by decide) (List.mem_reverse.mp hd)
  have hpos : k ≠ 0 := by
    rintro rfl
    simp at hd
  rw [Int.sign_eq_one_of_pos (by omega), Int.one_mul, hexChar_digit d hdigit]

theorem printHex_shown {i : Int} (hlo : -2 ^ 31 ≤ i) (hhi : i < 2 ^ 31) :
    printHex i = some (if i < 0 then negativeHex i.natAbs else hex i.natAbs) := by
  have hsize : i.natAbs < 16 ^ 11 := by
    norm_num
    omega
  split_ifs with hneg
  · rw [printHex, hexLoop_digits hsize, Option.map_some, Option.some.injEq, ← List.map_reverse,
      negativeHex]
    refine List.map_congr_left fun d hd => ?_
    have hdigit : d < 16 := Nat.digits_lt_base (by decide) (List.mem_reverse.mp hd)
    rw [Int.sign_eq_neg_one_of_neg hneg, Int.neg_mul, Int.one_mul, hexChar_negative d hdigit]
  · have habs : ((i.natAbs : Nat) : Int) = i := by omega
    have hhex := hexLoop_hex hsize
    rwa [habs] at hhex

theorem printInt_shown {i : Int} (hlo : -2 ^ 31 ≤ i) (hhi : i < 2 ^ 31) :
    (Arg.int i).Shown 100 (printInt i) := by
  rw [Arg.Shown, if_pos rfl]
  split_ifs with hmin
  · rw [hmin]
    decide
  · exact printInt_decimal (by omega) hhi

section Turns

variable {p : Parse}

/-- A conversion shows its argument. -/
theorem percent_shown {c : UInt8} {a : Arg} {list : List Arg} (hlist : p.list = a :: list)
    (ha : a.For c) :
    ∃ shown, a.Shown c shown ∧ p.percent c = some (p.conversion list shown) := by
  cases a with
  | int i =>
      obtain ⟨hc, hlo, hhi⟩ := ha
      simp only [List.mem_cons, List.not_mem_nil, or_false] at hc
      rcases hc with rfl | rfl | rfl
      · refine ⟨_, printInt_shown hlo hhi, ?_⟩
        rw [Parse.percent, if_pos rfl, hlist]
        rfl
      · refine ⟨[UInt8.ofInt i], by simp [Arg.Shown], ?_⟩
        rw [Parse.percent, if_neg (by decide), if_pos rfl, hlist]
        rfl
      · refine ⟨if i < 0 then negativeHex i.natAbs else hex i.natAbs, ?_, ?_⟩
        · simp only [Arg.Shown]
          rw [if_neg (by decide), if_neg (by decide)]
          split_ifs <;> rfl
        · have hprint := printHex_shown hlo hhi
          simp [Parse.percent, hlist, vaInt, hprint]
  | str a =>
      obtain ⟨rfl, -⟩ := ha
      refine ⟨a, rfl, ?_⟩
      simp only [Parse.percent, hlist, vaStr]
      rfl
  | ulong v =>
      obtain ⟨rfl, hv⟩ := ha
      refine ⟨48 :: 120 :: hex v, rfl, ?_⟩
      have hprint : printPointer v = some (hex v) := hexLoop_hex (by norm_num; omega)
      simp [Parse.percent, hlist, vaUlong, hprint]

theorem backslash_shown {c : UInt8} (hc : c ∈ escapes) :
    p.backslash c = p.conversion p.list [escaped c] := by
  simp only [escapes, List.mem_cons, List.not_mem_nil, or_false] at hc
  rcases hc with rfl | rfl <;> rfl

/-- A turn shows one piece of the format, and goes on behind it. -/
theorem turn_renders (hs : p.s ≠ []) (hw : WellTyped p.s p.list) (hk : Known p.s) :
    ∃ q piece, p.turn = some q ∧ q.out = p.out ++ piece ∧ q.s.length < p.s.length ∧
      WellTyped q.s q.list ∧ Known q.s ∧
      ∀ out, Renders q.s q.list out → Renders p.s p.list (piece ++ out) := by
  obtain ⟨q, hq, hless, hwq, hkq⟩ := turn_advances hs hw hk
  obtain ⟨c, rest, hcs⟩ := List.exists_cons_of_ne_nil hs
  suffices h : ∃ piece, q.out = p.out ++ piece ∧
      ∀ out, Renders q.s q.list out → Renders p.s p.list (piece ++ out) by
    obtain ⟨piece, hout, hrenders⟩ := h
    exact ⟨q, piece, hq, hout, hless, hwq, hkq, hrenders⟩
  rw [hcs] at hw hk
  by_cases hp : c = 37
  · subst hp
    obtain ⟨d, rest, rfl⟩ : ∃ d tail, rest = d :: tail := by
      cases rest with
      | nil => exact absurd rfl hk.1
      | cons d tail => exact ⟨d, tail, rfl⟩
    have hd : d ∈ conversions := by
      rw [Known, if_pos rfl] at hk
      exact hk.1
    obtain ⟨a, list, hlist, ha, -⟩ := wellTyped_percent hw hd
    obtain ⟨shown, hshown, hpercent⟩ := percent_shown hlist ha
    have hturn : p.turn = p.percent d := by simp [Parse.turn, hcs]
    obtain rfl := Option.some.inj (hq.symm.trans (hturn.trans hpercent))
    refine ⟨shown, rfl, fun out hout => ?_⟩
    rw [hcs, hlist]
    refine Renders.conversion hd ha hshown ?_
    simpa only [Parse.conversion, hcs, List.drop_succ_cons, List.drop_zero] using hout
  · by_cases hb : c = 92
    · subst hb
      obtain ⟨d, rest, rfl⟩ : ∃ d tail, rest = d :: tail := by
        cases rest with
        | nil => exact absurd rfl hk.2
        | cons d tail => exact ⟨d, tail, rfl⟩
      have hd : d ∈ escapes := by
        rw [Known, if_neg (by decide), if_pos rfl] at hk
        exact hk.1
      have hturn : p.turn = some (p.backslash d) := by simp [Parse.turn, hcs]
      rw [backslash_shown hd] at hturn
      obtain rfl := Option.some.inj (hq.symm.trans hturn)
      refine ⟨[escaped d], rfl, fun out hout => ?_⟩
      have hrest : (p.conversion p.list [escaped d]).s = rest := by
        simp only [Parse.conversion, hcs, List.drop_succ_cons, List.drop_zero]
      rw [hrest] at hout
      rw [hcs]
      exact Renders.escape hd hout
    · have hturn : p.turn = some { p with s := rest, out := p.out ++ [c] } := by
        simp [Parse.turn, hcs, hp, hb]
      obtain rfl := Option.some.inj (hq.symm.trans hturn)
      refine ⟨[c], rfl, fun out hout => ?_⟩
      rw [hcs]
      exact Renders.plain hp hb hout

/-- The loop shows what is left of the format. -/
theorem turns_render (hw : WellTyped p.s p.list) (hk : Known p.s) :
    ∃ n q out, Parse.turns n p = some q ∧ q.s = [] ∧ q.out = p.out ++ out ∧
      Renders p.s p.list out := by
  induction hlen : p.s.length using Nat.strong_induction_on generalizing p with
  | _ len ih =>
      by_cases hs : p.s = []
      · refine ⟨0, p, [], rfl, hs, by simp, ?_⟩
        rw [hs]
        exact .nil _
      · obtain ⟨q, piece, hq, hout, hless, hwq, hkq, hrenders⟩ := turn_renders hs hw hk
        obtain ⟨n, r, out, hr, hrs, hrout, hrest⟩ := ih q.s.length (by omega) hwq hkq rfl
        refine ⟨n + 1, r, piece ++ out, ?_, hrs, ?_, hrenders out hrest⟩
        · rw [Parse.turns, if_neg hs, hq, Option.bind_some, hr]
        · rw [hrout, hout, List.append_assoc]

end Turns

/-- Characters that leave the cursor coherent add to the text. -/
theorem Screen.Shows.print {s s' : Screen} {t : Text UInt8} (h : s.Shows t) {out : List UInt8}
    (hrun : Run Screen.step CursorSafe s (out.map .put) s') : s'.Shows (t.print 80 10 out) := by
  generalize hes : out.map Output.put = es at hrun
  induction hrun generalizing out with
  | nil =>
      obtain rfl := List.map_eq_nil_iff.mp hes
      exact h
  | snoc _ hok hstep ih =>
      obtain ⟨out, last, rfl, hout, hlast⟩ := List.map_eq_append_iff.mp hes
      obtain ⟨a, rest, rfl, rfl, hrest⟩ := List.map_eq_cons_iff.mp hlast
      obtain rfl := List.map_eq_nil_iff.mp hrest
      have hnext := (ih hout).step hok hstep
      rwa [Text.print, List.foldl_append]

/-- `kprintf` on the screen. A format with arguments of the right types and no unknown
conversion is read to its end; what comes out is the format with every conversion
replaced by its argument, and characters that leave the cursor coherent appear behind
the text that was on the screen. -/
theorem kprintf_shows {fmt : List UInt8} {args : List Arg} (hw : WellTyped fmt args)
    (hk : Known fmt) {s : Screen} {t : Text UInt8} (h : s.Shows t) :
    ∃ n q, Parse.turns n (kprintf fmt args) = some q ∧ q.s = [] ∧ Renders fmt args q.out ∧
      ∀ s', Run Screen.step CursorSafe s (q.out.map .put) s' →
        s'.Shows (t.print 80 10 q.out) := by
  obtain ⟨n, q, out, hq, hqs, hout, hrenders⟩ := turns_render (p := kprintf fmt args) hw hk
  obtain rfl : q.out = out := hout
  exact ⟨n, q, hq, hqs, hrenders, fun s' hrun => h.print hrun⟩

/-- The format `%x\n` on a blank screen: `FF` and a new line. -/
theorem kprintf_shows_hex :
    ∃ n q s', Parse.turns n (kprintf [37, 120, 92, 110] [.int 255]) = some q ∧ q.s = [] ∧
      q.out = [70, 70, 10] ∧
      Run Screen.step CursorSafe bootScreen.clrscr (q.out.map .put) s' ∧
      s'.Shows (Text.empty.print 80 10 q.out) := by
  have htyped : WellTyped [37, 120, 92, 110] [.int 255] := by
    simp [WellTyped, conversions, escapes, Arg.For]
  obtain ⟨n, q, hq, hs, hrenders, hshows⟩ :=
    kprintf_shows htyped (by simp [Known, conversions, escapes]) bootScreen.clrscr_shows
  have hout : q.out = [70, 70, 10] := by
    clear hshows
    generalize q.out = out at hrenders
    cases hrenders with
    | plain hp => exact absurd rfl hp
    | conversion _ _ hshown hrest =>
        obtain rfl := hshown
        cases hrest with
        | plain _ hb => exact absurd rfl hb
        | escape _ hnil =>
            cases hnil
            decide
  have hexec : (exec (guarded Screen.step CursorSafe) bootScreen.clrscr
      (q.out.map Output.put)).isSome = true := by
    rw [hout]
    decide +kernel
  obtain ⟨s', hs'⟩ := Option.isSome_iff_exists.mp hexec
  have hrun := Run.guarded hs'
  exact ⟨n, q, s', hq, hs, hout, hrun, hshows s' hrun⟩

end X86Kernel.Dev
