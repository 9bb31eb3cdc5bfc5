import Mathlib.Data.Nat.Digits.Lemmas
import X86Kernel.Lib.Text
import X86Kernel.Dev.Screen

/-!
What the screen shows. The first 24 rows of video memory are the end of the text
printed since the screen was cleared; the last row is the clock of `timer_handler`,
which has its own pointer. Neither disturbs the other.
-/

namespace X86Kernel.Dev

open Lib

/-- The loop of `timer_handler` that writes the digits of `temp` from `reg` to the
left, with `n` iterations left. -/
def clockLoop : Nat → (Int → UInt8) → Int → Int → Int → UInt8
  | 0, cells, _, _ => cells
  | n + 1, cells, reg, temp =>
      if 0 < temp then
        clockLoop n (Function.update cells reg (UInt8.ofInt (48 + temp.tmod 10))) (reg - 2)
          (temp.tdiv 10)
      else cells

/-- The screen and `sec` of `timer.c`. -/
structure Console where
  screen : Screen
  sec : Int

/-- The part of `timer_handler` behind its `yield` that is about the clock. The
address is `0xffffffff800B8F9E`. -/
def Console.tickSecond (c : Console) : Console :=
  let sec := c.sec + 1
  { screen := { c.screen with cells := clockLoop sec.toNat c.screen.cells (video + 0xF9E) sec }
    sec := sec }

inductive Display where
  | out (o : Output)
  | second
  deriving DecidableEq

def Console.step (c : Console) : Display → Option Console
  | .out o => (c.screen.step o).map fun s => { c with screen := s }
  | .second => some c.tickSecond

/-- Output that keeps the cursor coherent, and `sec` is still an `int`. -/
def ConsoleSafe (c : Console) : Display → Prop
  | .out o => CursorSafe c.screen o
  | .second => c.sec + 1 < 2 ^ 31

/-- What output does to the text: 80 columns, and 10 is the newline. -/
def textStep (t : Text UInt8) : Output → Text UInt8
  | .put a => t.put 80 10 a
  | .backspace => t.erase
  | .clrscr => .empty

/-- The text and the clock; `ticked` says that it was written since the screen was
cleared. -/
structure Picture where
  text : Text UInt8
  sec : Nat
  ticked : Bool

def Picture.step (p : Picture) : Display → Picture
  | .out o => { p with text := textStep p.text o, ticked := p.ticked && o ≠ .clrscr }
  | .second => { p with sec := p.sec + 1, ticked := true }

def Picture.clock (p : Picture) : List UInt8 :=
  if p.ticked then (Nat.digits 10 p.sec).map fun d : Nat => UInt8.ofInt (48 + (d : Int)) else []

def ShowsCell (x : UInt8) : Option UInt8 → Prop
  | some a => x = a
  | none => x = 0 ∨ x = 32

/-- The screen shows the end of the text, and the cursor is where it ends. -/
structure Screen.Shows (s : Screen) (t : Text UInt8) : Prop where
  coherent : s.Coherent
  col : s.hOffset = t.cur.length
  row : s.vOffset = t.cursorRow 23
  cell : ∀ r < 24, ∀ c < 80, ShowsCell (s.cells (cellAddr r c)) (t.row 23 r)[c]?

structure Console.Shows (c : Console) (p : Picture) : Prop where
  text : c.screen.Shows p.text
  sec : c.sec = p.sec
  small : c.sec < 2 ^ 31
  clock : ∀ k < 80, ShowsCell (c.screen.cells (cellAddr 24 (79 - k))) p.clock[k]?

/-- Rows from 24 on belong to no text. -/
theorem not_inRows (c : Nat) : ¬ InRows (cellAddr 24 c) := by
  rintro ⟨row, col, hrow, hcol, heq⟩
  unfold cellAddr at heq
  omega

theorem cellAddr_inj {r c r' c' : Nat} (hc : c < 80) (hc' : c' < 80)
    (h : cellAddr r c = cellAddr r' c') : r = r' ∧ c = c' := by
  unfold cellAddr at h
  omega

/-- The last row after `scroll` is empty. -/
theorem scroll_last (s : Screen) {c : Nat} (hc : c < 80) : s.scroll.cells (cellAddr 23 c) = 0 := by
  have hloop : ∀ c < 80, Screen.blankRow (Screen.scrollRows s.cells) (cellAddr 23 c) = 0 := by
    refine foldl_range_invariant (P := fun j (cells : Int → UInt8) =>
      ∀ c < j, cells (cellAddr 23 c) = 0) (by simp) ?_
    intro j cells hj ih c hcj
    have haddr : video + ((160 * 23 + 2 * j : Nat) : Int) = cellAddr 23 j := by
      unfold cellAddr
      omega
    rw [haddr]
    by_cases hcol : c = j
    · rw [hcol, Function.update_self]
    · rw [Function.update_of_ne, ih c (by omega)]
      unfold cellAddr
      omega
  exact hloop c hc

/-- The whole screen is blank after `clrscr`, the last row too. -/
theorem clrscr_cells (s : Screen) {r c : Nat} (hr : r < 25) (hc : c < 80) :
    s.clrscr.cells (cellAddr r c) = 32 := by
  have hloop : ∀ n : Nat, n < 25 * 80 → s.clrscr.cells (video + 2 * (n : Int)) = 32 := by
    -- the loop runs over the numbers as `int`s
    simp only [Screen.clrscr, List.pure_def, List.bind_eq_flatMap, ← List.map_eq_flatMap,
      List.foldl_map]
    refine foldl_range_invariant (P := fun j (cells : Int → UInt8) =>
      ∀ n : Nat, n < j → cells (video + 2 * (n : Int)) = 32) (by simp) ?_
    intro j cells hj ih n hn
    rw [Function.update_of_ne (by omega)]
    by_cases hnj : n = j
    · rw [hnj, Function.update_self]
    · rw [Function.update_of_ne (by omega), ih n (by omega)]
  have hcell := hloop (80 * r + c) (by omega)
  have haddr : cellAddr r c = video + 2 * ((80 * r + c : Nat) : Int) := by
    unfold cellAddr
    omega
  rw [haddr]
  exact hcell

/-- Safe output that does not clear the screen leaves the last row alone. -/
theorem Screen.Coherent.last_row {s : Screen} (h : s.Coherent) {o : Output} (hsafe : CursorSafe s o)
    (hclear : o ≠ .clrscr) {t : Screen} (hstep : s.step o = some t) (c : Nat) :
    t.cells (cellAddr 24 c) = s.cells (cellAddr 24 c) := by
  by_contra hne
  refine not_inRows c ?_
  cases o with
  | put a =>
      obtain rfl := Option.some.inj hstep
      exact (h.put_cells hsafe).1 _ hne
  | backspace =>
      obtain rfl := Option.some.inj hstep
      exact h.backspace.2 _ hne
  | clrscr => exact absurd rfl hclear

section Text

variable {s : Screen} {t : Text UInt8}

theorem Screen.clrscr_shows (s : Screen) : s.clrscr.Shows .empty := by
  refine ⟨⟨by simp [Screen.clrscr], by simp [Screen.clrscr], by simp [Screen.clrscr]⟩, rfl, rfl, ?_⟩
  intro r hr c hc
  rw [clrscr_cells s (by omega) hc]
  have hrow : (Text.empty : Text UInt8).row 23 r = [] := by
    cases r <;> rfl
  rw [hrow]
  exact Or.inr rfl

/-- The cell under the cursor, in the coordinates of the text. -/
theorem Screen.Shows.ptr (h : s.Shows t) : s.pReg = cellAddr (t.cursorRow 23) t.cur.length := by
  rw [h.coherent.ptr, h.row, h.col]
  rfl

theorem Screen.Shows.cur_lt (h : s.Shows t) : t.cur.length < 80 := by
  have hcol := h.coherent.col.2
  rw [h.col] at hcol
  omega

theorem cursorRow_lt (t : Text UInt8) : t.cursorRow 23 < 24 := by
  unfold Text.cursorRow
  omega

/-- One more cell in the row of the cursor. -/
theorem shows_update {cells : Int → UInt8} {row : List UInt8} {r n c : Nat} {a x : UInt8}
    (hc : c < 80) (hn : n < 80)
    (hcell : c ≠ n → ShowsCell (cells (cellAddr r c)) row[c]?)
    (hx : c = n → ShowsCell x row[c]?) (ha : x = a) :
    ShowsCell (Function.update cells (cellAddr r n) a (cellAddr r c)) row[c]? := by
  by_cases hcn : c = n
  · rw [hcn, Function.update_self, ← ha, ← hcn]
    exact hx hcn
  · rw [Function.update_of_ne fun heq => hcn (cellAddr_inj hc hn heq).2]
    exact hcell hcn

/-- A newline, with a scroll when the cursor is in the last row. -/
theorem Screen.Shows.newline (h : s.Shows t) : (s.putToScreen 10).Shows t.newline := by
  have hco := (h.coherent.put_iff 10).mpr ⟨by decide, by simp⟩
  by_cases hlast : s.vOffset = 23
  · have hput : s.putToScreen 10 = { s.scroll with hOffset := 0 } := by
      unfold Screen.putToScreen
      simp only [hlast, if_true, Screen.scroll]
    rw [hput] at hco ⊢
    have hfull : 23 ≤ t.lines.length := by
      have hrow := h.row
      rw [hlast] at hrow
      unfold Text.cursorRow at hrow
      omega
    have hrow : t.newline.cursorRow 23 = 23 := by
      simp only [Text.cursorRow, Text.newline, List.length_append, List.length_singleton]
      omega
    refine ⟨hco, rfl, ?_, ?_⟩
    · rw [hrow]
      exact hlast
    · intro r hr c hc
      by_cases hr23 : r = 23
      · have hempty : t.newline.row 23 23 = [] := by
          have hcursor := @Text.row_cursor _ 23 t.newline
          rwa [hrow] at hcursor
        rw [hr23, scroll_last s hc, hempty]
        exact Or.inl rfl
      · rw [Text.row_newline_full hfull (by omega), (scroll_cells s).2 r c (by omega) hc]
        exact h.cell (r + 1) (by omega) c hc
  · have hroom : t.lines.length < 23 := by
      have hrow := h.row
      unfold Text.cursorRow at hrow
      by_contra hcon
      exact hlast (by omega)
    have hput : s.putToScreen 10 =
        { s with pReg := video + 2 * (80 * (s.vOffset + 1)).toNat, hOffset := 0,
                 vOffset := s.vOffset + 1 } := by
      unfold Screen.putToScreen
      simp only [hlast, if_true, if_false]
    rw [hput] at hco ⊢
    refine ⟨hco, rfl, ?_, ?_⟩
    · simp only [h.row, Text.cursorRow, Text.newline, List.length_append, List.length_singleton]
      omega
    · intro r hr c hc
      rw [Text.row_newline hroom]
      exact h.cell r hr c hc

/-- A character that is not a newline. -/
theorem Screen.Shows.add (h : s.Shows t) {a : UInt8} (ha : a ≠ 10)
    (hsafe : CursorSafe s (.put a)) : (s.putToScreen a).Shows (t.add 80 a) := by
  have hco := (h.coherent.put_iff a).mpr hsafe
  have hlast : ¬ (s.hOffset = 79 ∧ s.vOffset = 23) := fun hcon => hsafe.2 ⟨ha, hcon⟩
  have hcur := h.cur_lt
  have hroom : t.cur.length + 1 = 80 → t.lines.length < 23 := by
    intro hfull
    by_contra hcon
    refine hlast ⟨by rw [h.col]; omega, ?_⟩
    rw [h.row]
    unfold Text.cursorRow
    omega
  rw [putToScreen_char ha hsafe.1 hlast] at hco ⊢
  refine ⟨hco, ?_, ?_, ?_⟩
  · simp only [h.col, Text.add]
    split_ifs with h79 hfull hfull
    · rfl
    · omega
    · omega
    · simp
  · simp only [h.col, h.row, Text.add]
    split_ifs with h79 hfull hfull
    · have hlt := hroom hfull
      simp only [Text.cursorRow, List.length_append, List.length_singleton]
      omega
    · omega
    · omega
    · rfl
  · intro r hr c hc
    rw [Text.row_add hroom]
    dsimp only
    rw [h.ptr]
    split_ifs with hrow
    · rw [hrow]
      refine shows_update hc hcur ?_ ?_ rfl
      · intro hne
        have hcell := h.cell _ (cursorRow_lt t) c hc
        rw [Text.row_cursor] at hcell
        by_cases hlt : c < t.cur.length
        · rwa [List.getElem?_append_left hlt]
        · rw [List.getElem?_eq_none (by simp; omega)]
          rwa [List.getElem?_eq_none (by omega)] at hcell
      · rintro rfl
        rw [List.getElem?_concat_length]
        rfl
    · rw [Function.update_of_ne fun heq => hrow (cellAddr_inj hc hcur heq).1]
      exact h.cell r hr c hc

theorem Screen.Shows.backspace (h : s.Shows t) : s.backspace.Shows t.erase := by
  have hco := h.coherent.backspace.1
  have hcur := h.cur_lt
  by_cases hzero : s.hOffset = 0
  · have hback : s.backspace = s := by
      unfold Screen.backspace
      exact if_pos hzero
    have hnil : t.cur = [] := by
      have hcol := h.col
      rw [hzero] at hcol
      exact List.eq_nil_of_length_eq_zero (by omega)
    have herase : t.erase = t := by
      unfold Text.erase
      rw [hnil, List.dropLast_nil, ← hnil]
    rw [hback, herase]
    exact h
  · have hpos : t.cur.length ≠ 0 := by
      have hcol := h.col
      omega
    have hput := putToScreen_char (s := { s with hOffset := s.hOffset - 1, pReg := s.pReg - 2 })
      (a := 32) (by decide) (by decide) (by simp only [h.col]; omega)
    have hback : s.backspace =
        { s with hOffset := s.hOffset - 1, pReg := s.pReg - 2,
                 cells := Function.update s.cells (s.pReg - 2) 32 } := by
      have h79 : ¬ s.hOffset - 1 = 79 := by
        rw [h.col]
        omega
      unfold Screen.backspace
      simp only [if_neg hzero, hput, if_neg h79, Screen.mk.injEq, and_true]
      exact ⟨by omega, by omega⟩
    rw [hback] at hco ⊢
    refine ⟨hco, ?_, h.row, ?_⟩
    · simp only [h.col, Text.erase, List.length_dropLast]
      omega
    · intro r hr c hc
      have hptr : s.pReg - 2 = cellAddr (t.cursorRow 23) (t.cur.length - 1) := by
        rw [h.ptr]
        unfold cellAddr
        omega
      rw [Text.row_erase]
      dsimp only
      rw [hptr]
      split_ifs with hrow
      · rw [hrow]
        refine shows_update hc (by omega) ?_ ?_ rfl
        · intro hne
          have hcell := h.cell _ (cursorRow_lt t) c hc
          rw [Text.row_cursor] at hcell
          rw [List.getElem?_dropLast]
          split_ifs with hlt
          · exact hcell
          · rwa [List.getElem?_eq_none (by omega)] at hcell
        · rintro rfl
          rw [List.getElem?_eq_none (by simp)]
          exact Or.inr rfl
      · rw [Function.update_of_ne fun heq => hrow (cellAddr_inj hc (by omega) heq).1]
        exact h.cell r hr c hc

/-- Safe output does to the screen what it does to the text. -/
theorem Screen.Shows.step (h : s.Shows t) {o : Output} (hsafe : CursorSafe s o) {s' : Screen}
    (hstep : s.step o = some s') : s'.Shows (textStep t o) := by
  cases o with
  | put a =>
      obtain rfl := Option.some.inj hstep
      simp only [textStep, Text.put]
      split_ifs with ha
      · rw [ha]
        exact h.newline
      · exact h.add ha hsafe
  | backspace =>
      obtain rfl := Option.some.inj hstep
      exact h.backspace
  | clrscr =>
      obtain rfl := Option.some.inj hstep
      exact s.clrscr_shows

end Text

/-- The loop writes the digits of the number, the last one first, and nothing else. -/
theorem clockLoop_spec (n : Nat) (cells : Int → UInt8) (reg : Int) {temp : Nat} (hn : temp ≤ n) :
    (∀ k d : Nat, (Nat.digits 10 temp)[k]? = some d →
      clockLoop n cells reg temp (reg - 2 * k) = UInt8.ofInt (48 + d)) ∧
    ∀ x, (∀ k : Nat, k < (Nat.digits 10 temp).length → x ≠ reg - 2 * k) →
      clockLoop n cells reg temp x = cells x := by
  induction n generalizing cells reg temp with
  | zero =>
      obtain rfl : temp = 0 := by omega
      exact ⟨by simp, fun _ _ => rfl⟩
  | succ n ih =>
      by_cases hpos : temp = 0
      · subst hpos
        exact ⟨by simp, fun _ _ => by simp [clockLoop]⟩
      · have hdiv : (temp : Int).tdiv 10 = (temp / 10 : Nat) := by
          rw [Int.tdiv_eq_ediv_of_nonneg (by omega)]
          rfl
        have hmod : (temp : Int).tmod 10 = (temp % 10 : Nat) := by
          rw [Int.tmod_eq_emod_of_nonneg (by omega)]
          rfl
        have hloop : clockLoop (n + 1) cells reg temp = clockLoop n
            (Function.update cells reg (UInt8.ofInt (48 + (temp % 10 : Nat)))) (reg - 2)
            (temp / 10 : Nat) := by
          rw [clockLoop, if_pos (by omega), hdiv, hmod]
        obtain ⟨hdigits, hrest⟩ := ih
          (Function.update cells reg (UInt8.ofInt (48 + (temp % 10 : Nat)))) (reg - 2)
          (show temp / 10 ≤ n by omega)
        rw [Nat.digits_def' (by decide) (by omega), hloop]
        refine ⟨?_, ?_⟩
        · intro k d hk
          cases k with
          | zero =>
              obtain rfl : temp % 10 = d := by simpa using hk
              rw [hrest _ fun k hk => by omega, show reg - 2 * ((0 : Nat) : Int) = reg by omega,
                Function.update_self]
          | succ k =>
              rw [show reg - 2 * ((k + 1 : Nat) : Int) = reg - 2 - 2 * (k : Int) by omega]
              exact hdigits k d (by simpa using hk)
        · intro x hx
          have hself := hx 0 (by simp)
          rw [hrest x, Function.update_of_ne (by omega)]
          intro k hk heq
          exact hx (k + 1) (by simpa using hk) (by omega)

section Clock

variable {c : Console} {p : Picture}

/-- An `int` has at most ten digits. -/
theorem digits_length_le {n : Nat} (hn : n < 2 ^ 31) : (Nat.digits 10 n).length ≤ 10 :=
  Nat.digits_length_le_iff (by decide) n |>.mpr (by omega)

/-- A second is over: the clock shows the new number, and the text stays. -/
theorem Console.Shows.second (h : c.Shows p) (hsafe : c.sec + 1 < 2 ^ 31) :
    c.tickSecond.Shows (p.step .second) := by
  have hsec : c.sec + 1 = (p.sec + 1 : Nat) := by
    rw [h.sec]
    rfl
  have hten : (Nat.digits 10 (p.sec + 1)).length ≤ 10 := digits_length_le (by omega)
  have haddr : ∀ k : Nat, k < 80 → video + 0xF9E - 2 * (k : Int) = cellAddr 24 (79 - k) := by
    intro k hk
    unfold cellAddr
    omega
  have hscreen : c.tickSecond.screen = { c.screen with
      cells := clockLoop (p.sec + 1) c.screen.cells (video + 0xF9E) (p.sec + 1 : Nat) } := by
    unfold Console.tickSecond
    rw [hsec]
    rfl
  obtain ⟨hdigits, hrest⟩ := clockLoop_spec (p.sec + 1) c.screen.cells (video + 0xF9E)
    (le_refl (p.sec + 1))
  refine ⟨?_, hsec, hsafe, ?_⟩
  · rw [hscreen]
    refine ⟨⟨h.text.coherent.col, h.text.coherent.row, h.text.coherent.ptr⟩, h.text.col,
      h.text.row, ?_⟩
    intro r hr col hcol
    dsimp only
    rw [hrest]
    · exact h.text.cell r hr col hcol
    · intro k hk heq
      rw [haddr k (by omega)] at heq
      have hrow := (cellAddr_inj hcol (by omega) heq).1
      omega
  · intro k hk
    rw [hscreen]
    dsimp only
    have hclock : (p.step .second).clock =
        (Nat.digits 10 (p.sec + 1)).map fun d : Nat => UInt8.ofInt (48 + (d : Int)) := rfl
    rw [hclock, List.getElem?_map]
    cases hd : (Nat.digits 10 (p.sec + 1))[k]? with
    | some d =>
        rw [← haddr k hk, hdigits k d hd]
        rfl
    | none =>
        rw [hrest]
        · -- an older clock was not longer
          have hlen := List.getElem?_eq_none_iff.mp hd
          have hold := h.clock k hk
          have hmono : (Nat.digits 10 p.sec).length ≤ (Nat.digits 10 (p.sec + 1)).length :=
            Nat.le_length_digits_le 10 _ _ (by omega)
          have hnone : p.clock[k]? = none := by
            refine List.getElem?_eq_none ?_
            unfold Picture.clock
            split_ifs
            · rw [List.length_map]
              omega
            · exact Nat.zero_le k
          rwa [hnone] at hold
        · intro j hj heq
          rw [haddr j (by omega)] at heq
          have hcol := (cellAddr_inj (by omega) (by omega) heq).2
          have hlen := List.getElem?_eq_none_iff.mp hd
          omega

/-- Output changes the text, and the clock only when it clears the screen. -/
theorem Console.Shows.output (h : c.Shows p) {o : Output} (hsafe : CursorSafe c.screen o)
    {s : Screen} (hstep : c.screen.step o = some s) :
    Console.Shows { c with screen := s } (p.step (.out o)) := by
  refine ⟨h.text.step hsafe hstep, h.sec, h.small, ?_⟩
  intro k hk
  by_cases hclear : o = .clrscr
  · subst hclear
    obtain rfl := Option.some.inj hstep
    dsimp only
    rw [clrscr_cells _ (by omega) (by omega)]
    have hnil : (p.step (.out .clrscr)).clock = [] := by
      simp [Picture.step, Picture.clock]
    rw [hnil]
    exact Or.inr rfl
  · have hclock : (p.step (.out o)).clock = p.clock := by
      simp [Picture.step, Picture.clock, hclear]
    dsimp only
    rw [h.text.coherent.last_row hsafe hclear hstep, hclock]
    exact h.clock k hk

theorem Console.Shows.step (h : c.Shows p) {e : Display} (hsafe : ConsoleSafe c e) {c' : Console}
    (hstep : c.step e = some c') : c'.Shows (p.step e) := by
  cases e with
  | out o =>
      obtain ⟨s, hs, rfl⟩ := Option.map_eq_some_iff.mp hstep
      exact h.output hsafe hs
  | second =>
      obtain rfl := Option.some.inj hstep
      exact h.second hsafe

end Clock

/-- The screen shows the text and the clock. After `clrscr`, whatever was on it
before, and any output that leaves the cursor coherent with seconds in between, the
first 24 rows are the last lines of the text in order, wrapped at 80 columns and
blank behind their ends, the cursor is where the text ends, and the last row is the
number of seconds in decimal, right-aligned, or blank when no second has ended since
the screen was cleared. -/
theorem console_shows (s : Screen) (sec : Nat) (hsec : sec < 2 ^ 31) (es : List Display)
    (c : Console)
    (hrun : Run Console.step ConsoleSafe { screen := s.clrscr, sec := sec } es c) :
    c.Shows (es.foldl Picture.step { text := .empty, sec := sec, ticked := false }) := by
  induction hrun with
  | nil =>
      refine ⟨s.clrscr_shows, rfl, by dsimp only; omega, ?_⟩
      intro k hk
      rw [clrscr_cells s (by omega) (by omega)]
      exact Or.inr rfl
  | snoc _ hok hstep ih =>
      rw [List.foldl_append, List.foldl_cons, List.foldl_nil]
      exact ih.step hok hstep

/-- An `A`, and then a second. -/
theorem console_shows_letter :
    ∃ c, Run Console.step ConsoleSafe { screen := bootScreen.clrscr, sec := 9 }
      [.out (.put 65), .second] c ∧
      c.Shows { text := { lines := [], cur := [65] }, sec := 10, ticked := true } := by
  have hput : Run Console.step ConsoleSafe { screen := bootScreen.clrscr, sec := 9 }
      ([] ++ [.out (.put 65)]) { screen := bootScreen.clrscr.putToScreen 65, sec := 9 } :=
    Run.nil.snoc ⟨by decide, by decide⟩ rfl
  have hsecond := hput.snoc (e := Display.second) (show (9 : Int) + 1 < 2 ^ 31 by decide) rfl
  exact ⟨_, hsecond, console_shows bootScreen 9 (by decide) _ _ hsecond⟩

end X86Kernel.Dev
