import X86Kernel.Lib.Run
import X86Kernel.Lib.Chain

/-!
The text screen of `kprintf.c`. Three variables say where the next character
goes: the pointer `p_reg` into video memory and the position `h_offset`,
`v_offset`. They agree until a carriage return, or a character in the last
column of the last row, moves one and not the others.
-/

namespace X86Kernel.Dev

open Lib

/-- The start of video memory, `0xffffffff800b8000`. -/
def video : Int := 0xffffffff800b8000

/-- The static variables, and memory around the screen. -/
structure Screen where
  pReg : Int
  hOffset : Int
  vOffset : Int
  cells : Int → UInt8

namespace Screen

/-- The nested loops of `scroll`: every row gets the row below it. -/
def scrollRows (cells : Int → UInt8) : Int → UInt8 :=
  (List.range 24).foldl (fun c i => (List.range 80).foldl (fun c j =>
    Function.update c (video + ((i * 160 + 2 * j : Nat) : Int))
      (c (video + (((i + 1) * 160 + 2 * j : Nat) : Int)))) c) cells

/-- The last loop of `scroll`. -/
def blankRow (cells : Int → UInt8) : Int → UInt8 :=
  (List.range 80).foldl (fun c j =>
    Function.update c (video + ((160 * 23 + 2 * j : Nat) : Int)) 0) cells

def scroll (s : Screen) : Screen :=
  { s with cells := blankRow (scrollRows s.cells), pReg := video + 160 * 23 }

/-- `put_to_screen`. The loops that move `p_reg` down are one product here. -/
def putToScreen (s : Screen) (a : UInt8) : Screen :=
  if a = 10 then
    let s := { s with pReg := video + 2 * (80 * (s.vOffset + 1)).toNat }
    let s := if s.vOffset = 23 then s.scroll else { s with vOffset := s.vOffset + 1 }
    { s with hOffset := 0 }
  else
    let s := if a = 13 then
        { s with pReg := video + 2 * (80 * s.vOffset).toNat, hOffset := 0 }
      else { s with cells := Function.update s.cells s.pReg a, pReg := s.pReg + 2 }
    if s.hOffset = 79 then
      if s.vOffset = 23 then { s.scroll with pReg := video + 160 * 22, hOffset := 0 }
      else { s with vOffset := s.vOffset + 1, hOffset := 0 }
    else { s with hOffset := s.hOffset + 1 }

def backspace (s : Screen) : Screen :=
  if s.hOffset = 0 then s
  else
    let s := { s with hOffset := s.hOffset - 1, pReg := s.pReg - 2 }
    let s := s.putToScreen 32
    { s with hOffset := s.hOffset - 1, pReg := s.pReg - 2 }

/-- `clrscr`. The attribute is stored before the character it was meant for, so
the first store is below video memory. -/
def clrscr (s : Screen) : Screen :=
  let cells := (List.range (25 * 80)).foldl (fun c n =>
    Function.update (Function.update c (video + 2 * (n : Int)) 32)
      (video + 2 * (n : Int) - 1) 7) s.cells
  { cells := cells, pReg := video, hOffset := 0, vOffset := 0 }

end Screen

inductive Output where
  | put (a : UInt8)
  | backspace
  | clrscr
  deriving DecidableEq

def Screen.step (s : Screen) : Output → Option Screen
  | .put a => some (s.putToScreen a)
  | .backspace => some s.backspace
  | .clrscr => some s.clrscr

/-- The variables as the kernel starts; memory is whatever it is. -/
def ScreenStart (s : Screen) : Prop := s.pReg = video ∧ s.hOffset = 0 ∧ s.vOffset = 0

def cellAddr (row col : Nat) : Int := video + 160 * row + 2 * col

structure Screen.Coherent (s : Screen) : Prop where
  col : 0 ≤ s.hOffset ∧ s.hOffset ≤ 79
  row : 0 ≤ s.vOffset ∧ s.vOffset ≤ 23
  ptr : s.pReg = video + 160 * s.vOffset + 2 * s.hOffset

/-- No carriage return, and no character in the last column of row 23. -/
def CursorSafe (s : Screen) : Output → Prop
  | .put a => a ≠ 13 ∧ ¬ (a ≠ 10 ∧ s.hOffset = 79 ∧ s.vOffset = 23)
  | _ => True

instance (s : Screen) (o : Output) : Decidable (CursorSafe s o) := by
  cases o <;> unfold CursorSafe <;> infer_instance

/-- What was printed before the cursor is where it was, or one row higher after
the screen has scrolled. -/
def Screen.Kept (s t : Screen) : Prop :=
  ∃ up ≤ 1, ∀ row col : Nat, up ≤ row → row < 24 → col < 80 →
    (row < s.vOffset ∨ row = s.vOffset ∧ col < s.hOffset) →
    t.cells (cellAddr (row - up) col) = s.cells (cellAddr row col)

def InRows (x : Int) : Prop := ∃ row col : Nat, row < 24 ∧ col < 80 ∧ x = cellAddr row col

def shifted (cells : Int → UInt8) (n : Nat) : Int → UInt8 := fun x =>
  if video ≤ x ∧ x < video + 2 * n ∧ (x - video) % 2 = 0 then cells (x + 160) else cells x

theorem shifted_succ (cells : Int → UInt8) (n : Nat) :
    Function.update (shifted cells n) (video + 2 * (n : Int))
      (shifted cells n (video + 2 * (n : Int) + 160)) = shifted cells (n + 1) := by
  funext x
  by_cases hx : x = video + 2 * n
  · subst hx
    rw [Function.update_self]
    unfold shifted
    rw [if_neg (by omega), if_pos (by push_cast; omega)]
  · rw [Function.update_of_ne hx]
    unfold shifted
    by_cases hin : video ≤ x ∧ x < video + 2 * n ∧ (x - video) % 2 = 0
    · rw [if_pos hin, if_pos (by push_cast; omega)]
    · rw [if_neg hin, if_neg (by push_cast; omega)]

theorem scrollRows_eq (cells : Int → UInt8) :
    Screen.scrollRows cells = shifted cells (24 * 80) := by
  have hzero : shifted cells 0 = cells := by
    funext x
    exact if_neg (by push_cast; omega)
  refine foldl_range_invariant (P := fun i c => c = shifted cells (i * 80)) (by simp [hzero]) ?_
  rintro i c - rfl
  refine foldl_range_invariant (n := 80)
    (P := fun j c => c = shifted cells (i * 80 + j)) rfl ?_ |>.trans
    (by rw [Nat.add_mul, Nat.one_mul])
  rintro j c - rfl
  have haddr :
      video + ((i * 160 + 2 * j : Nat) : Int) = video + 2 * ((i * 80 + j : Nat) : Int) := by
    omega
  have hnext : video + (((i + 1) * 160 + 2 * j : Nat) : Int) =
      video + 2 * ((i * 80 + j : Nat) : Int) + 160 := by
    omega
  simp only [haddr, hnext]
  exact shifted_succ cells (i * 80 + j)

/-- The last row is blank and the others are untouched. -/
theorem blankRow_apply (cells : Int → UInt8) (x : Int) :
    Screen.blankRow cells x = cells x ∨ ∃ col : Nat, col < 80 ∧ x = cellAddr 23 col := by
  refine foldl_range_invariant (P := fun j (c : Int → UInt8) => c x = cells x ∨
    ∃ col : Nat, col < 80 ∧ x = cellAddr 23 col) (Or.inl rfl) ?_
  rintro j c hj (hc | hrow)
  · by_cases hx : x = video + ((160 * 23 + 2 * j : Nat) : Int)
    · refine Or.inr ⟨j, hj, ?_⟩
      rw [hx]
      unfold cellAddr
      omega
    · rw [Function.update_of_ne hx]
      exact Or.inl hc
  · exact Or.inr hrow

/-- What `scroll` changes lies in the first 24 rows, and every row but the last
gets the row below it. -/
theorem scroll_cells (s : Screen) :
    (∀ x, s.scroll.cells x ≠ s.cells x → InRows x) ∧
      ∀ row col : Nat, row < 23 → col < 80 →
        s.scroll.cells (cellAddr row col) = s.cells (cellAddr (row + 1) col) := by
  have hcells : s.scroll.cells = Screen.blankRow (shifted s.cells (24 * 80)) := by
    rw [← scrollRows_eq]
    rfl
  refine ⟨?_, ?_⟩
  · intro x hx
    rw [hcells] at hx
    obtain hsame | ⟨col, hcol, rfl⟩ := blankRow_apply (shifted s.cells (24 * 80)) x
    · rw [hsame] at hx
      unfold shifted at hx
      split_ifs at hx with hin
      · refine ⟨(x - video).toNat / 160, (x - video).toNat % 160 / 2, by omega, by omega, ?_⟩
        unfold cellAddr
        omega
      · exact absurd rfl hx
    · exact ⟨23, col, by omega, hcol, rfl⟩
  · intro row col hrow hcol
    rw [hcells]
    obtain hsame | ⟨col', hcol', haddr⟩ :=
      blankRow_apply (shifted s.cells (24 * 80)) (cellAddr row col)
    · rw [hsame]
      unfold shifted cellAddr
      rw [if_pos (by omega)]
      congr 1
      omega
    · unfold cellAddr at haddr
      omega

/-- A character is stored in the cell under the cursor. -/
theorem Screen.Coherent.inRows {s : Screen} (h : s.Coherent) : InRows s.pReg := by
  obtain ⟨hcol, hrow, hptr⟩ := h
  refine ⟨s.vOffset.toNat, s.hOffset.toNat, by omega, by omega, ?_⟩
  rw [hptr]
  unfold cellAddr
  omega

/-- Nothing printed before the cursor is in the cell under it. -/
theorem Screen.Coherent.ptr_ne {s : Screen} (h : s.Coherent) {row col : Nat} (hcol : col < 80)
    (hbefore : row < s.vOffset ∨ row = s.vOffset ∧ col < s.hOffset) :
    cellAddr row col ≠ s.pReg := by
  obtain ⟨hcol', hrow', hptr⟩ := h
  rw [hptr]
  unfold cellAddr
  omega

/-- A character that is neither a newline nor a carriage return, not in the
last cell. -/
theorem putToScreen_char {s : Screen} {a : UInt8} (ha : a ≠ 10) (ha' : a ≠ 13)
    (hlast : ¬ (s.hOffset = 79 ∧ s.vOffset = 23)) :
    s.putToScreen a =
      { pReg := s.pReg + 2
        hOffset := if s.hOffset = 79 then 0 else s.hOffset + 1
        vOffset := if s.hOffset = 79 then s.vOffset + 1 else s.vOffset
        cells := Function.update s.cells s.pReg a } := by
  unfold Screen.putToScreen
  simp only [if_neg ha, if_neg ha']
  by_cases hcol : s.hOffset = 79
  · have hrow : s.vOffset ≠ 23 := fun hcon => hlast ⟨hcol, hcon⟩
    simp [hcol, hrow]
  · simp [hcol]

/-- `put_to_screen` keeps the variables together exactly when it is safe. -/
theorem Screen.Coherent.put_iff {s : Screen} (h : s.Coherent) (a : UInt8) :
    (s.putToScreen a).Coherent ↔ CursorSafe s (.put a) := by
  obtain ⟨hcol, hrow, hptr⟩ := h
  by_cases ha : a = 10
  · subst ha
    refine ⟨fun _ => ⟨by decide, by simp⟩, fun _ => ?_⟩
    unfold Screen.putToScreen
    by_cases hlast : s.vOffset = 23
    · simp only [hlast, if_true, Screen.scroll]
      exact ⟨by simp, by simp, by simp⟩
    · simp only [hlast, if_false, if_true]
      refine ⟨by simp, ?_, ?_⟩
      · simp only
        omega
      · simp only
        omega
  · by_cases ha' : a = 13
    · subst ha'
      refine ⟨?_, fun hcon => absurd rfl hcon.1⟩
      intro hco
      have hptr' := hco.ptr
      have hafter : (s.putToScreen 13).pReg = video + 2 * (80 * s.vOffset).toNat ∧
          (s.putToScreen 13).hOffset = 1 ∧ (s.putToScreen 13).vOffset = s.vOffset := by
        unfold Screen.putToScreen
        simp
      omega
    · by_cases hlast : s.hOffset = 79 ∧ s.vOffset = 23
      · refine ⟨?_, fun hcon => absurd ⟨ha, hlast⟩ hcon.2⟩
        intro hco
        have hptr' := hco.ptr
        have hafter : (s.putToScreen a).pReg = video + 160 * 22 ∧
            (s.putToScreen a).hOffset = 0 ∧ (s.putToScreen a).vOffset = 23 := by
          unfold Screen.putToScreen
          simp [ha, ha', hlast, Screen.scroll]
        omega
      · refine ⟨fun _ => ⟨ha', fun hcon => hlast hcon.2⟩, fun _ => ?_⟩
        rw [putToScreen_char ha ha' hlast]
        split_ifs with h79
        · exact ⟨by simp, by simp only; omega, by simp only; omega⟩
        · exact ⟨by simp only; omega, hrow, by simp only; omega⟩

/-- What a safe `put_to_screen` writes, and what it keeps. -/
theorem Screen.Coherent.put_cells {s : Screen} (h : s.Coherent) {a : UInt8}
    (hsafe : CursorSafe s (.put a)) :
    (∀ x, (s.putToScreen a).cells x ≠ s.cells x → InRows x) ∧ s.Kept (s.putToScreen a) := by
  by_cases ha : a = 10
  · subst ha
    unfold Screen.putToScreen
    by_cases hlast : s.vOffset = 23
    · simp only [hlast, if_true]
      obtain ⟨hrows, hmove⟩ := scroll_cells s
      refine ⟨hrows, 1, Nat.le_refl 1, ?_⟩
      intro row col hup hrow hcol _
      have hcell := hmove (row - 1) col (by omega) hcol
      rw [Nat.sub_add_cancel hup] at hcell
      exact hcell
    · simp only [hlast, if_false, if_true]
      exact ⟨fun x hx => absurd rfl hx, 0, by omega, fun _ _ _ _ _ _ => rfl⟩
  · rw [putToScreen_char ha hsafe.1 (fun hcon => hsafe.2 ⟨ha, hcon⟩)]
    refine ⟨?_, 0, by omega, ?_⟩
    · intro x hx
      by_cases hxp : x = s.pReg
      · rw [hxp]
        exact h.inRows
      · exact absurd (Function.update_of_ne hxp _ _) hx
    · intro row col _ _ hcol hbefore
      exact Function.update_of_ne (h.ptr_ne hcol hbefore) _ _

theorem Screen.Coherent.backspace {s : Screen} (h : s.Coherent) :
    s.backspace.Coherent ∧ ∀ x, s.backspace.cells x ≠ s.cells x → InRows x := by
  unfold Screen.backspace
  split_ifs with hzero
  · exact ⟨h, fun x hx => absurd rfl hx⟩
  · obtain ⟨hcol, hrow, hptr⟩ := h
    have hback : Screen.Coherent { s with hOffset := s.hOffset - 1, pReg := s.pReg - 2 } :=
      ⟨by simp only; omega, hrow, by simp only; omega⟩
    have hput := putToScreen_char (s := { s with hOffset := s.hOffset - 1, pReg := s.pReg - 2 })
      (a := 32) (by decide) (by decide) (by simp only; omega)
    have h79 : ¬ s.hOffset - 1 = 79 := by omega
    simp only [hput, if_neg h79]
    refine ⟨⟨by simp only; omega, hrow, by simp only; omega⟩, ?_⟩
    intro x hx
    by_cases hxp : x = s.pReg - 2
    · rw [hxp]
      exact hback.inRows
    · exact absurd (Function.update_of_ne hxp _ _) hx

/-- One call from a coherent state. -/
theorem Screen.Coherent.step_iff {s t : Screen} {e : Output} (h : s.Coherent)
    (hstep : s.step e = some t) : t.Coherent ↔ CursorSafe s e := by
  cases e with
  | put a =>
      obtain rfl := Option.some.inj hstep
      exact h.put_iff a
  | backspace =>
      obtain rfl := Option.some.inj hstep
      exact iff_of_true h.backspace.1 trivial
  | clrscr =>
      obtain rfl := Option.some.inj hstep
      exact iff_of_true ⟨by simp [Screen.clrscr], by simp [Screen.clrscr], by simp [Screen.clrscr]⟩
        trivial

/-- The text cursor stays coherent as long as there is no carriage return and
no character in the last column of row 23. In every state such output reaches
the three variables agree; the next call leaves them so exactly when it is of
that kind; then it writes into the first 24 rows only, unless it clears the
screen, and a character overwrites nothing printed before it. -/
theorem cursor_coherent (s : Screen) (h : Reachable Screen.step CursorSafe ScreenStart s) :
    s.Coherent ∧ ∀ e t, s.step e = some t →
      (t.Coherent ↔ CursorSafe s e) ∧
      (CursorSafe s e → e ≠ .clrscr → ∀ x, t.cells x ≠ s.cells x → InRows x) ∧
      ∀ a, e = .put a → CursorSafe s e → s.Kept t := by
  have hco : s.Coherent := by
    refine h.invariant (P := Screen.Coherent) ?_ (fun a e b ha hok hstep =>
      (ha.step_iff hstep).mpr hok)
    rintro s ⟨hptr, hcol, hrow⟩
    exact ⟨by omega, by omega, by omega⟩
  refine ⟨hco, ?_⟩
  intro e t hstep
  refine ⟨hco.step_iff hstep, ?_, ?_⟩
  · intro hsafe hclear
    cases e with
    | put a =>
        obtain rfl := Option.some.inj hstep
        exact (hco.put_cells hsafe).1
    | backspace =>
        obtain rfl := Option.some.inj hstep
        exact hco.backspace.2
    | clrscr => exact absurd rfl hclear
  · rintro a rfl hsafe
    obtain rfl := Option.some.inj hstep
    exact (hco.put_cells hsafe).2

def bootScreen : Screen := { pReg := video, hOffset := 0, vOffset := 0, cells := fun _ => 0 }

/-- The screen after the first character. -/
theorem cursor_coherent_letter :
    ∃ s, Reachable Screen.step CursorSafe ScreenStart s ∧ s.hOffset = 1 ∧ s.Coherent := by
  have hstart : Reachable Screen.step CursorSafe ScreenStart bootScreen := .start ⟨rfl, rfl, rfl⟩
  have hput := hstart.next (e := Output.put 65) ⟨by decide, by decide⟩ rfl
  exact ⟨_, hput, by decide, (cursor_coherent _ hput).1⟩

/-- A carriage return at the start of a row moves `h_offset` only. -/
theorem carriage_return_splits_cursor :
    ¬ ∀ s, Reachable Screen.step (fun _ _ => True) ScreenStart s →
      s.pReg = video + 160 * s.vOffset + 2 * s.hOffset := by
  intro hall
  have hstart : Reachable Screen.step (fun _ _ => True) ScreenStart bootScreen :=
    .start ⟨rfl, rfl, rfl⟩
  have hptr := hall _ (hstart.next (e := Output.put 13) trivial rfl)
  revert hptr
  decide

end X86Kernel.Dev
