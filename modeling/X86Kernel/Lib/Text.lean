import Mathlib.Data.List.GetD
import Mathlib.Tactic.SplitIfs

/-!
Text on a screen of fixed width and height. Printing appends to the last line,
which is complete at a newline or when it is as long as the screen is wide; the
screen shows the last lines, the one with the cursor at the bottom when there are
more than it has rows.
-/

namespace X86Kernel.Lib

structure Text (α : Type*) where
  lines : List (List α)
  cur : List α

namespace Text

variable {α : Type*}

def empty : Text α := { lines := [], cur := [] }

def newline (t : Text α) : Text α := { lines := t.lines ++ [t.cur], cur := [] }

def add (width : Nat) (t : Text α) (a : α) : Text α :=
  if t.cur.length + 1 = width then { lines := t.lines ++ [t.cur ++ [a]], cur := [] }
  else { t with cur := t.cur ++ [a] }

def put [DecidableEq α] (width : Nat) (nl : α) (t : Text α) (a : α) : Text α :=
  if a = nl then t.newline else t.add width a

def erase (t : Text α) : Text α := { t with cur := t.cur.dropLast }

def print [DecidableEq α] (width : Nat) (nl : α) (t : Text α) (s : List α) : Text α :=
  s.foldl (put width nl) t

def cursorRow (last : Nat) (t : Text α) : Nat := min t.lines.length last

def row (last : Nat) (t : Text α) (r : Nat) : List α :=
  (t.lines ++ [t.cur]).getD (t.lines.length - last + r) []

variable {last width r : Nat} {t : Text α} {a : α}

/-- A row with a complete line. -/
theorem row_of_lt (h : r < t.cursorRow last) :
    t.row last r = t.lines.getD (t.lines.length - last + r) [] := by
  unfold cursorRow at h
  exact List.getD_append _ _ _ _ (by omega)

theorem row_cursor : t.row last (t.cursorRow last) = t.cur := by
  unfold row cursorRow
  rw [List.getD_append_right _ _ _ _ (by omega),
    show t.lines.length - last + min t.lines.length last - t.lines.length = 0 by omega]
  rfl

theorem row_below (h : t.cursorRow last < r) : t.row last r = [] := by
  unfold cursorRow at h
  refine List.getD_eq_default _ _ ?_
  rw [List.length_append, List.length_singleton]
  omega

/-- Texts with the same complete lines differ in the row of the cursor only. -/
theorem row_setCur (cur : List α) (r : Nat) :
    ({ t with cur := cur } : Text α).row last r =
      if r = t.cursorRow last then cur else t.row last r := by
  split_ifs with hr
  · rw [hr]
    exact @row_cursor α last { t with cur := cur }
  · obtain hlt | hgt := Nat.lt_or_gt_of_ne hr
    · rw [row_of_lt hlt]
      exact @row_of_lt α last r { t with cur := cur } hlt
    · rw [row_below hgt]
      exact @row_below α last r { t with cur := cur } hgt

/-- A newline on a screen with a free row. -/
theorem row_newline (h : t.lines.length < last) (r : Nat) :
    t.newline.row last r = t.row last r := by
  have hsub : t.lines.length - last = 0 := by omega
  have hsub' : t.lines.length + 1 - last = 0 := by omega
  simp only [row, newline, List.length_append, List.length_singleton, hsub, hsub', Nat.zero_add]
  by_cases hr : r < t.lines.length + 1
  · exact List.getD_append _ _ _ _ (by simpa using hr)
  · have hlen : (t.lines ++ [t.cur]).length ≤ r := by
      rw [List.length_append, List.length_singleton]
      omega
    rw [List.getD_append_right _ _ _ _ hlen, List.getD_eq_default _ _ hlen]
    cases r - (t.lines ++ [t.cur]).length <;> rfl

/-- A newline on a full screen moves every line up. -/
theorem row_newline_full (h : last ≤ t.lines.length) (hr : r < last) :
    t.newline.row last r = t.row last (r + 1) := by
  simp only [row, newline, List.length_append, List.length_singleton]
  rw [show t.lines.length + 1 - last + r = t.lines.length - last + (r + 1) by omega]
  refine List.getD_append _ _ _ _ ?_
  rw [List.length_append, List.length_singleton]
  omega

/-- A character in a line that it does not complete, or below which there is a free
row, changes the row of the cursor only. -/
theorem row_add (hroom : t.cur.length + 1 = width → t.lines.length < last) (r : Nat) :
    (t.add width a).row last r =
      if r = t.cursorRow last then t.cur ++ [a] else t.row last r := by
  rw [← row_setCur]
  unfold add
  split_ifs with hfull
  · -- the line is complete, in the same place
    exact @row_newline α last { t with cur := t.cur ++ [a] } (hroom hfull) r
  · rfl

theorem row_erase (r : Nat) :
    t.erase.row last r = if r = t.cursorRow last then t.cur.dropLast else t.row last r :=
  row_setCur _ r

/-- A character that has just been printed can be taken back, unless it has moved
the cursor to another line. -/
theorem erase_put [DecidableEq α] {nl : α} (h : (t.put width nl a).cur ≠ []) :
    (t.put width nl a).erase = t := by
  unfold put add newline at *
  split_ifs at * with hnl hfull
  · exact absurd rfl h
  · exact absurd rfl h
  · simp [erase]

end Text

end X86Kernel.Lib
