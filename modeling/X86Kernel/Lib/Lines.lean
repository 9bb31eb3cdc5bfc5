import Mathlib.Data.List.Infix
import Mathlib.Data.List.Count

/-!
A text whose lines end with a delimiter, and what is left behind the last of them.
-/

namespace X86Kernel.Lib

variable {α : Type*} [DecidableEq α] {d : α} {l w t : List α} {ls : List (List α)}

/-- The pieces of the text that end with the delimiter. -/
def endedLines (d : α) (t : List α) : List (List α) := (t.splitOn d).dropLast

/-- What is behind the last delimiter. -/
def leftover (d : α) (t : List α) : List α := (t.splitOn d).getLast (List.splitOn_ne_nil _ _)

def lines (d : α) (t : List α) : List (List α) :=
  if leftover d t = [] then endedLines d t else endedLines d t ++ [leftover d t]

def joined (d : α) (ls : List (List α)) : List α := ls.flatMap (· ++ [d])

/-- No piece has the delimiter in it. -/
theorem notMem_of_mem_splitOn (h : l ∈ t.splitOn d) : d ∉ l := by
  induction t generalizing l with
  | nil => simp_all
  | cons c t ih =>
      rw [List.splitOn_cons_eq_if_modifyHead] at h
      split_ifs at h with hc
      · obtain rfl | h := List.mem_cons.mp h
        · simp
        · exact ih h
      · cases hfs : t.splitOn d with
        | nil => exact absurd hfs (List.splitOn_ne_nil _ _)
        | cons g fs =>
            rw [hfs] at h ih
            obtain rfl | h := List.mem_cons.mp h
            · have hg := ih List.mem_cons_self
              simp only [List.mem_cons, not_or]
              exact ⟨fun h => hc (by simp [h]), hg⟩
            · exact ih (List.mem_cons_of_mem _ h)

/-- A text is a piece without delimiter, or such a piece, a delimiter and a text. -/
theorem lines_induction {motive : List α → Prop} (last : ∀ w, d ∉ w → motive w)
    (line : ∀ w t, d ∉ w → motive t → motive (w ++ d :: t)) (t : List α) : motive t := by
  suffices hfrom : ∀ w : List α, d ∉ w → motive (w ++ t) by simpa using hfrom [] (by simp)
  induction t with
  | nil => exact fun w hw => by simpa using last w hw
  | cons c t ih =>
      intro w hw
      by_cases hc : d = c
      · subst hc
        exact line w t hw (by simpa using ih [] (by simp))
      · rw [List.append_cons]
        exact ih (w ++ [c]) (by simp [hw, hc])

theorem endedLines_last (hw : d ∉ w) : endedLines d w = [] := by
  rw [endedLines, List.splitOn_eq_singleton hw]
  rfl

theorem leftover_last (hw : d ∉ w) : leftover d w = w := by
  simp [leftover, List.splitOn_eq_singleton hw]

theorem endedLines_line (hw : d ∉ w) (t : List α) :
    endedLines d (w ++ d :: t) = w :: endedLines d t := by
  rw [endedLines, List.splitOn_append_cons_self_of_not_mem hw,
    List.dropLast_cons_of_ne_nil (List.splitOn_ne_nil _ _), endedLines]

theorem leftover_line (hw : d ∉ w) (t : List α) : leftover d (w ++ d :: t) = leftover d t := by
  simp [leftover, List.splitOn_append_cons_self_of_not_mem hw]

theorem notMem_of_mem_lines (h : l ∈ lines d t) : d ∉ l := by
  rw [lines] at h
  split_ifs at h with hrest
  · exact notMem_of_mem_splitOn (List.mem_of_mem_dropLast h)
  · obtain h | h := List.mem_append.mp h
    · exact notMem_of_mem_splitOn (List.mem_of_mem_dropLast h)
    · rw [List.mem_singleton.mp h]
      exact notMem_of_mem_splitOn (List.getLast_mem _)

/-- A line that ended is part of the text. -/
theorem sublist_of_mem_endedLines (h : l ∈ endedLines d t) : l.Sublist t := by
  induction t using lines_induction (d := d) with
  | last w hw => simp [endedLines_last hw] at h
  | line w t hw ih =>
      rw [endedLines_line hw] at h
      obtain rfl | h := List.mem_cons.mp h
      · exact List.sublist_append_left _ _
      · exact ((ih h).trans (List.sublist_cons_self _ _)).trans (List.sublist_append_right _ _)

theorem length_endedLines (d : α) (t : List α) : (endedLines d t).length = t.count d := by
  induction t using lines_induction (d := d) with
  | last w hw => rw [endedLines_last hw, List.count_eq_zero_of_not_mem hw, List.length_nil]
  | line w t hw ih =>
      rw [endedLines_line hw, List.length_cons, ih, List.count_append, List.count_cons_self,
        List.count_eq_zero_of_not_mem hw]
      omega

/-- A text begins with these lines exactly when they are the first that end in it. -/
theorem joined_prefix_iff (hls : ∀ l ∈ ls, d ∉ l) : joined d ls <+: t ↔ ls <+: endedLines d t := by
  induction ls generalizing t with
  | nil => simp [joined]
  | cons l ls ih =>
      have hl := hls l List.mem_cons_self
      have hrest : ∀ l ∈ ls, d ∉ l := fun l h => hls l (List.mem_cons_of_mem _ h)
      have hjoined : joined d (l :: ls) = l ++ d :: joined d ls := by simp [joined]
      rw [hjoined]
      constructor
      · rintro ⟨more, rfl⟩
        rw [List.append_assoc, List.cons_append, endedLines_line hl, List.cons_prefix_cons,
          ← ih hrest]
        exact ⟨rfl, List.prefix_append _ _⟩
      · intro h
        induction t using lines_induction (d := d) with
        | last w hw => simp [endedLines_last hw] at h
        | line w t hw _ =>
            rw [endedLines_line hw, List.cons_prefix_cons] at h
            obtain ⟨rfl, h⟩ := h
            rw [List.prefix_append_right_inj, List.cons_prefix_cons]
            exact ⟨rfl, (ih hrest).mpr h⟩

end X86Kernel.Lib
