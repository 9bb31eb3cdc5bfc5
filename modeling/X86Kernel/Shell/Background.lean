import X86Kernel.Lib.Run
import X86Kernel.Shell.Commands

/-!
The main loop of the shell, line after line. Nothing ever sets `isBackground` back to
0: the functions that clear the line, the command and the arguments leave it as it is.
-/

namespace X86Kernel.Shell

open Lib

def exitName : List UInt8 := [101, 120, 105, 116]
def quitName : List UInt8 := [113, 117, 105, 116]

/-- One turn of the loop of `main`: a line, and what `fork` returns if it is called. -/
def Sbush.mainLoop (s : Sbush) (e : List UInt8 × Int) : Option Sbush :=
  if e.1 = [] then some s
  else if e.1 = exitName ∨ e.1 = quitName then none
  else (s.parseInput e.1 e.2).map Sbush.clearLine

/-- What `gets` reads into `input[1025]`, and a `fork` seen from the parent. -/
def FromParent (_ : Sbush) (e : List UInt8 × Int) : Prop :=
  ((10 : UInt8) ∉ e.1 ∧ (0 : UInt8) ∉ e.1) ∧ e.2 ≠ 0 ∧ e.1.length < 1025

instance (s : Sbush) (e : List UInt8 × Int) : Decidable (FromParent s e) :=
  inferInstanceAs (Decidable (_ ∧ _))

/-- The last word of the line is `&`. -/
def EndsInAmpersand (line : List UInt8) : Prop :=
  ((line.splitOn 32).filter (· ≠ [])).getLast? = some [38]

instance (line : List UInt8) : Decidable (EndsInAmpersand line) :=
  inferInstanceAs (Decidable (_ = _))

/-- The external commands of these lines, and which the shell waits for when the flag
was `b` before. -/
def modes : Bool → List (List UInt8 × Int) → List (List UInt8 × Bool)
  | _, [] => []
  | b, e :: es =>
      let b := b || decide (Marks e.1)
      (if External e.1 ∧ 0 ≤ e.2 then [(e.1, !b)] else []) ++ modes b es

/-- From the first line on that marks, every external command ends in `&`. -/
def AllBehindEnd (es : List (List UInt8 × Int)) : Prop :=
  ∀ before e after, es = before ++ e :: after → External e.1 → 0 < e.2 →
    (∃ d ∈ before ++ [e], Marks d.1) → EndsInAmpersand e.1

section Modes

variable {b : Bool} {es : List (List UInt8 × Int)} {e : List UInt8 × Int} {line : List UInt8}

theorem modes_snoc (b : Bool) (es : List (List UInt8 × Int)) (e : List UInt8 × Int) :
    modes b (es ++ [e]) = modes b es ++ (if External e.1 ∧ 0 ≤ e.2 then
      [(e.1, !(b || (es ++ [e]).any fun d => decide (Marks d.1)))] else []) := by
  induction es generalizing b with
  | nil => simp [modes]
  | cons d es ih =>
      simp only [List.cons_append, modes, ih, List.append_assoc, List.any_cons, Bool.or_assoc]

theorem mem_modes {c : List UInt8 × Bool} :
    c ∈ modes b es ↔ ∃ before e after, es = before ++ e :: after ∧ External e.1 ∧ 0 ≤ e.2 ∧
      c = (e.1, !(b || (before ++ [e]).any fun d => decide (Marks d.1))) := by
  induction es using List.reverseRecOn with
  | nil => simp [modes]
  | append_singleton es e ih =>
      rw [modes_snoc, List.mem_append, ih]
      constructor
      · rintro (⟨before, d, after, rfl, hext, hpid, hc⟩ | hc)
        · exact ⟨before, d, after ++ [e], by simp, hext, hpid, hc⟩
        · split_ifs at hc with hrun
          · exact ⟨es, e, [], rfl, hrun.1, hrun.2, List.mem_singleton.mp hc⟩
          · simp at hc
      · rintro ⟨before, d, after, hes, hext, hpid, hc⟩
        rcases List.eq_nil_or_concat after with rfl | ⟨after, f, rfl⟩
        · obtain ⟨rfl, rfl⟩ : es = before ∧ e = d := by simpa using hes
          exact .inr (by rw [if_pos ⟨hext, hpid⟩]; exact List.mem_singleton.mpr hc)
        · have hcat : before ++ d :: after.concat f = (before ++ d :: after) ++ [f] := by simp
          obtain ⟨rfl, hlast⟩ := List.append_inj' (hes.trans hcat) rfl
          exact .inl ⟨before, d, after, rfl, hext, hpid, hc⟩

/-- A line whose last word is `&` marks, unless it is taken for a pipe. -/
theorem marks_of_ends (hend : EndsInAmpersand line) (hpipe : ¬ Piped line) : Marks line := by
  have hmem := List.mem_of_getLast? hend
  rw [filter_fields, List.mem_filter] at hmem
  exact .inr ⟨hpipe, .inl hmem.1⟩

end Modes

section Runs

variable {es : List (List UInt8 × Int)} {t : Sbush}

/-- After a run the flag says whether any line has marked, and every command was run
as the flag was then. -/
theorem run_modes (hrun : Run Sbush.mainLoop FromParent Sbush.start es t) :
    Ready t.args 0 ∧
      t.args.isBackground = (if es.any fun d => decide (Marks d.1) then 1 else 0) ∧
      t.log = modes false es := by
  induction hrun with
  | nil => exact ⟨initargs_ready _, rfl, rfl⟩
  | @snoc es s t e _ hok hstep ih =>
      obtain ⟨hready, hflag, hlog⟩ := ih
      rw [Sbush.mainLoop] at hstep
      rw [modes_snoc, ← hlog]
      by_cases hempty : e.1 = []
      · have hmarks : ¬ Marks [] := by decide
        have hexternal : ¬ External [] := by decide
        rw [if_pos hempty] at hstep
        obtain rfl := Option.some.inj hstep
        refine ⟨hready, ?_, ?_⟩
        · rw [hflag, List.any_append]
          simp only [hempty, hmarks, List.any_cons, List.any_nil, decide_false, Bool.or_false]
        · rw [hempty, @if_neg (External [] ∧ 0 ≤ e.2) _ fun h => hexternal h.1, List.append_nil]
      · rw [if_neg hempty] at hstep
        split_ifs at hstep
        obtain ⟨u, hu, rfl⟩ := Option.map_eq_some_iff.mp hstep
        rcases parseInput_cases e.2 hok.1 hready with
          ⟨hnone, -⟩ | ⟨v, hv, -, hback, hlogged⟩
        · simp [hnone] at hu
        · obtain rfl : v = u := Option.some.inj (hv.symm.trans hu)
          have hnow : v.args.isBackground =
              if (es ++ [e]).any fun d => decide (Marks d.1) then 1 else 0 := by
            rw [hback, hflag, List.any_append]
            by_cases hmarks : Marks e.1
            · simp [hmarks]
            · simp only [hmarks, if_false, List.any_cons, List.any_nil, decide_false, Bool.or_false]
          refine ⟨clearArguments_ready _, hnow, ?_⟩
          change v.log = _
          rw [hlogged, logged, hnow, Bool.false_or]
          by_cases hext : External e.1 ∧ 0 ≤ e.2
          · rw [if_pos hext, if_pos hext]
            by_cases hany : (es ++ [e]).any fun d => decide (Marks d.1)
            · simp [hany]
            · simp [hany]
          · rw [if_neg hext, if_neg hext, List.append_nil]

theorem run_pids (hrun : Run Sbush.mainLoop FromParent Sbush.start es t) : ∀ e ∈ es, e.2 ≠ 0 := by
  induction hrun with
  | nil => simp
  | snoc _ hok _ ih =>
      intro d hd
      rcases List.mem_append.mp hd with hd | hd
      · exact ih d hd
      · rw [List.mem_singleton.mp hd]
        exact hok.2.1

/-- The property of every command of a run. -/
theorem modes_right_iff (hpids : ∀ e ∈ es, e.2 ≠ 0) :
    (∀ c ∈ modes false es, c.2 = false ↔ EndsInAmpersand c.1) ↔ AllBehindEnd es := by
  have hmarked : ∀ l : List (List UInt8 × Int),
      (!(false || l.any fun d => decide (Marks d.1))) = false ↔ ∃ d ∈ l, Marks d.1 := by
    intro l
    simp only [Bool.false_or, Bool.not_eq_false', List.any_eq_true, decide_eq_true_eq]
  constructor
  · intro hall before e after hes hext hpid hbehind
    have hmem : (e.1, _) ∈ modes false es :=
      mem_modes.mpr ⟨before, e, after, hes, hext, Int.le_of_lt hpid, rfl⟩
    exact (hall _ hmem).mp ((hmarked _).mpr hbehind)
  · intro hbehind c hc
    obtain ⟨before, e, after, hes, hext, hpid, rfl⟩ := mem_modes.mp hc
    have hpos : 0 < e.2 := by
      have hne := hpids e (by simp [hes])
      omega
    rw [hmarked]
    exact ⟨hbehind before e after hes hext hpos,
      fun hend => ⟨e, by simp, marks_of_ends hend hext.1⟩⟩

/-- Every external command is run in the background exactly when its own line ends in
`&`, if and only if every one that comes behind a line that marks, or marks itself,
ends in `&`. -/
theorem background_modes_iff (hrun : Run Sbush.mainLoop FromParent Sbush.start es t) :
    (∀ c ∈ t.log, c.2 = false ↔ EndsInAmpersand c.1) ↔ AllBehindEnd es := by
  rw [(run_modes hrun).2.2, modes_right_iff (run_pids hrun)]

end Runs

/-- `ls`, and then `sleep &`. -/
theorem background_modes_two : ∃ t, Run Sbush.mainLoop FromParent Sbush.start
    [([108, 115], 2), ([115, 108, 101, 101, 112, 32, 38], 3)] t ∧
      ((∀ c ∈ t.log, c.2 = false ↔ EndsInAmpersand c.1) ↔
        AllBehindEnd [([108, 115], 2), ([115, 108, 101, 101, 112, 32, 38], 3)]) := by
  have hsome : (exec Sbush.mainLoop Sbush.start
      [([108, 115], 2), ([115, 108, 101, 101, 112, 32, 38], 3)]).isSome := by decide
  obtain ⟨t, ht⟩ := Option.isSome_iff_exists.mp hsome
  have hlines : ∀ e ∈ [([108, 115], 2), ([115, 108, 101, 101, 112, 32, 38], 3)],
      FromParent Sbush.start e := by decide
  have hrun := @Run.exec _ _ _ FromParent _ _ _ ht fun _ e he => hlines e he
  exact ⟨t, hrun, background_modes_iff hrun⟩

/-- After `sleep &` the shell does not wait for `ls` either. -/
theorem background_stays :
    ¬ ∀ (es : List (List UInt8 × Int)) (t : Sbush), Run Sbush.mainLoop FromParent Sbush.start es t →
      ∀ c ∈ t.log, c.2 = false ↔ EndsInAmpersand c.1 := by
  intro h
  have hlog : (exec Sbush.mainLoop Sbush.start
      [([115, 108, 101, 101, 112, 32, 38], 2), ([108, 115], 3)]).map Sbush.log =
        some [([115, 108, 101, 101, 112, 32, 38], false), ([108, 115], false)] := by decide
  obtain ⟨t, ht, hlog⟩ := Option.map_eq_some_iff.mp hlog
  have hlines : ∀ e ∈ [([115, 108, 101, 101, 112, 32, 38], 2), ([108, 115], 3)],
      FromParent Sbush.start e := by decide
  have hrun := @Run.exec _ _ _ FromParent _ _ _ ht fun _ e he => hlines e he
  have hls := (h _ t hrun ([108, 115], false) (by simp [hlog])).mp rfl
  exact absurd hls (by decide)

end X86Kernel.Shell
