import X86Kernel.Lib.Lines
import X86Kernel.Shell.Tokens

/-!
What the shell does with a line (`sbush.c`): the pass that looks for a pipe, the pass
for the words, and the command. Only the parts of the state that a command can see
later are kept; what `cd`, `clear` and `pwd` do is elsewhere. `none` is an access
through NULL or outside of an array.
-/

namespace X86Kernel.Shell

open Lib

/-- The arguments, the prompt, and the commands that were forked: the line and whether
the shell has waited. -/
structure Sbush where
  args : Args
  prompt : List UInt8
  log : List (List UInt8 × Bool)

def cdName : List UInt8 := [99, 100]
def exportName : List UInt8 := [101, 120, 112, 111, 114, 116]
def clearName : List UInt8 := [99, 108, 101, 97, 114]
def pwdName : List UInt8 := [112, 119, 100]

def ps1Name : List UInt8 := [80, 83, 49]

def Args.deref (s : Args) (d : Nat) : Option (List UInt8) := (s.strs d).map s.str

namespace Sbush

def start : Sbush :=
  { args := initargs Args.start, prompt := [115, 98, 117, 115, 104], log := [] }

/-- `setvar`, whose arrays have three elements: with two `=` it stores into the
fourth. -/
def setvar (s : Sbush) : Option Sbush := do
  let v ← s.args.deref 1
  if v.count 61 < 2 then do
    let a ← setStringTokens v 61 (initargs { Args.start with isBackground := s.args.isBackground })
    let s := { s with args := { s.args with isBackground := a.isBackground } }
    let name ← a.deref 0
    if name = ps1Name then do
      let value ← a.deref 1
      if value.length < 100 then some { s with prompt := value } else none
    else some s
  else none

/-- `forkandExec` in the shell itself, where `fork` does not return 0. -/
def forkandExec (s : Sbush) (line : List UInt8) (pid : Int) : Sbush :=
  if pid < 0 then s
  else if s.args.isBackground = 1 then { s with log := s.log ++ [(line, false)] }
  else { s with log := s.log ++ [(line, true)] }

/-- `execCommand`, where `line` is the line that the command comes from. -/
def execCommand (s : Sbush) (line : List UInt8) (pid : Int) : Option Sbush := do
  let command ← s.args.deref 0
  if command = cdName then some s
  else if command = exportName then s.setvar
  else if command = clearName then some s
  else if command = pwdName then some s
  else some (s.forkandExec line pid)

def parseInput (s : Sbush) (line : List UInt8) (pid : Int) : Option Sbush := do
  let a ← setStringTokens line 124 s.args
  if a.strs 1 = none then do
    let a ← setStringTokens line 32 (clearArguments a)
    execCommand { s with args := a } line pid
  else some { s with args := a }

def clearLine (s : Sbush) : Sbush := { s with args := clearArguments s.args }

end Sbush

/-- The string that `args[d]` points to after a line was split into these fields. -/
def pointed (fs : List (List UInt8)) (d : Nat) : Option (List UInt8) :=
  (fs[d]?).bind fun f => if f = [38] ∨ f = [] ∧ d + 1 = fs.length then none else some f

def Piped (line : List UInt8) : Prop := pointed (fields 124 line) 1 ≠ none

/-- The fields of the argument of `export`. -/
def exportFields (v : List UInt8) : List (List UInt8) := fields 61 (v.filter (· ≠ 34))

/-- `export` with the argument `v` ends in an access that it must not make. -/
def ExportFails (v : List UInt8) : Prop :=
  2 ≤ v.count 61 ∨ pointed (exportFields v) 0 = none ∨
    pointed (exportFields v) 0 = some ps1Name ∧
      ∀ value, pointed (exportFields v) 1 = some value → 100 ≤ value.length

/-- The line ends in such an access: it has no command, or is an `export` without an
argument or with one that fails. -/
def Fails (line : List UInt8) : Prop :=
  ¬ Piped line ∧ (pointed (fields 32 line) 0 = none ∨
    pointed (fields 32 line) 0 = some exportName ∧
      ∀ v, pointed (fields 32 line) 1 = some v → ExportFails v)

/-- The line has an `&` that sets `isBackground`: between bars, among the words, or as
the value of an `export`. -/
def Marks (line : List UInt8) : Prop :=
  [38] ∈ fields 124 line ∨ ¬ Piped line ∧ ([38] ∈ fields 32 line ∨
    pointed (fields 32 line) 0 = some exportName ∧
      ∃ v, pointed (fields 32 line) 1 = some v ∧ [38] ∈ exportFields v)

def External (line : List UInt8) : Prop :=
  ¬ Piped line ∧ ∃ command, pointed (fields 32 line) 0 = some command ∧
    command ∉ [cdName, exportName, clearName, pwdName]

instance (line : List UInt8) : Decidable (Piped line) := inferInstanceAs (Decidable (_ ≠ _))

instance (line : List UInt8) : Decidable (Marks line) := inferInstanceAs (Decidable (_ ∨ _))

instance (line : List UInt8) : Decidable (External line) := inferInstanceAs (Decidable (_ ∧ _))

section Pointers

variable {s s' : Args} {fs : List (List UInt8)} {d : Nat}

/-- What the pointers point to, up to the NULL behind the last field. -/
theorem Filled.deref (h : Filled s s' 0 fs) (hfs : ∀ f ∈ fs, (0 : UInt8) ∉ f ∧ f.length < 1000)
    (hd : d ≤ fs.length) : s'.deref d = pointed fs d := by
  by_cases hlt : d < fs.length
  · have hf : fs[d]? = some fs[d] := List.getElem?_eq_getElem hlt
    rw [Args.deref, h.ptr hf, pointed, hf, Option.bind_some]
    split_ifs with hcase
    · rfl
    · rw [Option.map_some, h.str hfs hf]
  · obtain rfl : d = fs.length := by omega
    have hstop := h.stop
    rw [Nat.zero_add] at hstop
    rw [Args.deref, hstop, pointed, List.getElem?_eq_none (Nat.le_refl _)]
    rfl

theorem pointed_mem {v : List UInt8} (h : pointed fs d = some v) : v ∈ fs ∧ v ≠ [38] := by
  obtain ⟨f, hf, hsome⟩ := Option.bind_eq_some_iff.mp h
  split_ifs at hsome with hcase
  obtain rfl := Option.some.inj hsome
  exact ⟨List.mem_of_getElem? hf, fun hand => hcase (.inl hand)⟩

end Pointers

/-- In the argument of `export` the quotes are passed over. -/
theorem tokenLoop_quotes {rest : List UInt8} (hrest : (32 : UInt8) ∉ rest) (k k' i j : Nat)
    (s : Args) : tokenLoop 61 rest k i j s = tokenLoop 61 (rest.filter (· ≠ 34)) k' i j s := by
  induction rest generalizing k k' i j s with
  | nil => rfl
  | cons c rest ih =>
      simp only [List.mem_cons, not_or] at hrest
      have hskip : ∀ k : Nat, ¬ (k = 0 ∧ c = 32) := fun k h => hrest.1 h.2.symm
      by_cases hquote : c = 34
      · subst hquote
        rw [List.filter_cons_of_neg (by simp), tokenLoop, if_neg (by decide), if_neg (hskip k),
          if_neg (by decide), if_pos ⟨rfl, rfl⟩]
        exact ih hrest.2 (k + 1) k' i j s
      · rw [List.filter_cons_of_pos (by simpa using hquote)]
        simp only [tokenLoop, hskip, if_false, fun i j s => ih hrest.2 (k + 1) (k' + 1) i j s]

section Export

variable {s : Sbush} {v : List UInt8}

/-- The value of an `export` is split like a line, without its quotes. -/
theorem split_value (hspace : (32 : UInt8) ∉ v) (htext : (10 : UInt8) ∉ v ∧ (0 : UInt8) ∉ v)
    (hlen : v.length < 1000) (hcount : v.count 61 < 2) {a : Args} (hready : Ready a 0) :
    ∃ a', setStringTokens v 61 a = some a' ∧ Filled a a' 0 (exportFields v) ∧
      ∀ f ∈ exportFields v, (0 : UInt8) ∉ f ∧ f.length < 1000 := by
  have hmem : ∀ c ∈ v.filter (· ≠ 34), c ∈ v ∧ c ≠ 34 := fun c hc => by simpa using hc
  have hsame : setStringTokens v 61 a = setStringTokens (v.filter (· ≠ 34)) 61 a :=
    tokenLoop_quotes hspace 0 0 0 0 a
  have hshort : (v.filter (· ≠ 34)).length ≤ v.length := List.length_filter_le _ _
  have hfew : (trimmed (v.filter (· ≠ 34))).count 61 ≤ v.count 61 := by
    have hsub : (trimmed (v.filter (· ≠ 34))).Sublist v := by
      rw [trimmed]
      split_ifs
      · exact (List.drop_sublist _ _).trans List.filter_sublist
      · exact List.filter_sublist
    exact hsub.count_le 61
  rw [hsame]
  rcases @setStringTokens_cases 61 (by decide) _ (fun _ h => (hmem 34 h).2 rfl)
      ⟨fun h => htext.1 (hmem 10 h).1, fun h => htext.2 (hmem 0 h).1⟩ _ hready with
    ⟨-, hfull⟩ | ⟨a', hsome, hfilled, hfields⟩
  · omega
  · refine ⟨a', hsome, hfilled, fun f hf => ⟨fun hnul => ?_, hfields f hf⟩⟩
    exact htext.2 (hmem 0 ((fields_sublist hf).subset hnul)).1

/-- `export` fails, or sets the flag when the value is `&`. -/
theorem setvar_cases (hv : s.args.deref 1 = some v) (hspace : (32 : UInt8) ∉ v)
    (htext : (10 : UInt8) ∉ v ∧ (0 : UInt8) ∉ v) (hlen : v.length < 1000) :
    s.setvar = none ∧ ExportFails v ∨ ∃ t, s.setvar = some t ∧ ¬ ExportFails v ∧
      t.args.isBackground = (if [38] ∈ exportFields v then 1 else s.args.isBackground) ∧
      t.log = s.log := by
  rw [Sbush.setvar, hv]
  simp only [Option.bind_eq_bind, Option.bind_some]
  by_cases hcount : v.count 61 < 2
  · rw [if_pos hcount]
    obtain ⟨a, hsome, hfilled, hfields⟩ := split_value hspace htext hlen hcount
      (initargs_ready { Args.start with isBackground := s.args.isBackground })
    have hpos : 0 < (exportFields v).length := List.length_pos_of_ne_nil (List.splitOn_ne_nil _ _)
    have hname := hfilled.deref hfields (Nat.zero_le _)
    have hvalue := hfilled.deref hfields (d := 1) hpos
    have hback : a.isBackground = if [38] ∈ exportFields v then 1 else s.args.isBackground :=
      hfilled.background
    rw [hsome, Option.bind_some, hname, hvalue]
    cases h₀ : pointed (exportFields v) 0 with
    | none => exact .inl ⟨rfl, .inr (.inl h₀)⟩
    | some name =>
        rw [Option.bind_some]
        by_cases hps1 : name = ps1Name
        · subst hps1
          rw [if_pos rfl]
          cases h₁ : pointed (exportFields v) 1 with
          | none => exact .inl ⟨rfl, .inr (.inr ⟨h₀, by simp [h₁]⟩)⟩
          | some value =>
              rw [Option.bind_some]
              by_cases hroom : value.length < 100
              · rw [if_pos hroom]
                refine .inr ⟨_, rfl, ?_, hback, rfl⟩
                rintro (htwo | hnull | ⟨-, hlong⟩)
                · omega
                · simp [h₀] at hnull
                · exact absurd (hlong value h₁) (by omega)
              · refine .inl ⟨if_neg hroom, .inr (.inr ⟨h₀, fun w hw => ?_⟩)⟩
                obtain rfl : value = w := Option.some.inj (h₁.symm.trans hw)
                omega
        · rw [if_neg hps1]
          refine .inr ⟨_, rfl, ?_, hback, rfl⟩
          rintro (htwo | hnull | ⟨hsame, -⟩)
          · omega
          · simp [h₀] at hnull
          · exact hps1 (Option.some.inj (h₀.symm.trans hsame))
  · exact .inl ⟨if_neg hcount, .inl (by omega)⟩

end Export

section Line

variable {s : Sbush} {line : List UInt8}

def logged (s : Sbush) (line : List UInt8) (pid flag : Int) : List (List UInt8 × Bool) :=
  if External line ∧ 0 ≤ pid then s.log ++ [(line, decide (flag ≠ 1))] else s.log

theorem forkandExec_spec (s : Sbush) (line : List UInt8) (pid : Int) :
    (s.forkandExec line pid).args = s.args ∧ (s.forkandExec line pid).log =
      if 0 ≤ pid then s.log ++ [(line, decide (s.args.isBackground ≠ 1))] else s.log := by
  by_cases hneg : pid < 0
  · rw [Sbush.forkandExec, if_pos hneg, if_neg (by omega)]
    exact ⟨rfl, rfl⟩
  · have hpos : 0 ≤ pid := by omega
    rw [Sbush.forkandExec, if_neg hneg]
    by_cases hback : s.args.isBackground = 1
    · simp [hback, hpos]
    · simp [hback, hpos]

/-- The command of a line that was split at the spaces. -/
theorem execCommand_cases (pid : Int) (hpipe : ¬ Piped line)
    (htext : (10 : UInt8) ∉ line ∧ (0 : UInt8) ∉ line)
    (hargs : ∀ d ≤ (fields 32 line).length, s.args.deref d = pointed (fields 32 line) d)
    (hfields : ∀ f ∈ fields 32 line, f.length < 1000) :
    s.execCommand line pid = none ∧ Fails line ∨ ∃ t, s.execCommand line pid = some t ∧
      ¬ Fails line ∧ t.args.isBackground =
        (if pointed (fields 32 line) 0 = some exportName ∧
            ∃ v, pointed (fields 32 line) 1 = some v ∧ [38] ∈ exportFields v then 1
          else s.args.isBackground) ∧
      t.log = logged s line pid t.args.isBackground := by
  rw [Sbush.execCommand, hargs 0 (Nat.zero_le _)]
  cases hcommand : pointed (fields 32 line) 0 with
  | none => exact .inl ⟨rfl, hpipe, .inl hcommand⟩
  | some command =>
      simp only [Option.bind_eq_bind, Option.bind_some]
      by_cases hexport : command = exportName
      · subst hexport
        rw [if_neg (show exportName ≠ cdName by decide), if_pos rfl]
        have hexternal : ¬ External line := by
          rintro ⟨-, command, hsame, hnot⟩
          obtain rfl := Option.some.inj (hcommand.symm.trans hsame)
          exact hnot (by simp)
        have hone : s.args.deref 1 = pointed (fields 32 line) 1 :=
          hargs 1 (List.length_pos_of_ne_nil (List.splitOn_ne_nil _ _))
        cases hv : pointed (fields 32 line) 1 with
        | none =>
            rw [hv] at hone
            exact .inl ⟨by rw [Sbush.setvar, hone]; rfl, hpipe, .inr ⟨hcommand, by simp [hv]⟩⟩
        | some v =>
            rw [hv] at hone
            have hmem := (pointed_mem hv).1
            have hsub := (fields_sublist hmem).subset
            rcases setvar_cases hone (notMem_of_mem_splitOn hmem)
                ⟨fun h => htext.1 (hsub h), fun h => htext.2 (hsub h)⟩ (hfields v hmem) with
              ⟨hnone, hfails⟩ | ⟨t, hsome, hok, hback, hlog⟩
            · refine .inl ⟨hnone, hpipe, .inr ⟨hcommand, fun w hw => ?_⟩⟩
              obtain rfl := Option.some.inj (hv.symm.trans hw)
              exact hfails
            · refine .inr ⟨t, hsome, ?_, by simpa using hback, ?_⟩
              · rintro ⟨-, hnull | ⟨-, hall⟩⟩
                · simp [hcommand] at hnull
                · exact hok (hall v hv)
              · rw [logged, if_neg fun h => hexternal h.1, hlog]
      · have hfails : ¬ Fails line := by
          rintro ⟨-, hnull | ⟨hsame, -⟩⟩
          · simp [hcommand] at hnull
          · exact hexport (Option.some.inj (hcommand.symm.trans hsame))
        by_cases hbuiltin : command ∈ [cdName, exportName, clearName, pwdName]
        · have hexternal : ¬ External line := by
            rintro ⟨-, command', hsame, hnot⟩
            obtain rfl := Option.some.inj (hcommand.symm.trans hsame)
            exact hnot hbuiltin
          refine .inr ⟨s, ?_, hfails, by simp [hexport], ?_⟩
          · simp only [List.mem_cons, List.not_mem_nil, or_false] at hbuiltin
            rcases hbuiltin with rfl | rfl | rfl | rfl
            · rfl
            · exact absurd rfl hexport
            · rfl
            · rfl
          · rw [logged, if_neg fun h => hexternal h.1]
        · have hexternal : External line := ⟨hpipe, command, hcommand, hbuiltin⟩
          obtain ⟨hkeep, hlog⟩ := forkandExec_spec s line pid
          refine .inr ⟨s.forkandExec line pid, ?_, hfails, by simp [hexport, hkeep], ?_⟩
          · simp only [List.mem_cons, List.not_mem_nil, or_false, not_or] at hbuiltin
            obtain ⟨hcd, -, hclear, hpwd⟩ := hbuiltin
            rw [if_neg hcd, if_neg hexport, if_neg hclear, if_neg hpwd]
          · rw [hlog, logged, hkeep]
            simp only [hexternal, true_and]

/-- A line fails, or it sets the flag when it has an `&` in the right place, and an
external command is run as the flag says then. -/
theorem parseInput_cases (pid : Int) (htext : (10 : UInt8) ∉ line ∧ (0 : UInt8) ∉ line)
    (hready : Ready s.args 0) :
    s.parseInput line pid = none ∧ (Fails line ∨ 999 ≤ line.length) ∨
      ∃ t, s.parseInput line pid = some t ∧ ¬ Fails line ∧
        t.args.isBackground = (if Marks line then 1 else s.args.isBackground) ∧
        t.log = logged s line pid t.args.isBackground := by
  have hlong : ∀ delimiter : UInt8, (trimmed line).count delimiter ≤ line.length := by
    intro delimiter
    have hsub : (trimmed line).Sublist line := by
      rw [trimmed]
      split_ifs
      · exact List.drop_sublist _ _
      · exact List.Sublist.refl _
    exact Nat.le_trans List.count_le_length hsub.length_le
  have hnul : ∀ delimiter, ∀ f ∈ fields delimiter line, (0 : UInt8) ∉ f :=
    fun _ f hf hzero => htext.2 ((fields_sublist hf).subset hzero)
  rw [Sbush.parseInput]
  rcases @setStringTokens_cases 124 (by decide) line (by simp) htext _ hready with
    ⟨hnone, hfull⟩ | ⟨a, hsome, hfilled, hfields⟩
  · have hmany := hlong 124
    exact .inl ⟨by rw [hnone]; rfl, .inr (by omega)⟩
  · have hone := hfilled.deref (fun f hf => ⟨hnul 124 f hf, hfields f hf⟩) (d := 1)
      (List.length_pos_of_ne_nil (List.splitOn_ne_nil _ _))
    have hpipe : a.strs 1 = none ↔ ¬ Piped line := by
      rw [Piped, ← hone, Args.deref, not_not, Option.map_eq_none_iff]
    simp only [hsome, Option.bind_eq_bind, Option.bind_some]
    by_cases hp : Piped line
    · rw [if_neg fun h => hpipe.mp h hp]
      refine .inr ⟨_, rfl, fun h => h.1 hp, ?_, ?_⟩
      · rw [hfilled.background]
        simp only [Marks, hp, not_true_eq_false, false_and, or_false]
      · rw [logged, if_neg fun h => h.1.1 hp]
    · rw [if_pos (hpipe.mpr hp)]
      rcases @setStringTokens_cases 32 (by decide) line (by simp) htext _
          (clearArguments_ready a) with ⟨hnone, hfull⟩ | ⟨b, hsome₂, hfilled₂, hfields₂⟩
      · have hmany := hlong 32
        exact .inl ⟨by rw [hnone]; rfl, .inr (by omega)⟩
      · have hargs : ∀ d ≤ (fields 32 line).length, b.deref d = pointed (fields 32 line) d :=
          fun d hd => hfilled₂.deref (fun f hf => ⟨hnul 32 f hf, hfields₂ f hf⟩) hd
        have hback : b.isBackground = if [38] ∈ fields 32 line then 1 else a.isBackground :=
          hfilled₂.background
        rw [hsome₂, Option.bind_some]
        rcases execCommand_cases (s := { s with args := b }) pid hp htext hargs hfields₂
          with ⟨hnone, hfails⟩ | ⟨t, ht, hok, hflag, hlog⟩
        · exact .inl ⟨hnone, .inl hfails⟩
        · refine .inr ⟨t, ht, hok, ?_, hlog⟩
          rw [hflag, hback, hfilled.background]
          by_cases hbar : [38] ∈ fields 124 line
          · simp [Marks, hbar]
          · by_cases hword : [38] ∈ fields 32 line
            · simp [Marks, hp, hword]
            · simp only [Marks, hbar, hp, hword, not_false_eq_true, true_and, false_or, if_false]

end Line

end X86Kernel.Shell
