import X86Kernel.Fs.Chdir
import X86Kernel.Shell.Background
import X86Kernel.Dev.Console

/-!
A session of the shell (`sbush.c`), from `main` on: the prompt, the commands that the
shell executes itself, and what it prints. A session is what somebody expects who
knows nothing but the names of the directories.
-/

namespace X86Kernel.Shell

open Lib Fs Dev

def colon : UInt8 := 58

def noArgument : List UInt8 := ascii "No argument passed\n"
def failedToFork : List UInt8 := ascii "Failed to fork\n"

/-- The three `puts` when `chdir` fails. -/
def noSuchDirectory (path : List UInt8) : List UInt8 :=
  ascii "-sbush: cd: " ++ path ++ ascii ": No such directory. \n"

/-- The shell with the variables that `cd` and `pwd` write, the working directory and
descriptors that the kernel keeps for it, and everything it has put on the screen. -/
structure Session where
  sbush : Sbush
  pwd : List UInt8
  prompt1 : List UInt8
  files : Files
  out : List Output

namespace Session

def puts (s : Session) (text : List UInt8) : Session := { s with out := s.out ++ text.map .put }

def clrscr (s : Session) : Session := { s with out := s.out ++ [.clrscr] }

theorem puts_sbush (s : Session) (text : List UInt8) : (s.puts text).sbush = s.sbush := rfl

/-- `getcwd(pwd,-1)`, where `pwd` has 100 bytes. -/
def getcwd (s : Session) : Option Session :=
  if s.files.currDir.length < 100 then some { s with pwd := s.files.getcwd } else none

/-- `getcwd`, and the prompt put together from `prompt` and `pwd` in `prompt1[100]`. -/
def setPrompt (s : Session) : Option Session := do
  let s ← s.getcwd
  let prompt1 := s.sbush.prompt ++ colon :: s.pwd ++ [36]
  if prompt1.length < 100 then some { s with prompt1 := prompt1 } else none

def chdir1 (A : Archive) (s : Session) : Option Session :=
  match s.sbush.args.deref 1 with
  | none => some (s.puts noArgument)
  | some path => do
      let (ret, files) ← s.files.libcChdir A path
      let s := { s with files := files }
      some (if ret ≠ 0 then s.puts (noSuchDirectory path) else s)

def forkandExec (s : Session) (line : List UInt8) (pid : Int) : Session :=
  let s := { s with sbush := s.sbush.forkandExec line pid }
  if pid < 0 then s.puts failedToFork else s

/-- `execCommand`, where `line` is the line that the command comes from. -/
def execCommand (A : Archive) (s : Session) (line : List UInt8) (pid : Int) :
    Option Session := do
  let command ← s.sbush.args.deref 0
  if command = cdName then do
    let s ← s.chdir1 A
    s.setPrompt
  else if command = exportName then s.sbush.setvar.map fun b => { s with sbush := b }
  else if command = clearName then some s.clrscr
  else if command = pwdName then do
    let s ← s.getcwd
    some ((s.puts s.pwd).puts [10])
  else some (s.forkandExec line pid)

def parseInput (A : Archive) (s : Session) (line : List UInt8) (pid : Int) :
    Option Session := do
  let a ← setStringTokens line 124 s.sbush.args
  if a.strs 1 = none then do
    let a ← setStringTokens line 32 (clearArguments a)
    execCommand A { s with sbush := { s.sbush with args := a } } line pid
  else some { s with sbush := { s.sbush with args := a } }

def main (f : Files) : Option Session := do
  let s ← setPrompt { sbush := Sbush.start, pwd := [], prompt1 := [], files := f, out := [] }
  some s.clrscr

/-- One turn of the loop: `none` also when the shell returns. -/
def turn (A : Archive) (s : Session) (e : List UInt8 × Int) : Option Session :=
  let s := s.puts s.prompt1
  if e.1 = [] then some s
  else if e.1 = exitName ∨ e.1 = quitName then none
  else (s.parseInput A e.1 e.2).map fun s => { s with sbush := s.sbush.clearLine }

end Session

inductive Request where
  | nothing
  | home
  | cd (path : PathText)
  | assign (name value : List UInt8)
  | clear
  | pwd
  | program

/-- A line as it is entered at the prompt, what `fork` returns if it is called, and
what the line asks for. -/
structure Line where
  text : List UInt8
  pid : Int
  request : Request

/-- What somebody at the shell knows: the directory as names from the root, the name in
front of the prompt, the prompt, whether an `&` was seen, the programs that were started
and whether the shell waited for them, and what was printed. -/
structure Stand where
  dirs : List (List UInt8)
  name : List UInt8
  prompt : List UInt8
  background : Bool
  jobs : List (List UInt8 × Bool)
  out : List Output

def shown (dirs : List (List UInt8)) : List UInt8 := 47 :: slashed dirs false

def Asks (ws : List (List UInt8)) : Request → Prop
  | .nothing => ws = []
  | .home => ws = [cdName]
  | .cd path => ws[0]? = some cdName ∧ ws[1]? = some path.text
  | .assign name value => ws[0]? = some exportName ∧ ∃ w, ws[1]? = some w ∧ w.count 61 < 2 ∧
      exportFields w = [name, value] ∧ name ∉ [[], [38]] ∧ value ∉ [[], [38]]
  | .clear => ws[0]? = some clearName
  | .pwd => ws[0]? = some pwdName
  | .program => ∃ w, ws[0]? = some w ∧ w ∉ [cdName, exportName, clearName, pwdName]

namespace Stand

def start (dirs : List (List UInt8)) : Stand where
  dirs := dirs
  name := ascii "sbush"
  prompt := ascii "sbush" ++ colon :: shown dirs ++ [36]
  background := false
  jobs := []
  out := [.clrscr]

def puts (u : Stand) (text : List UInt8) : Stand := { u with out := u.out ++ text.map .put }

def setPrompt (u : Stand) : Stand := { u with prompt := u.name ++ colon :: shown u.dirs ++ [36] }

def goal (u : Stand) (path : PathText) : List (List UInt8) := normalise (path.fromRoot u.dirs)

def PromptFits (u : Stand) : Prop := (u.name ++ colon :: shown u.dirs ++ [36]).length < 100

instance (u : Stand) : Decidable u.PromptFits := inferInstanceAs (Decidable (_ < _))

section Answer

variable (ms : List Member)

instance (goal : List UInt8) : Decidable (IsPlace ms goal) := inferInstanceAs (Decidable (_ ∨ _))

def enter (u : Stand) (path : PathText) : Stand :=
  if IsPlace ms (rendered (u.goal path)) then { u with dirs := u.goal path }
  else u.puts (noSuchDirectory path.text)

def answer (u : Stand) (e : Line) : Stand :=
  match e.request with
  | .nothing => u
  | .home => (u.puts noArgument).setPrompt
  | .cd path => (u.enter ms path).setPrompt
  | .assign name value => if name = ps1Name then { u with name := value } else u
  | .clear => { u with out := u.out ++ [.clrscr] }
  | .pwd => u.puts (shown u.dirs ++ [10])
  | .program =>
      if e.pid < 0 then u.puts failedToFork
      else { u with jobs := u.jobs ++ [(e.text, !u.background)] }

/-- The prompt, and the answer to the line. -/
def turn (u : Stand) (e : Line) : Option Stand :=
  some ({ u.puts u.prompt with
    background := u.background || decide (EndsInAmpersand e.text) }.answer ms e)

/-- What is asked for has room, and the root is asked for in a way that `chdir` takes:
as `../`, unless the archive ends in a slash. -/
def Fits (last : UInt8) (u : Stand) : Request → Prop
  | .home => u.PromptFits
  | .cd path =>
      (withSlash path.text).length < 40 ∧
        (filePath (47 :: rendered u.dirs) (withSlash path.text)).length < 50 ∧
        (∀ m ∈ ms, m.name = rendered (u.goal path) → m.name.length < 49) ∧
        (u.goal path = [] → withSlash path.text = [46, 46, 47] ∨ last = 47) ∧
        (u.enter ms path).PromptFits
  | .assign name value => name = ps1Name → value.length < 100
  | _ => True

structure Understood (last : UInt8) (u : Stand) (e : Line) : Prop where
  text : (10 : UInt8) ∉ e.text ∧ (0 : UInt8) ∉ e.text ∧ (124 : UInt8) ∉ e.text
  short : e.text.length < 1000
  plain : Plain (fields 32 e.text)
  asks : Asks (arguments e.text) e.request
  blank : arguments e.text = [] → e.text = []
  stays : e.text ≠ exitName ∧ e.text ≠ quitName
  parent : e.pid ≠ 0
  fits : u.Fits ms last e.request

end Answer

end Stand

structure Session.Matches (f : Files) (s : Session) (u : Stand) : Prop where
  names : ∀ c ∈ u.dirs, IsName c
  short : (47 :: rendered u.dirs).length < 50
  files : s.files = { f with currDir := 47 :: rendered u.dirs }
  background : s.sbush.args.isBackground = if u.background then 1 else 0
  prompt : s.sbush.prompt = u.name
  log : s.sbush.log = u.jobs
  prompt1 : s.prompt1 = u.prompt
  out : s.out = u.out

section Words

variable {s s' : Args} {line : List UInt8} {ws : List (List UInt8)} {d : Nat}

theorem Args.Points.deref (h : s.Points ws) (hd : d ≤ ws.length) : s.deref d = ws[d]? := by
  obtain hlt | rfl := Nat.lt_or_eq_of_le hd
  · have hw := List.getElem?_eq_getElem hlt
    obtain ⟨row, hrow, hstr⟩ := h.1 d _ hw
    rw [Args.deref, hrow, hw, Option.map_some, hstr]
  · rw [Args.deref, h.2, List.getElem?_eq_none (Nat.le_refl _)]
    rfl

/-- Among plain fields there is an `&` if the line ends in one. -/
theorem ampersand_iff (hplain : Plain (fields 32 line)) :
    [38] ∈ fields 32 line ↔ EndsInAmpersand line := by
  rw [EndsInAmpersand, filter_fields]
  obtain ⟨ws, rest, hfs, hws, hrest⟩ := hplain
  have hnot : [38] ∉ ws := fun h => (hws _ h).2 rfl
  rw [hfs, filter_words fun w hw => (hws w hw).1, List.mem_append, or_iff_right hnot]
  obtain rfl | rfl | ⟨more, rfl, hmore⟩ := hrest
  · refine iff_of_false (by simp) fun h => hnot ?_
    simpa using List.mem_of_getLast? h
  · refine iff_of_false (by simp) fun h => hnot ?_
    simpa using List.mem_of_getLast? h
  · have hnone : more.filter (· ≠ []) = [] := List.filter_eq_nil_iff.mpr (by simpa using hmore)
    refine iff_of_true (by simp) ?_
    rw [List.filter_cons_of_pos (by simp), hnone, List.getLast?_concat]

theorem words_sublist {fs : List (List UInt8)} : (words fs).Sublist fs := by
  rw [words]
  split_ifs
  · exact (List.dropLast_sublist _).trans List.filter_sublist
  · exact List.filter_sublist

/-- A word of a line is a piece of it between spaces. -/
theorem mem_arguments {line w : List UInt8} (hw : w ∈ arguments line) :
    w ≠ [] ∧ (32 : UInt8) ∉ w ∧ w.Sublist line := by
  have hmem : w ∈ line.splitOn 32 := words_sublist.subset hw
  exact ⟨mem_words hw, notMem_of_mem_splitOn hmem, splitOn_sublist hmem⟩

/-- A line with plain fields and without a bar is split into its words. -/
theorem split_plain (htext : (10 : UInt8) ∉ line ∧ (0 : UInt8) ∉ line ∧ (124 : UInt8) ∉ line)
    (hshort : line.length < 1000) (hplain : Plain (fields 32 line)) (hready : Ready s 0) :
    ∃ a b, setStringTokens line 124 s = some a ∧ a.strs 1 = none ∧
      setStringTokens line 32 (clearArguments a) = some b ∧ b.Points (arguments line) ∧
      b.isBackground = if EndsInAmpersand line then 1 else s.isBackground := by
  obtain ⟨hnewline, hnul, hbar⟩ := htext
  obtain ⟨s₁, s', hparse, -⟩ := parseInput_filled ⟨hnewline, hnul⟩ hbar hshort hready
  have hbar' : (124 : UInt8) ∉ trimmed line := by
    rw [trimmed]
    split_ifs
    · exact fun h => hbar (List.mem_of_mem_drop h)
    · exact hbar
  have hone : fields 124 line = [trimmed line] := List.splitOn_eq_singleton hbar'
  have hnuls : ∀ delimiter, ∀ f ∈ fields delimiter line, (0 : UInt8) ∉ f :=
    fun _ f hf h => hnul ((fields_sublist hf).subset h)
  obtain ⟨hnone, -⟩ | ⟨a, ha, hfilled₁, -⟩ :=
    @setStringTokens_cases 124 (by decide) line (by simp) ⟨hnewline, hnul⟩ _ hready
  · simp [parseInput, hnone] at hparse
  rw [hone] at hfilled₁
  have hstop : a.strs 1 = none := hfilled₁.stop
  obtain ⟨hnone, -⟩ | ⟨b, hb, hfilled, hfields⟩ :=
    @setStringTokens_cases 32 (by decide) line (by simp) ⟨hnewline, hnul⟩ _
      (clearArguments_ready a)
  · simp [parseInput, ha, hstop, hnone] at hparse
  refine ⟨a, b, ha, hstop, hb, ?_, ?_⟩
  · rw [arguments_eq]
    exact hfilled.points (fun f hf => ⟨hnuls 32 f hf, hfields f hf⟩) hplain
  · rw [hfilled.background, if_congr (ampersand_iff hplain) rfl rfl]
    by_cases hend : EndsInAmpersand line
    · rw [if_pos hend, if_pos hend]
    · -- the line is not an `&` alone
      have hnot : [38] ∉ [trimmed line] := by
        rw [List.mem_singleton]
        intro htrimmed
        refine hend ((ampersand_iff hplain).mp ?_)
        rw [fields, ← htrimmed]
        decide
      rw [if_neg hend, if_neg hend]
      exact hfilled₁.background.trans (if_neg hnot)

end Words

section Turn

variable {A : Archive} {ms : List Member} {last : UInt8} {f : Files} {s : Session} {u : Stand}

/-- `export` with a name and a value. -/
theorem setvar_spec {b : Sbush} {w name value : List UInt8} (hw : b.args.deref 1 = some w)
    (hspace : (32 : UInt8) ∉ w) (htext : (10 : UInt8) ∉ w ∧ (0 : UInt8) ∉ w)
    (hlen : w.length < 1000) (hcount : w.count 61 < 2) (hfields : exportFields w = [name, value])
    (hname : name ∉ [[], [38]]) (hvalue : value ∉ [[], [38]])
    (hroom : name = ps1Name → value.length < 100) :
    ∃ args, b.setvar = some { b with
        args := args, prompt := if name = ps1Name then value else b.prompt } ∧
      args.isBackground = b.args.isBackground := by
  simp only [List.mem_cons, List.not_mem_nil, or_false, not_or] at hname hvalue
  obtain ⟨a, hsome, hfilled, hfs⟩ := split_value hspace htext hlen hcount
    (initargs_ready { Args.start with isBackground := b.args.isBackground })
  have hzero := hfilled.deref hfs (Nat.zero_le _)
  have hone := hfilled.deref hfs (d := 1) (by simp [hfields])
  have hback := hfilled.background
  rw [hfields] at hzero hone hback
  simp only [pointed, List.getElem?_cons_zero, List.getElem?_cons_succ, Option.bind_some, hname,
    hvalue, false_and, or_self, if_false] at hzero hone
  have hback' : a.isBackground = b.args.isBackground := by
    rw [hback, if_neg (by simp [Ne.symm hname.2, Ne.symm hvalue.2])]
    rfl
  rw [Sbush.setvar, hw]
  simp only [Option.bind_eq_bind, Option.bind_some, if_pos hcount, hsome, hzero, hone]
  by_cases hps1 : name = ps1Name
  · rw [if_pos hps1, if_pos hps1, if_pos (hroom hps1)]
    exact ⟨_, rfl, hback'⟩
  · rw [if_neg hps1, if_neg hps1]
    exact ⟨_, rfl, hback'⟩

theorem getcwd_shown {dirs : List (List UInt8)} (h : f.currDir = 47 :: rendered dirs) :
    f.getcwd = shown dirs := by
  rw [Files.getcwd, h, shown]
  obtain rfl | hne := eq_or_ne dirs []
  · simp
  · rw [← slashed_false hne, if_neg (by simp), ← List.cons_append, List.dropLast_concat]

theorem withSlash_slashed {path : List UInt8} : withSlash (withSlash path) = withSlash path := by
  by_cases hlast : path.getLast? = some 47
  · rw [withSlash, if_pos (by rwa [withSlash, if_pos hlast])]
  · rw [withSlash, if_pos (by simp [withSlash, if_neg hlast])]

/-- The path with a slash behind it leads to the same place. -/
theorem exists_slashed {path : PathText} (hne : path.text ≠ []) :
    ∃ p : PathText, p.text = withSlash path.text ∧ p.text.getLast? = some 47 ∧
      ∀ dirs, p.fromRoot dirs = path.fromRoot dirs := by
  by_cases hlast : path.text.getLast? = some 47
  · exact ⟨path, by rw [withSlash, if_pos hlast], hlast, fun _ => rfl⟩
  · have hcomponents : path.components ≠ [] := by
      intro hnil
      rw [PathText.text, hnil] at hlast hne
      split_ifs at hlast hne with habs
      · simp at hlast
      · simp at hne
    have hfinal : path.final = false := by
      rw [← Bool.not_eq_true]
      intro hfinal
      have hslash := (getLast?_slashed path.valid hcomponents path.final).mpr hfinal
      rw [PathText.text] at hlast
      split_ifs at hlast
      · rw [List.getLast?_cons, hslash] at hlast
        simp at hlast
      · exact hlast hslash
    have hsame : ({ path with final := true } : PathText).text = path.text ++ [47] := by
      simp only [PathText.text, slashed_true, ← slashed_false hcomponents, hfinal]
      split_ifs <;> simp
    refine ⟨{ path with final := true }, ?_, ?_, fun _ => rfl⟩
    · rw [hsame, withSlash, if_neg hlast]
    · rw [hsame, List.getLast?_concat]

theorem Session.Matches.currDir (h : s.Matches f u) :
    s.files.currDir = 47 :: rendered u.dirs := by
  rw [h.files]

theorem Session.Matches.getcwd (h : s.Matches f u) :
    s.getcwd = some { s with pwd := shown u.dirs } := by
  have hshort := h.short
  rw [← h.currDir] at hshort
  rw [Session.getcwd, if_pos (by omega), getcwd_shown h.currDir]

theorem Session.Matches.puts (h : s.Matches f u) (text : List UInt8) :
    (s.puts text).Matches f (u.puts text) :=
  { h with out := by rw [Session.puts, Stand.puts, h.out] }

/-- The prompt tells where the shell stands. -/
theorem Session.Matches.setPrompt (h : s.Matches f u) (hfits : u.PromptFits) :
    ∃ s', s.setPrompt = some s' ∧ s'.Matches f u.setPrompt ∧ s'.sbush = s.sbush := by
  have hroom : (s.sbush.prompt ++ colon :: shown u.dirs ++ [36]).length < 100 := by
    rw [h.prompt]
    exact hfits
  refine ⟨{ s with
    pwd := shown u.dirs, prompt1 := s.sbush.prompt ++ colon :: shown u.dirs ++ [36] }, ?_,
    { h with prompt1 := ?_ }, rfl⟩
  · rw [Session.setPrompt, h.getcwd]
    simp only [Option.bind_eq_bind, Option.bind_some, if_pos hroom]
  · rw [Stand.setPrompt, h.prompt]

end Turn

section Commands

variable {A : Archive} {ms : List Member} {z first : Nat} {byte : Nat → UInt8} {f : Files}
  {s : Session} {u : Stand}

/-- `chdir_1` with an argument. -/
theorem Session.Matches.chdir1 (hms : ms.length < 32) (hz : 2 ≤ z ∧ z ≤ 20)
    (himage : Holds byte first (image ms z))
    (hA : initTarfs byte first (first + (image ms z).length) = some A) (h : s.Matches f u)
    {path : PathText} (hpath : s.sbush.args.deref 1 = some path.text) (hne : path.text ≠ [])
    (hfits : u.Fits ms (byte (first + (ms.flatMap Member.bytes).length - 1)) (.cd path)) :
    ∃ s', s.chdir1 A = some s' ∧ s'.Matches f (u.enter ms path) ∧ s'.sbush = s.sbush := by
  obtain ⟨hlen, hfile, hnames, hroot, -⟩ := hfits
  obtain ⟨p, htext, hend, hfrom⟩ := exists_slashed hne
  have hcurr := h.currDir
  have hshort := h.short
  rw [← htext] at hlen hfile hroot
  have hgoal : normalise (p.fromRoot u.dirs) = u.goal path := by rw [hfrom, Stand.goal]
  obtain ⟨ret, files', hrun, hplace, hnone⟩ := (chdir_goesTo_iff ms z first byte A hms hz himage hA
    u.dirs (fun c hc => .inr (h.names c hc)) s.files hcurr (by rwa [hcurr]) p hend).mpr
    ⟨⟨hlen, by rwa [hcurr], by rwa [hgoal]⟩, by rwa [hgoal]⟩
  have hrun' : s.files.libcChdir A path.text = some (ret, files') := by
    rw [← hrun, htext, Files.libcChdir, Files.libcChdir, withSlash_slashed]
    simp [hne, ne_nil_of_slash (htext ▸ hend)]
  rw [hgoal] at hplace hnone
  rw [Session.chdir1, hpath]
  simp only [hrun', Option.bind_eq_bind, Option.bind_some]
  by_cases hin : IsPlace ms (rendered (u.goal path))
  · obtain ⟨rfl, rfl⟩ := hplace hin
    rw [if_neg (by simp), Stand.enter, if_pos hin]
    have hdirs : ∀ c ∈ u.goal path, IsName c := by
      rw [← hgoal]
      refine normalise_names fun c hc => ?_
      rw [PathText.fromRoot] at hc
      split_ifs at hc
      · exact p.valid c hc
      · obtain hc | hc := List.mem_append.mp hc
        · exact .inr (h.names c hc)
        · exact p.valid c hc
    refine ⟨_, rfl, { h with names := hdirs, short := ?_, files := ?_ }, rfl⟩
    · obtain hnil | ⟨m, hm, hname, -⟩ := hin
      · simp [hnil]
      · have := hnames m hm hname
        rw [← hname, List.length_cons]
        omega
    · simp only [h.files]
  · obtain ⟨rfl, rfl⟩ := hnone hin
    rw [if_pos (by decide), Stand.enter, if_neg hin]
    exact ⟨_, rfl, h.puts (noSuchDirectory path.text), rfl⟩

/-- `export` tells the shell its name in front of the prompt. -/
theorem Session.Matches.setvar (h : s.Matches f u) {w name value : List UInt8}
    (hw : s.sbush.args.deref 1 = some w) (hspace : (32 : UInt8) ∉ w)
    (htext : (10 : UInt8) ∉ w ∧ (0 : UInt8) ∉ w) (hlen : w.length < 1000)
    (hcount : w.count 61 < 2) (hfields : exportFields w = [name, value])
    (hname : name ∉ [[], [38]]) (hvalue : value ∉ [[], [38]])
    (hroom : name = ps1Name → value.length < 100) :
    ∃ b, s.sbush.setvar = some b ∧ ({ s with sbush := b } : Session).Matches f
      (if name = ps1Name then { u with name := value } else u) := by
  obtain ⟨args, hset, hback⟩ :=
    setvar_spec (b := s.sbush) hw hspace htext hlen hcount hfields hname hvalue hroom
  refine ⟨_, hset, ?_⟩
  have hflag := hback.trans h.background
  split_ifs with hps1
  · exact { h with background := hflag, prompt := rfl }
  · exact { h with background := hflag }

/-- `pwd` prints the directory. -/
theorem Session.Matches.pwd (h : s.Matches f u) :
    ∃ s', s.getcwd = some s' ∧
      ((s'.puts s'.pwd).puts [10]).Matches f (u.puts (shown u.dirs ++ [10])) := by
  refine ⟨{ s with pwd := shown u.dirs }, h.getcwd, { h with out := ?_ }⟩
  simp [Session.puts, Stand.puts, h.out]

/-- A program is started, and the shell waits for it unless an `&` was seen. -/
theorem Session.Matches.forkandExec (h : s.Matches f u) (line : List UInt8) (pid : Int) :
    (s.forkandExec line pid).Matches f (if pid < 0 then u.puts failedToFork
      else { u with jobs := u.jobs ++ [(line, !u.background)] }) := by
  by_cases hpid : pid < 0
  · have hsame : s.sbush.forkandExec line pid = s.sbush := if_pos hpid
    rw [Session.forkandExec, hsame, if_pos hpid, if_pos hpid]
    exact h.puts failedToFork
  · rw [Session.forkandExec, if_neg hpid, if_neg hpid, Sbush.forkandExec, if_neg hpid]
    by_cases hback : u.background
    · have hflag : s.sbush.args.isBackground = 1 := by rw [h.background, if_pos hback]
      rw [if_pos hflag]
      exact { h with log := by simp [h.log, hback] }
    · have hflag : s.sbush.args.isBackground ≠ 1 := by
        rw [h.background, if_neg hback]
        decide
      rw [if_neg hflag]
      exact { h with log := by simp [h.log, hback] }

/-- The command of a line that was split into these words. -/
theorem Session.Matches.execCommand (hms : ms.length < 32) (hz : 2 ≤ z ∧ z ≤ 20)
    (himage : Holds byte first (image ms z))
    (hA : initTarfs byte first (first + (image ms z).length) = some A) (h : s.Matches f u)
    {e : Line} {ws : List (List UInt8)} (hpoints : s.sbush.args.Points ws) (hne : ws ≠ [])
    (hws : ∀ w ∈ ws, w ≠ [] ∧ (32 : UInt8) ∉ w ∧ ((10 : UInt8) ∉ w ∧ (0 : UInt8) ∉ w) ∧
      w.length < 1000)
    (hasks : Asks ws e.request)
    (hfits : u.Fits ms (byte (first + (ms.flatMap Member.bytes).length - 1)) e.request) :
    ∃ s', s.execCommand A e.text e.pid = some s' ∧ s'.Matches f (u.answer ms e) := by
  have hzero : s.sbush.args.deref 0 = ws[0]? := hpoints.deref (Nat.zero_le _)
  have hone : s.sbush.args.deref 1 = ws[1]? := hpoints.deref (List.length_pos_of_ne_nil hne)
  rw [Session.execCommand, hzero, Stand.answer]
  cases hr : e.request with
  | nothing =>
      rw [hr] at hasks
      exact absurd hasks hne
  | home =>
      rw [hr] at hasks hfits
      obtain rfl : ws = [cdName] := hasks
      obtain ⟨s', hs', hmatch, -⟩ := (h.puts noArgument).setPrompt hfits
      refine ⟨s', ?_, hmatch⟩
      simp only [List.getElem?_cons_zero, Option.bind_eq_bind, Option.bind_some, if_true,
        Session.chdir1, hone]
      exact hs'
  | cd path =>
      rw [hr] at hasks hfits
      obtain ⟨hcommand, hpath⟩ := hasks
      have hnil := (hws _ (List.mem_of_getElem? hpath)).1
      obtain ⟨t, ht, htmatch, -⟩ :=
        h.chdir1 hms hz himage hA (hone.trans hpath) hnil hfits
      obtain ⟨s', hs', hmatch, -⟩ := htmatch.setPrompt hfits.2.2.2.2
      refine ⟨s', ?_, hmatch⟩
      simp only [hcommand, Option.bind_eq_bind, Option.bind_some, if_true, ht, hs']
  | assign name value =>
      rw [hr] at hasks hfits
      obtain ⟨hcommand, w, hw, hcount, hfields, hname, hvalue⟩ := hasks
      obtain ⟨-, hspace, htext, hlen⟩ := hws w (List.mem_of_getElem? hw)
      obtain ⟨b, hset, hmatch⟩ :=
        h.setvar (hone.trans hw) hspace htext hlen hcount hfields hname hvalue hfits
      refine ⟨_, ?_, hmatch⟩
      simp only [hcommand, Option.bind_eq_bind, Option.bind_some, hset, Option.map_some]
      rw [if_neg (by decide), if_pos trivial]
  | clear =>
      rw [hr] at hasks
      have hcommand : ws[0]? = some clearName := hasks
      refine ⟨s.clrscr, ?_, { h with out := by rw [Session.clrscr, h.out] }⟩
      simp only [hcommand, Option.bind_eq_bind, Option.bind_some]
      rw [if_neg (by decide), if_neg (by decide), if_pos trivial]
  | pwd =>
      rw [hr] at hasks
      have hcommand : ws[0]? = some pwdName := hasks
      obtain ⟨s', hs', hmatch⟩ := h.pwd
      refine ⟨_, ?_, hmatch⟩
      simp only [hcommand, Option.bind_eq_bind, Option.bind_some, hs']
      rw [if_neg (by decide), if_neg (by decide), if_neg (by decide), if_pos trivial]
  | program =>
      rw [hr] at hasks
      obtain ⟨w, hcommand, hbuiltin⟩ := hasks
      simp only [List.mem_cons, List.not_mem_nil, or_false, not_or] at hbuiltin
      obtain ⟨hcd, hexport, hclear, hpwd⟩ := hbuiltin
      refine ⟨_, ?_, h.forkandExec e.text e.pid⟩
      simp only [hcommand, Option.bind_eq_bind, Option.bind_some, hcd, hexport, hclear, hpwd,
        if_false]

end Commands

/-- What fits depends on the directory and the name alone. -/
theorem Stand.Fits.congr {ms : List Member} {last : UInt8} {u v : Stand} {r : Request}
    (h : u.Fits ms last r) (hdirs : v.dirs = u.dirs) (hname : v.name = u.name) :
    v.Fits ms last r := by
  cases r with
  | home =>
      rw [Stand.Fits, Stand.PromptFits, hdirs, hname]
      exact h
  | cd path =>
      have hgoal : v.goal path = u.goal path := by rw [Stand.goal, Stand.goal, hdirs]
      obtain ⟨hlen, hfile, hnames, hroot, hprompt⟩ := h
      refine ⟨hlen, by rwa [hdirs], by rwa [hgoal], by rwa [hgoal], ?_⟩
      rw [Stand.PromptFits, Stand.enter] at hprompt ⊢
      rw [hgoal]
      split_ifs at hprompt ⊢
      · rw [hname]
        exact hprompt
      · simp only [Stand.puts, hdirs, hname] at hprompt ⊢
        exact hprompt
  | _ => exact h

section Loop

variable {A : Archive} {ms : List Member} {z first : Nat} {byte : Nat → UInt8} {f : Files}
  {s : Session} {u v : Stand} {e : Line}

/-- One turn: the prompt is printed and the line answered. -/
theorem Session.Matches.turn (hms : ms.length < 32) (hz : 2 ≤ z ∧ z ≤ 20)
    (himage : Holds byte first (image ms z))
    (hA : initTarfs byte first (first + (image ms z).length) = some A) (h : s.Matches f u)
    (hready : Ready s.sbush.args 0)
    (hline : u.Understood ms (byte (first + (ms.flatMap Member.bytes).length - 1)) e)
    (hv : u.turn ms e = some v) :
    ∃ s', s.turn A (e.text, e.pid) = some s' ∧ s'.Matches f v ∧ Ready s'.sbush.args 0 := by
  obtain rfl := Option.some.inj hv
  have hprompt : (s.puts s.prompt1).Matches f (u.puts u.prompt) := by
    rw [h.prompt1]
    exact h.puts u.prompt
  rw [Session.turn]
  by_cases hempty : e.text = []
  · have hnothing : e.request = .nothing := by
      have hasks := hline.asks
      rw [hempty] at hasks
      cases hr : e.request with
      | nothing => rfl
      | _ => simp [hr, Asks, arguments, words] at hasks
    have hflag : ¬ EndsInAmpersand e.text := by
      rw [hempty]
      decide
    have hsame : (u.background || decide (EndsInAmpersand e.text)) = u.background := by
      simp [hflag]
    rw [if_pos hempty, Stand.answer, hnothing, hsame]
    exact ⟨_, rfl, { hprompt with }, hready⟩
  · obtain ⟨a, b, ha, hstop, hb, hpoints, hback⟩ :=
      split_plain hline.text hline.short hline.plain hready
    have hflag : b.isBackground =
        if u.background || decide (EndsInAmpersand e.text) then 1 else 0 := by
      rw [hback, h.background]
      by_cases hend : EndsInAmpersand e.text
      · simp [hend]
      · simp [hend]
    have hsplit : Session.Matches f
        { s.puts s.prompt1 with sbush := { s.sbush with args := b } }
        { u.puts u.prompt with background := u.background || decide (EndsInAmpersand e.text) } :=
      { hprompt with background := hflag }
    have hwords : ∀ w ∈ arguments e.text, w ≠ [] ∧ (32 : UInt8) ∉ w ∧
        ((10 : UInt8) ∉ w ∧ (0 : UInt8) ∉ w) ∧ w.length < 1000 := by
      intro w hw
      obtain ⟨hne, hspace, hsub⟩ := mem_arguments hw
      exact ⟨hne, hspace, ⟨fun hc => hline.text.1 (hsub.subset hc),
        fun hc => hline.text.2.1 (hsub.subset hc)⟩, hsub.length_le.trans_lt hline.short⟩
    obtain ⟨s', hs', hmatch⟩ := hsplit.execCommand hms hz himage hA hpoints
      (fun hblank => hempty (hline.blank hblank)) hwords hline.asks (hline.fits.congr rfl rfl)
    have hparse : (s.puts s.prompt1).parseInput A e.text e.pid = some s' := by
      have ha' : setStringTokens e.text 124 (s.puts s.prompt1).sbush.args = some a := ha
      simp only [Session.parseInput, ha', hb, hstop, Option.bind_eq_bind, Option.bind_some, if_true]
      exact hs'
    have hstays : ¬ (e.text = exitName ∨ e.text = quitName) := not_or.mpr hline.stays
    rw [if_neg hempty, if_neg hstays, hparse, Option.map_some]
    exact ⟨_, rfl, { hmatch with }, clearArguments_ready _⟩

/-- `main` up to the loop. -/
theorem session_main {dirs : List (List UInt8)} (hcurr : f.currDir = 47 :: rendered dirs)
    (hdirs : ∀ c ∈ dirs, IsName c) (hlen : f.currDir.length < 50)
    (hfits : (Stand.start dirs).PromptFits) :
    ∃ s, Session.main f = some s ∧ s.Matches f (Stand.start dirs) ∧ Ready s.sbush.args 0 := by
  have hbefore : ({ sbush := Sbush.start, pwd := [], prompt1 := [], files := f, out := [] } :
      Session).Matches f { Stand.start dirs with prompt := [], out := [] } := by
    have hshort : (47 :: rendered dirs).length < 50 := by rwa [← hcurr]
    refine ⟨hdirs, hshort, ?_, rfl, rfl, rfl, rfl, rfl⟩
    change f = { f with currDir := 47 :: rendered dirs }
    rw [← hcurr]
  obtain ⟨s, hs, hmatch, hsame⟩ := hbefore.setPrompt hfits
  refine ⟨s.clrscr, ?_, { hmatch with out := ?_ }, ?_⟩
  · simp only [Session.main, hs, Option.bind_eq_bind, Option.bind_some]
  · rw [Session.clrscr, hmatch.out]
    rfl
  · rw [Session.clrscr, hsame]
    exact initargs_ready _

/-- A session is what somebody expects who knows the directories: from `main` on, for all
lines that the shell understands, it stands where the answers to them lead, shows what
they say and has started the programs that they name. -/
theorem session_stands (hms : ms.length < 32) (hz : 2 ≤ z ∧ z ≤ 20)
    (himage : Holds byte first (image ms z))
    (hA : initTarfs byte first (first + (image ms z).length) = some A)
    {dirs : List (List UInt8)} (hcurr : f.currDir = 47 :: rendered dirs)
    (hdirs : ∀ c ∈ dirs, IsName c) (hlen : f.currDir.length < 50)
    (hfits : (Stand.start dirs).PromptFits) {es : List Line}
    (hrun : Run (Stand.turn ms)
      (Stand.Understood ms (byte (first + (ms.flatMap Member.bytes).length - 1)))
      (Stand.start dirs) es u) :
    ∃ s₀ s, Session.main f = some s₀ ∧
      exec (Session.turn A) s₀ (es.map fun e => (e.text, e.pid)) = some s ∧ s.Matches f u := by
  obtain ⟨s₀, hmain, hstart, hready⟩ := session_main hcurr hdirs hlen hfits
  obtain ⟨s, hexec, hmatch, -⟩ := hrun.simulated
    (R := fun (u : Stand) (s : Session) => s.Matches f u ∧ Ready s.sbush.args 0) ⟨hstart, hready⟩
    fun _ _ _ _ hR hline hv => hR.1.turn hms hz himage hA hR.2 hline hv
  exact ⟨s₀, s, hmain, hexec, hmatch⟩

end Loop

/-- `cd a`, `pwd` and `ls`, in an archive that has the directory `a/`. -/
theorem understood_three (last : UInt8) :
    ∃ u, Run (Stand.turn [emptyFile [97, 47] (by decide) (by decide) (by decide)])
        (Stand.Understood [emptyFile [97, 47] (by decide) (by decide) (by decide)] last)
        (Stand.start [])
        [⟨ascii "cd a", 2, .cd ⟨false, [[97]], false, by decide⟩⟩, ⟨ascii "pwd", 2, .pwd⟩,
          ⟨ascii "ls", 2, .program⟩] u ∧
      u.dirs = [[97]] ∧ u.jobs = [(ascii "ls", true)] ∧
      u.out = .clrscr :: (ascii "sbush:/$sbush:/a$/a\nsbush:/a$").map .put := by
  refine ⟨_, ((Run.nil.snoc ?_ rfl).snoc ?_ rfl).snoc ?_ rfl, ?_, ?_, ?_⟩
  · refine ⟨by decide, by decide, ⟨[[99, 100], [97]], [], by decide, by decide, .inl rfl⟩,
      ⟨by decide, by decide⟩, by decide, by decide, by decide, by decide, by decide, ?_,
      fun hroot => absurd hroot (by decide), by decide⟩
    intro m hm _
    rw [List.mem_singleton.mp hm]
    exact (by decide : [97, 47].length < 49)
  · exact ⟨by decide, by decide, ⟨[ascii "pwd"], [], by decide, by decide, .inl rfl⟩,
      (by decide : (arguments (ascii "pwd"))[0]? = some pwdName), by decide, by decide, by decide,
      trivial⟩
  · exact ⟨by decide, by decide, ⟨[ascii "ls"], [], by decide, by decide, .inl rfl⟩,
      ⟨ascii "ls", by decide, by decide⟩, by decide, by decide, by decide, trivial⟩
  · rfl
  · rfl
  · rfl

theorem session_stands_three :
    ∃ (m : Member) (byte : Nat → UInt8) (A : Archive) (s₀ s : Session), m.name = [97, 47] ∧
      initTarfs byte 4096 (4096 + (image [m] 2).length) = some A ∧
      Session.main bootUsage.sys.cur = some s₀ ∧
      exec (Session.turn A) s₀ [(ascii "cd a", 2), (ascii "pwd", 2), (ascii "ls", 2)] = some s ∧
      s.files.currDir = [47, 97, 47] ∧ s.sbush.log = [(ascii "ls", true)] ∧
      s.out = .clrscr :: (ascii "sbush:/$sbush:/a$/a\nsbush:/a$").map .put := by
  have himage := holds_imageAt 4096 [emptyFile [97, 47] (by decide) (by decide) (by decide)] 2
  have hA := initTarfs_image (by decide) (by decide) himage
  obtain ⟨u, hrun, hdirs, hjobs, hout⟩ := understood_three _
  have hcurr : bootUsage.sys.cur.currDir = 47 :: rendered [] := rfl
  obtain ⟨s₀, s, hmain, hexec, hmatch⟩ := session_stands (by decide) (by decide) himage hA
    hcurr (by simp) (by decide) (by decide) hrun
  refine ⟨_, _, _, s₀, s, rfl, hA, hmain, hexec, ?_, ?_, ?_⟩
  · rw [hmatch.files, hdirs]
    decide
  · rw [hmatch.log, hjobs]
  · rw [hmatch.out, hout]

section Projection

variable {A : Archive} {f : Files} {s t : Session} {line : List UInt8} {pid : Int}

theorem Session.setPrompt_sbush (h : s.setPrompt = some t) : t.sbush = s.sbush := by
  rw [Session.setPrompt, Session.getcwd] at h
  split_ifs at h
  · simp only [Option.bind_eq_bind, Option.bind_some] at h
    split_ifs at h
    rw [← Option.some.inj h]
  · simp at h

theorem Session.chdir1_sbush (h : s.chdir1 A = some t) : t.sbush = s.sbush := by
  rw [Session.chdir1] at h
  split at h
  · rw [← Option.some.inj h, Session.puts]
  · obtain ⟨r, -, hr⟩ := Option.bind_eq_some_iff.mp h
    rw [← Option.some.inj hr]
    split_ifs
    · rfl
    · rfl

/-- The parts of the state that a command can see later are those of `Sbush`. -/
theorem Session.execCommand_sbush (h : s.execCommand A line pid = some t) :
    s.sbush.execCommand line pid = some t.sbush := by
  rw [Session.execCommand] at h
  obtain ⟨command, hcommand, h⟩ := Option.bind_eq_some_iff.mp h
  rw [Sbush.execCommand, hcommand]
  simp only [Option.bind_eq_bind, Option.bind_some]
  split_ifs at h ⊢
  · obtain ⟨r, hr, hset⟩ := Option.bind_eq_some_iff.mp h
    rw [Session.setPrompt_sbush hset, Session.chdir1_sbush hr]
  · obtain ⟨b, hb, rfl⟩ := Option.map_eq_some_iff.mp h
    exact hb
  · rw [← Option.some.inj h, Session.clrscr]
  · obtain ⟨r, hr, hputs⟩ := Option.bind_eq_some_iff.mp h
    rw [Session.getcwd] at hr
    split_ifs at hr
    rw [← Option.some.inj hputs, ← Option.some.inj hr, Session.puts, Session.puts]
  · rw [← Option.some.inj h, Session.forkandExec]
    split_ifs
    · rfl
    · rfl

/-- So is a turn of the loop. -/
theorem Session.turn_sbush {e : List UInt8 × Int} (h : s.turn A e = some t) :
    s.sbush.mainLoop e = some t.sbush := by
  rw [Session.turn] at h
  rw [Sbush.mainLoop]
  split_ifs at h ⊢
  · rw [← Option.some.inj h, Session.puts]
  · obtain ⟨r, hr, rfl⟩ := Option.map_eq_some_iff.mp h
    rw [Session.parseInput] at hr
    obtain ⟨a, ha, hr⟩ := Option.bind_eq_some_iff.mp hr
    have hparse : s.sbush.parseInput e.1 e.2 = some r.sbush := by
      rw [Sbush.parseInput, ← Session.puts_sbush, ha]
      simp only [Option.bind_eq_bind, Option.bind_some]
      split_ifs at hr ⊢
      · obtain ⟨b, hb, hr⟩ := Option.bind_eq_some_iff.mp hr
        rw [hb]
        exact Session.execCommand_sbush hr
      · rw [← Option.some.inj hr]
    rw [hparse, Option.map_some]

/-- In every session the programs are started in the modes of the loop. -/
theorem Session.run_modes {es : List (List UInt8 × Int)} (hmain : Session.main f = some s)
    (hrun : Run (Session.turn A) (fun s => FromParent s.sbush) s es t) :
    t.sbush.log = modes false es := by
  have hstart : s.sbush = Sbush.start := by
    obtain ⟨r, hr, hclear⟩ := Option.bind_eq_some_iff.mp hmain
    rw [← Option.some.inj hclear, Session.clrscr, Session.setPrompt_sbush hr]
  have hloop : Run Sbush.mainLoop FromParent s.sbush es t.sbush := by
    clear hmain hstart
    induction hrun with
    | nil => exact .nil
    | snoc _ hok hnext ih => exact ih.snoc hok (Session.turn_sbush hnext)
  rw [hstart] at hloop
  exact (Shell.run_modes hloop).2.2

end Projection

end X86Kernel.Shell
