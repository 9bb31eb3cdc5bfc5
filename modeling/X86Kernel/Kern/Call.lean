import X86Kernel.Fs.Descriptors
import X86Kernel.Kern.Segments

/-!
`execvpe` from its entry. It looks for the program in `bin/`, or for the
script that a path with `./` names and then for the interpreter; it copies the strings
of `argv` and `env` to arrays of its own; and it returns -1 or goes on to load the
image. A string is the list of its bytes before the NUL, an array of strings the list
of them before `NULL`. The arrays have no end here, so the copies never leave them.
-/

namespace X86Kernel.Kern

open Lib Paging Fs

/-- The fields of the caller's `task_struct` that `execvpe` reads or writes, and
memory. Of the registers it writes `rip` only. -/
structure Caller where
  name : Nat → Byte
  rip : Nat
  files : Files
  space : Space
  mem : Mem

/-- How `execvpe` ends: it returns -1, or it enters the new image. -/
inductive Exec where
  | failed (s : Caller)
  | entered (s : Caller)

structure Collected where
  args : Nat → Byte
  argc : Nat
  envs : Nat → Byte
  envl : Nat

section Call

def chars (s : List Byte) : List UInt8 := s.map UInt8.ofBitVec

def dotSlash (path : List Byte) : Bool := path.take 2 == [46, 47]

def bin : List Byte := [98, 105, 110, 47]

def binSbush : List UInt8 := chars (bin ++ [115, 98, 117, 115, 104])

/-- `get_file_address(file) + 512`: less than 512 for -1. -/
def fileStart (A : Archive) (file : List UInt8) : Nat := (getFileAddress A file + 512) % 2 ^ 64

/-- The loop over the first line of a script, which leaves out blanks. -/
def readLine (byte : Nat → UInt8) : Nat → Nat → Option (List UInt8)
  | 0, _ => none
  | n + 1, y =>
      if byte y = 10 then some []
      else (readLine byte n (y + 1)).map fun ex => if byte y = 32 then ex else byte y :: ex

/-- The interpreter of the script at `y`: the shell, or what stands behind `!#`. -/
def interpreter (n : Nat) (A : Archive) (y : Nat) : Option Nat :=
  if A.byte y = 33 ∧ A.byte (y + 1) = 35 then
    (readLine A.byte n (y + 2)).map fun line =>
      let ex := line.takeWhile (· ≠ 0)
      fileStart A (if ex = [] then binSbush else ex)
  else some (fileStart A binSbush)

/-- The copies of the arguments, and `argc`. A script gets its own name as the second
argument; `argv[0]` must be there. -/
def collectArgs (args : Nat → Byte) (path : List Byte) (argv : List (List Byte)) :
    Option ((Nat → Byte) × Nat) :=
  if dotSlash path then
    argv.head?.map fun s => (copyArgs args 0 [s, path.drop 2], 2)
  else some (copyArgs args 0 argv, argv.length)

/-- `while (env[envl]) { strcpy(envs[envl], env[envl]); argc++; }`. -/
def collectEnv (env : List (List Byte)) : Nat → Collected → Option Collected
  | 0, _ => none
  | n + 1, c =>
      match env[c.envl]? with
      | none => some c
      | some s =>
          collectEnv env n { c with envs := strcpy c.envs (80 * c.envl) s, argc := c.argc + 1 }

def collect (n : Nat) (args envs : Nat → Byte) (path : List Byte) (argv env : List (List Byte)) :
    Option Collected := do
  let (args, argc) ← collectArgs args path argv
  collectEnv env n { args := args, argc := argc, envs := envs, envl := 0 }

/-- From `Elf64_Ehdr* eh` on. The loop over `env` has come to its end, so there is no
environment to write to the stack (`collectEnv_eq_some`). -/
def enter (A : Archive) (s : Caller) (f_a : Nat) (c : Collected) : Option Exec := do
  let data := fun j => (A.byte (f_a + j)).toBitVec
  let (sp, m) ← execvpe s.mem s.space (elfImage data) (argRows c.args c.argc)
  some (.entered { s with rip := field data 24 8, space := sp, mem := m })

def proceed (n : Nat) (A : Archive) (args envs : Nat → Byte) (s : Caller) (f_a : Nat)
    (path : List Byte) (argv env : List (List Byte)) : Option Exec := do
  let c ← collect n args envs path argv env
  if f_a < 512 then some (.failed s) else enter A s f_a c

/-- `execvpe(path, argv, env)`, with fuel for the loops whose end is not in sight. -/
def execvpeCall (n : Nat) (A : Archive) (args envs : Nat → Byte) (s : Caller) (path : List Byte)
    (argv env : List (List Byte)) : Option Exec :=
  if dotSlash path then
    let y := fileStart A (s.files.currDir.drop 1 ++ chars (path.drop 2))
    if y < 512 then some (.failed s)
    else do
      let f_a ← interpreter n A y
      proceed n A args envs s f_a path argv env
  else
    let file := bin ++ path
    let s := { s with name := strcpy s.name 0 file }
    let f_a := fileStart A (chars file)
    if f_a < 512 then some (.failed s)
    else proceed n A args envs s f_a path argv env

end Call

section Failed

variable {n : Nat} {A : Archive} {args envs : Nat → Byte} {s s' : Caller} {path : List Byte}
  {argv env : List (List Byte)}

/-- Behind the loops, -1 leaves the caller as it was. -/
theorem proceed_failed {f_a : Nat}
    (h : proceed n A args envs s f_a path argv env = some (.failed s')) : f_a < 512 ∧ s' = s := by
  obtain ⟨c, -, h⟩ := Option.bind_eq_some_iff.mp h
  split_ifs at h with hf
  · exact ⟨hf, by simpa using h.symm⟩
  · obtain ⟨r, -, h⟩ := Option.bind_eq_some_iff.mp h
    simp at h

/-- A path with `./` fails before anything is changed. -/
theorem execvpeCall_failed_dotSlash (hdot : dotSlash path = true)
    (h : execvpeCall n A args envs s path argv env = some (.failed s')) : s' = s := by
  rw [execvpeCall, if_pos hdot] at h
  dsimp only at h
  split_ifs at h with hy
  · simpa using h.symm
  · obtain ⟨f_a, -, h⟩ := Option.bind_eq_some_iff.mp h
    exact (proceed_failed h).2

/-- Any other path fails when the name is taken over already. -/
theorem execvpeCall_failed_plain (hdot : dotSlash path = false) :
    execvpeCall n A args envs s path argv env = some (.failed s') ↔
      fileStart A (chars (bin ++ path)) < 512 ∧
        s' = { s with name := strcpy s.name 0 (bin ++ path) } := by
  rw [execvpeCall, if_neg (by simp [hdot])]
  dsimp only
  split_ifs with hf
  · simp [hf, eq_comm]
  · refine iff_of_false (fun h => hf (proceed_failed h).1) (fun h => hf h.1)

/-- Copying a string that is there already. -/
theorem strcpy_eq_self_iff {A : Nat → Byte} {d : Nat} {s : List Byte} :
    strcpy A d s = A ↔ Holds A d (s ++ [0]) := by
  constructor
  · intro h
    have hholds := strcpy_holds A d s
    rwa [h] at hholds
  · intro h
    funext v
    unfold strcpy
    split_ifs with hv
    · cases hget : (s ++ [0])[v - d]? with
      | none => rfl
      | some b =>
          have hb := h (v - d) b hget
          rw [Nat.add_sub_cancel' hv] at hb
          rw [hb, Option.getD_some]
    · rfl

end Failed

/-- An `execvpe` that returns -1 leaves task, page tables and free list as they were,
exactly when the path has `./`, or the program is there, or the task has its name
already. -/
theorem failed_exec_unchanged_iff (A : Archive) (args envs : Nat → Byte) (s : Caller)
    (path : List Byte) (argv env : List (List Byte)) :
    (∀ n s', execvpeCall n A args envs s path argv env = some (.failed s') → s' = s) ↔
      dotSlash path = true ∨ 512 ≤ fileStart A (chars (bin ++ path)) ∨
        Holds s.name 0 (bin ++ path ++ [0]) := by
  cases hdot : dotSlash path with
  | true => exact iff_of_true (fun n s' h => execvpeCall_failed_dotSlash hdot h) (.inl rfl)
  | false =>
      simp only [execvpeCall_failed_plain hdot, Bool.false_eq_true, false_or]
      by_cases hf : fileStart A (chars (bin ++ path)) < 512
      · have hiff : (∀ (_ : Nat) s', fileStart A (chars (bin ++ path)) < 512 ∧
            s' = { s with name := strcpy s.name 0 (bin ++ path) } → s' = s) ↔
              strcpy s.name 0 (bin ++ path) = s.name := by
          constructor
          · intro h
            exact congrArg Caller.name (h 0 _ ⟨hf, rfl⟩)
          · rintro h n s' ⟨-, rfl⟩
            rw [h]
        rw [hiff, strcpy_eq_self_iff]
        refine ⟨.inr, fun h => h.resolve_left (by omega)⟩
      · exact iff_of_true (fun n s' h => absurd h.1 hf) (.inl (by omega))

/-- A program that is not there, called by a task without a name. -/
theorem failed_exec_renames : ¬ ∀ n A args envs s s' path argv env,
    execvpeCall n A args envs s path argv env = some (.failed s') → s' = s := by
  intro hall
  have hlost := hall 0 { headers := [], byte := fun _ => 0 } (fun _ => 0) (fun _ => 0)
    { name := fun _ => 0, rip := 0, files := { currDir := [47], fd := fun _ => noFile, fdC := 0 },
      space := { pml4e := 0, vm := 0 }, mem := smallMem } _ [120] [] []
    ((execvpeCall_failed_plain rfl).mpr ⟨by decide, rfl⟩)
  have hname := congrFun (congrArg Caller.name hlost) 0
  revert hname
  decide

section Collect

variable {n : Nat} {args envs : Nat → Byte} {path : List Byte} {argv env : List (List Byte)}
  {c c' : Collected}

/-- The loop over `env` never counts, so it ends at once or not at all. -/
theorem collectEnv_eq_some : collectEnv env n c = some c' ↔
    0 < n ∧ env[c.envl]? = none ∧ c' = c := by
  induction n generalizing c with
  | zero => simp [collectEnv]
  | succ n ih =>
      cases hget : env[c.envl]? with
      | none => simp [collectEnv, hget, eq_comm]
      | some s => simp [collectEnv, hget, ih]

theorem collect_eq_some : collect n args envs path argv env = some c ↔
    0 < n ∧ env = [] ∧ ∃ r, collectArgs args path argv = some r ∧
      c = { args := r.1, argc := r.2, envs := envs, envl := 0 } := by
  unfold collect
  cases collectArgs args path argv with
  | none => simp
  | some r => simp [collectEnv_eq_some]

/-- The two rows of a script. The second one may be longer than a row. -/
theorem argRows_script (args : Nat → Byte) {s t : List Byte} (hs : (0 : Byte) ∉ s)
    (hlen : s.length < 80) (ht : (0 : Byte) ∉ t) :
    argRows (copyArgs args 0 [s, t]) 2 = [s, t.take 800] := by
  have hfirst : Holds (copyArgs args 0 [s, t]) 0 (s ++ [0]) := by
    refine (strcpy_holds args 0 s).congr fun v _ hv => ?_
    rw [List.length_append, List.length_singleton] at hv
    rw [copyArgs, copyArgs_below (by omega)]
  have hsecond : Holds (copyArgs args 0 [s, t]) 80 (t ++ [0]) := strcpy_holds _ 80 t
  have hshort : s.take 800 = s := List.take_of_length_le (by omega)
  simp [argRows, List.range, List.range.loop, hfirst.strAt_take hs, hsecond.strAt_take ht,
    hshort]

/-- Both loops end, the counters are the lengths of the two arrays, the copies are the
strings in order, and `_start` reads them back from the stack written from them. -/
def Collects (args envs : Nat → Byte) (path : List Byte) (argv env : List (List Byte)) : Prop :=
  ∃ n c, collect n args envs path argv env = some c ∧ c.argc = argv.length ∧
    c.envl = env.length ∧ argRows c.args c.argc = argv ∧ argRows c.envs c.envl = env ∧
    ∀ L L', WroteAll L (execWrites (argRows c.args c.argc)) L' →
      ∃ temp, Carries L' (execRsp argv) argv temp

/-- What the first loop leaves is `argv`, for a script if that is its name behind one
string. -/
theorem collectArgs_rows_iff (args : Nat → Byte) (hargs : FitsArgs argv)
    (hnul : ∀ s ∈ argv, (0 : Byte) ∉ s) (hpath : (0 : Byte) ∉ path) :
    (∃ r, collectArgs args path argv = some r ∧ r.2 = argv.length ∧ argRows r.1 r.2 = argv) ↔
      (dotSlash path = true → ∃ s, argv = [s, path.drop 2]) := by
  unfold collectArgs
  cases hdot : dotSlash path with
  | false =>
      refine iff_of_true ?_ (by simp)
      exact ⟨_, if_neg (by simp), rfl, argRows_copyArgs hargs hnul args⟩
  | true =>
      have hdrop : (0 : Byte) ∉ path.drop 2 := fun hcon => hpath (List.mem_of_mem_drop hcon)
      rw [if_pos rfl, forall_prop_of_true rfl]
      cases argv with
      | nil => simp
      | cons s rest =>
          have hrows := argRows_script args (hnul s (by simp)) (hargs.2 s (by simp)) hdrop
          have hiff : (∃ r, (List.head? (s :: rest)).map
              (fun s => (copyArgs args 0 [s, path.drop 2], 2)) = some r ∧
                r.2 = (s :: rest).length ∧ argRows r.1 r.2 = s :: rest) ↔
              rest = [(path.drop 2).take 800] := by
            simp only [List.head?_cons, Option.map_some, Option.some.injEq, exists_eq_left',
              hrows, List.cons.injEq, true_and]
            constructor
            · rintro ⟨-, h⟩
              exact h.symm
            · rintro rfl
              exact ⟨rfl, rfl⟩
          rw [hiff]
          simp only [List.cons.injEq, exists_and_right, exists_eq', true_and]
          constructor
          · rintro rfl
            -- a row of `argv` is shorter than what is read
            have hlen := hargs.2 ((path.drop 2).take 800) (by simp)
            rw [List.length_take] at hlen
            rw [List.take_of_length_le (by omega)]
          · rintro rfl
            have hlen := hargs.2 (path.drop 2) (by simp)
            rw [List.take_of_length_le (by omega)]

end Collect

/-- The collection does what it should if and only if the environment is empty and a
script is called with its own name as the only argument behind `argv[0]`. -/
theorem collects_iff (args envs : Nat → Byte) (path : List Byte) (argv env : List (List Byte))
    (hargs : FitsArgs argv) (hnul : ∀ s ∈ argv, (0 : Byte) ∉ s) (hpath : (0 : Byte) ∉ path) :
    Collects args envs path argv env ↔
      env = [] ∧ (dotSlash path = true → ∃ s, argv = [s, path.drop 2]) := by
  rw [← collectArgs_rows_iff args hargs hnul hpath]
  constructor
  · rintro ⟨n, c, hrun, hargc, -, hrows, -⟩
    obtain ⟨-, henv, r, hr, rfl⟩ := collect_eq_some.mp hrun
    exact ⟨henv, r, hr, hargc, hrows⟩
  · rintro ⟨rfl, r, hr, hargc, hrows⟩
    refine ⟨1, _, collect_eq_some.mpr ⟨by decide, rfl, r, hr, rfl⟩, hargc, rfl, hrows, rfl, ?_⟩
    intro L L' hwrote
    dsimp only at hwrote
    rw [hrows] at hwrote
    exact execWrites_carries hargs hnul hwrote

/-- `ls` with an argument and no environment. -/
theorem collects_iff_ls :
    Collects (fun _ => 0xAA) (fun _ => 0xAA) [108, 115] [[108, 115], [47]] [] :=
  (collects_iff (fun _ => 0xAA) (fun _ => 0xAA) [108, 115] [[108, 115], [47]] []
    ⟨by decide, by decide⟩ (by decide) (by decide)).mpr ⟨rfl, fun h => absurd h (by decide)⟩

/-- With one variable the loop over `env` does not end. -/
theorem environment_never_ends : ¬ ∀ args envs path argv env, FitsArgs argv →
    (∀ s ∈ argv, (0 : Byte) ∉ s) → (0 : Byte) ∉ path → env.length ≤ 40 →
    (∀ s ∈ env, s.length < 80) → Collects args envs path argv env := by
  intro hall
  obtain ⟨n, c, hrun, -⟩ := hall (fun _ => 0) (fun _ => 0) [108, 115] [[108, 115]] [[97, 61, 98]]
    ⟨by decide, by decide⟩ (by decide) (by decide) (by decide) (by decide)
  have henv := (collect_eq_some.mp hrun).2.1
  cases henv

/-- With an environment `execvpe` does not come to an image: it returns -1 before
the loops, or never. -/
theorem execvpeCall_environment {n : Nat} {A : Archive} {args envs : Nat → Byte} {s : Caller}
    {path : List Byte} {argv env : List (List Byte)} {r : Exec} (henv : env ≠ [])
    (h : execvpeCall n A args envs s path argv env = some r) : ∃ s', r = .failed s' := by
  have hproceed : ∀ s f_a, proceed n A args envs s f_a path argv env = none := by
    intro s f_a
    have hnone : collect n args envs path argv env = none := by
      refine Option.eq_none_iff_forall_ne_some.mpr fun c hc => henv (collect_eq_some.mp hc).2.1
    rw [proceed, hnone]
    rfl
  unfold execvpeCall at h
  dsimp only at h
  split_ifs at h
  · exact ⟨_, (Option.some.inj h).symm⟩
  · obtain ⟨f_a, -, h⟩ := Option.bind_eq_some_iff.mp h
    simp [hproceed] at h
  · exact ⟨_, (Option.some.inj h).symm⟩
  · simp [hproceed] at h

end X86Kernel.Kern
