import X86Kernel.Fs.Descriptors
import X86Kernel.Fs.Lookup

/-!
The working directory: `chdir` and `getcwd` of `process.c`, and what holds of
`curr_dir` in every process whatever the processes do. A directory is entered
under the name of its header, so that `curr_dir` is always a slash and such a
name; that going to where `getcwd` says changes nothing also needs names in
which no slash follows another one at the end.
-/

namespace X86Kernel.Fs

open Lib Proc

/-- `chdir`; its value, and the files after it. -/
def Files.chdir (A : Archive) (f : Files) (path : List UInt8) : Int × Files :=
  if path = [46, 46, 47] ∧ setTruePath f.currDir path = [] then (0, { f with currDir := [47] })
  else if (isValidDirectory A f.currDir path).isSome then
    (0, { f with currDir := 47 :: setTruePath f.currDir path })
  else (-1, f)

def Files.getcwd (f : Files) : List UInt8 :=
  if f.currDir.length = 1 then f.currDir else f.currDir.dropLast

/-- A slash at the end, added if it is missing. -/
def withSlash (s : List UInt8) : List UInt8 := if s.getLast? = some 47 then s else s ++ [47]

/-- What the processes do: everything of before, `chdir`, and `execvpe`, which
reads `curr_dir` and writes nothing of `Files`. -/
inductive DirAction where
  | act (a : Action)
  | chdir (path : List UInt8)
  | execvpe

def System.dirStep (A : Archive) (k : System) : DirAction → Option System
  | .act a => k.step A a
  | .chdir path =>
      if k.sched.mode = .user then
        some { k with files := Function.update k.files k.sched.r (k.cur.chdir A path).2 }
      else none
  | .execvpe => if k.sched.mode = .user then some k else none

/-- The path and what becomes of it fit into `k[100]`, `file_path[50]` and
`curr_dir[50]`. -/
def FitsBuffers (currDir path : List UInt8) : Prop :=
  path.length < 100 ∧ (filePath currDir path).length < 50 ∧
    (setTruePath currDir path).length < 49

/-- Paths fit, and `kill` is aimed at a process other than idle. -/
def DirOk (k : System) : DirAction → Prop
  | .act (.sched e) => SparesIdle e ∧ KillsExisting k.sched e
  | .act (.call _) => True
  | .chdir path => FitsBuffers k.cur.currDir path
  | .execvpe => True

/-- `create_process` has put the shell into the root. -/
def DirStart (k : System) : Prop := k.sched = boot ∧ (k.files 2).currDir = [47]

/-- Slot `i` has a process other than init and idle. -/
def System.IsUser (k : System) (i : Nat) : Prop := 2 ≤ i ∧ (k.sched.q i).state ≠ .ready

/-- The root, or the name of a header that ends with a slash. -/
def IsDirectory (headers : List Header) (d : List UInt8) : Prop :=
  d = [47] ∨ ∃ h ∈ headers, h.name.getLast? = some 47 ∧ d = 47 :: h.name

/-- There is one slash at the end of the name at most, and something in front of
it. -/
def SingleSlash (name : List UInt8) : Prop := name ≠ [47] ∧ ¬ [47, 47] <:+ name

section Chdir

variable {A : Archive} {f : Files} {path : List UInt8}

theorem isfileexists_some {currDir : List UInt8} {n : Nat}
    (h : isfileexists A currDir path = some n) :
    ∃ hd ∈ A.headers.take 32, A.headers[n]? = some hd ∧ hd.name = setTruePath currDir path := by
  obtain ⟨hlt, hname, -⟩ := List.findIdx?_eq_some_iff_getElem.mp h
  have hmem := List.getElem_mem hlt
  have hn : n < A.headers.length := by
    rw [List.length_take] at hlt
    omega
  refine ⟨(A.headers.take 32)[n], hmem, ?_, by simpa using hname⟩
  rw [List.getElem_take, List.getElem?_eq_getElem hn]

/-- A directory that is found has a name that ends with a slash, or no name. -/
theorem isValidDirectory_some {currDir : List UInt8} {n : Nat}
    (h : isValidDirectory A currDir path = some n) :
    ∃ hd ∈ A.headers.take 32, hd.name = setTruePath currDir path ∧
      (hd.name = [] ∨ hd.name.getLast? = some 47) := by
  obtain ⟨hfind, hslash⟩ := Option.filter_eq_some_iff.mp h
  obtain ⟨hd, hmem, hget, hname⟩ := isfileexists_some hfind
  refine ⟨hd, hmem, hname, ?_⟩
  have hlast : lastByte A hd = 47 := by simpa [hget] using hslash
  obtain hnil | hne := eq_or_ne hd.name []
  · exact .inl hnil
  · right
    rw [lastByte, List.getLast?_eq_some_getLast hne] at hlast
    rw [List.getLast?_eq_some_getLast hne]
    exact congrArg some hlast

/-- A directory under its own name is found, if anything with this name is. -/
theorem isValidDirectory_isSome {currDir name : List UInt8}
    (hpath : setTruePath currDir path = name) (hslash : name.getLast? = some 47)
    (hmem : ∃ hd ∈ A.headers.take 32, hd.name = name) :
    (isValidDirectory A currDir path).isSome := by
  obtain ⟨hd, hhd, hname⟩ := hmem
  have hfind : (isfileexists A currDir path).isSome := by
    rw [isfileexists, hpath, List.findIdx?_isSome, List.any_eq_true]
    exact ⟨hd, hhd, by simpa using hname⟩
  obtain ⟨n, hn⟩ := Option.isSome_iff_exists.mp hfind
  obtain ⟨hd', -, hget, hname'⟩ := isfileexists_some hn
  have hvalid : isValidDirectory A currDir path = some n := by
    refine Option.filter_eq_some_iff.mpr ⟨hn, ?_⟩
    simp [hget, lastByte, hname', hpath, hslash]
  rw [hvalid]
  rfl

/-- Whatever the path, the directory after `chdir` is one. -/
theorem chdir_currDir (path : List UInt8) (hdir : IsDirectory (A.headers.take 32) f.currDir) :
    IsDirectory (A.headers.take 32) (f.chdir A path).2.currDir := by
  unfold Files.chdir
  split_ifs with hup hvalid
  · exact .inl rfl
  · obtain ⟨n, hn⟩ := Option.isSome_iff_exists.mp hvalid
    obtain ⟨hd, hmem, hname, hnil | hslash⟩ := isValidDirectory_some hn
    · exact .inl (by simp [← hname, hnil])
    · exact .inr ⟨hd, hmem, hslash, by simp [hname]⟩
  · exact hdir

theorem chdir_length (hfits : FitsBuffers f.currDir path) (hlen : f.currDir.length < 50) :
    (f.chdir A path).2.currDir.length < 50 := by
  obtain ⟨-, -, htrue⟩ := hfits
  unfold Files.chdir
  split_ifs
  · simp
  · simp only [List.length_cons]
    omega
  · exact hlen

theorem chdir_failed (h : (f.chdir A path).1 = -1) : (f.chdir A path).2 = f := by
  unfold Files.chdir at h ⊢
  split_ifs at h ⊢
  rfl

/-- No other call changes the directory. -/
theorem Files.call_currDir (A : Archive) (f : Files) (c : Call) :
    (f.call A c).2.currDir = f.currDir := by
  cases c with
  | openTarfs path flags around =>
      simp only [Files.call, Files.openTarfs]
      split <;> rfl
  | openDir path around =>
      simp only [Files.call, Files.openDir]
      split_ifs
      · rfl
      · split <;> rfl
  | readTarfs fd count =>
      simp only [Files.call, Files.readTarfs]
      split_ifs <;> rfl
  | readdirTarfs fd => rfl
  | closeTarfs fp => rfl

/-- Where `getcwd` says, with its slash again. -/
theorem withSlash_getcwd {name : List UInt8} (hdir : f.currDir = 47 :: name)
    (hslash : name.getLast? = some 47) (hone : SingleSlash name) :
    withSlash f.getcwd = 47 :: name := by
  obtain ⟨front, rfl⟩ : ∃ front, name = front ++ [47] := List.getLast?_eq_some_iff.mp hslash
  have hfront : front ≠ [] := by
    rintro rfl
    exact hone.1 rfl
  have hcwd : f.getcwd = 47 :: front := by
    rw [Files.getcwd, hdir, if_neg (by simp), ← List.cons_append, List.dropLast_concat]
  have hlast : (47 :: front).getLast? ≠ some 47 := by
    intro hlast
    obtain ⟨rest, hrest⟩ := List.getLast?_eq_some_iff.mp hlast
    cases rest with
    | nil => simp [hfront] at hrest
    | cons x rest =>
        refine hone.2 ⟨rest, ?_⟩
        obtain ⟨-, rfl⟩ := List.cons.inj hrest
        simp
  rw [hcwd, withSlash, if_neg hlast, List.cons_append]

/-- Going to the directory one is in, by its name. -/
theorem chdir_name {name : List UInt8} (hmem : ∃ hd ∈ A.headers.take 32, hd.name = name)
    (hdots : NoDots name) (hnul : (0 : UInt8) ∉ name) (hlen : name.length < 100)
    (hslash : name.getLast? = some 47) : (f.chdir A (47 :: name)).2.currDir = 47 :: name := by
  have hpath := setTruePath_absolute f.currDir hdots hnul hlen
  have hvalid := isValidDirectory_isSome (A := A) hpath hslash hmem
  rw [Files.chdir, if_neg (by simp), if_pos hvalid, hpath]

/-- Going to the root ends in the root, whether there is a header without a name
or not. -/
theorem chdir_root (hdir : f.currDir = [47]) : (f.chdir A [47]).2.currDir = [47] := by
  have hpath : setTruePath f.currDir [47] = [] :=
    setTruePath_absolute (n := []) f.currDir (by decide) (by decide) (by decide)
  unfold Files.chdir
  rw [if_neg (by simp), hpath]
  split_ifs
  · rfl
  · exact hdir

end Chdir

structure Settled (A : Archive) (k : System) : Prop where
  awake : Awake k.sched
  dir : ∀ i, k.IsUser i → IsDirectory (A.headers.take 32) (k.files i).currDir
  length : ∀ i, k.IsUser i → (k.files i).currDir.length < 50

theorem Settled.cur_user {A : Archive} {k : System} (h : Settled A k)
    (hmode : k.sched.mode = .user) : k.IsUser k.sched.r := by
  have hzero := h.awake.toBase.ne_zero_of_mode (by simp [hmode])
  have hone := h.awake.ne_one_of_user hmode
  exact ⟨by omega, h.awake.toBase.cur_state⟩

/-- A step of the scheduler: a process of afterwards was there before, or has
just been forked by one that was. -/
theorem Settled.sched {A : Archive} {k : System} {e : Proc.Event} {s : Sched} (h : Settled A k)
    (hok : SparesIdle e ∧ KillsExisting k.sched e) (hstep : k.sched.step e = some s) :
    Settled A { sched := s, files := k.forked e } := by
  have hfrom : ∀ i, System.IsUser { sched := s, files := k.forked e } i →
      ∃ j, k.IsUser j ∧ (k.forked e i).currDir = (k.files j).currDir := by
    intro i hi
    by_cases hforked : forks k.sched e = some i
    · have hmode : k.sched.mode = .user := by
        cases e with
        | sys call =>
            rw [Sched.step] at hstep
            split_ifs at hstep with hmode
            exact hmode
        | _ => cases hforked
      refine ⟨k.sched.r, h.cur_user hmode, ?_⟩
      rw [System.forked, if_pos hforked]
      rfl
    · refine ⟨i, ⟨hi.1, fun hready => hi.2 ?_⟩, by rw [System.forked, if_neg hforked]⟩
      exact (step_ready h.awake.toBase hok.2 hstep i).mpr (.inl ⟨hready, hforked⟩)
  refine ⟨h.awake.step hok.1 hstep, ?_, ?_⟩
  · intro i hi
    obtain ⟨j, hj, heq⟩ := hfrom i hi
    rw [heq]
    exact h.dir j hj
  · intro i hi
    obtain ⟨j, hj, heq⟩ := hfrom i hi
    rw [heq]
    exact h.length j hj

/-- A change of the files of the current process. -/
theorem Settled.update {A : Archive} {k : System} (h : Settled A k) {f : Files}
    (hdir : IsDirectory (A.headers.take 32) f.currDir) (hlen : f.currDir.length < 50) :
    Settled A { k with files := Function.update k.files k.sched.r f } := by
  refine ⟨h.awake, ?_, ?_⟩
  · intro i hi
    by_cases hr : i = k.sched.r
    · subst hr
      simpa using hdir
    · simpa [Function.update_of_ne hr] using h.dir i hi
  · intro i hi
    by_cases hr : i = k.sched.r
    · subst hr
      simpa using hlen
    · simpa [Function.update_of_ne hr] using h.length i hi

theorem Settled.step {A : Archive} {k k' : System} {act : DirAction} (h : Settled A k)
    (hok : DirOk k act) (hstep : k.dirStep A act = some k') : Settled A k' := by
  cases act with
  | act a =>
      cases a with
      | sched e =>
          obtain ⟨s, hs, rfl⟩ := Option.map_eq_some_iff.mp hstep
          exact h.sched hok hs
      | call c =>
          simp only [System.dirStep, System.step] at hstep
          split_ifs at hstep with hmode
          obtain rfl := Option.some.inj hstep
          have huser := h.cur_user hmode
          refine h.update ?_ ?_
          · rw [Files.call_currDir]
            exact h.dir _ huser
          · rw [Files.call_currDir]
            exact h.length _ huser
  | chdir path =>
      simp only [System.dirStep] at hstep
      split_ifs at hstep with hmode
      obtain rfl := Option.some.inj hstep
      have huser := h.cur_user hmode
      exact h.update (chdir_currDir path (h.dir _ huser)) (chdir_length hok (h.length _ huser))
  | execvpe =>
      simp only [System.dirStep] at hstep
      split_ifs at hstep
      obtain rfl := Option.some.inj hstep
      exact h

theorem Settled.start (A : Archive) {k : System} (h : DirStart k) : Settled A k := by
  obtain ⟨hsched, hroot⟩ := h
  have honly : ∀ i, k.IsUser i → i = 2 := by
    rintro i ⟨hi, hstate⟩
    rw [hsched] at hstate
    by_contra hne
    exact hstate (by simp [boot, bootTable]; omega)
  refine ⟨hsched ▸ Awake.boot, ?_, ?_⟩
  · intro i hi
    rw [honly i hi]
    exact .inl hroot
  · intro i hi
    rw [honly i hi, hroot]
    decide

/-- The names of an index are strings. -/
theorem initTarfs_name {byte : Nat → UInt8} {start fin : Nat} {A : Archive}
    (hA : initTarfs byte start fin = some A) : ∀ h ∈ A.headers, (0 : UInt8) ∉ h.name := by
  obtain ⟨l, -, rfl⟩ := Option.map_eq_some_iff.mp hA
  intro h hh
  obtain ⟨a, -, rfl⟩ := List.mem_map.mp hh
  exact zero_not_mem_strAt _ _ _

/-- The working directory of every process is the root or a directory of the
archive, under the name of its header. A `chdir` that fails changes nothing, and
`getcwd` leaves out the slash at the end; with it, and unless there are names
with two slashes at their end, `chdir` to that place changes nothing either. -/
theorem working_directory (byte : Nat → UInt8) (start fin : Nat) (A : Archive)
    (hA : initTarfs byte start fin = some A) (hdots : ∀ h ∈ A.headers, NoDots h.name) (k : System)
    (hk : Reachable (System.dirStep A) DirOk DirStart k) (i : Nat) (hi : k.IsUser i) :
    IsDirectory A.headers (k.files i).currDir ∧
      (∀ path, ((k.files i).chdir A path).1 = -1 →
        ((k.files i).chdir A path).2.currDir = (k.files i).currDir) ∧
      ((k.files i).currDir = [47] ∧ (k.files i).getcwd = [47] ∨
        (k.files i).currDir ≠ [47] ∧ (k.files i).currDir = (k.files i).getcwd ++ [47]) ∧
      ((∀ h ∈ A.headers, SingleSlash h.name) →
        ((k.files i).chdir A (withSlash (k.files i).getcwd)).2.currDir = (k.files i).currDir) := by
  have hinv : Settled A k :=
    hk.invariant (P := Settled A) (fun _ => Settled.start A) (fun _ _ _ h => h.step)
  have hlen := hinv.length i hi
  have hdir := hinv.dir i hi
  generalize k.files i = f at hlen hdir ⊢
  refine ⟨?_, fun path hfail => by rw [chdir_failed hfail], ?_, fun hone => ?_⟩
  · exact hdir.imp_right fun ⟨h, hmem, hh⟩ => ⟨h, List.mem_of_mem_take hmem, hh⟩
  · obtain hroot | ⟨h, hmem, hslash, hname⟩ := hdir
    · exact .inl ⟨hroot, by simp [Files.getcwd, hroot]⟩
    · right
      obtain ⟨front, hfront⟩ := List.getLast?_eq_some_iff.mp hslash
      rw [Files.getcwd, hname, hfront, if_neg (by simp), ← List.cons_append, List.dropLast_concat]
      exact ⟨by simp, rfl⟩
  · obtain hroot | ⟨h, hmem, hslash, hname⟩ := hdir
    · have hcwd : withSlash f.getcwd = [47] := by simp [Files.getcwd, hroot, withSlash]
      rw [hcwd, chdir_root hroot, hroot]
    · have hin := List.mem_of_mem_take hmem
      have hshort : h.name.length < 100 := by
        rw [hname, List.length_cons] at hlen
        omega
      rw [withSlash_getcwd hname hslash (hone h hin), hname]
      exact chdir_name ⟨h, hmem, rfl⟩ (hdots h hin) (initTarfs_name hA h hin) hshort hslash

/-- The shell enters a directory by its absolute path. -/
theorem reachable_chdir {A : Archive} {name : List UInt8}
    (hmem : ∃ hd ∈ A.headers.take 32, hd.name = name) (hdots : NoDots name)
    (hnul : (0 : UInt8) ∉ name) (hlen : name.length < 49) (hslash : name.getLast? = some 47) :
    ∃ k, Reachable (System.dirStep A) DirOk DirStart k ∧ k.IsUser 2 ∧
      (k.files 2).currDir = 47 :: name := by
  have hstart : Reachable (System.dirStep A) DirOk DirStart bootUsage.sys := .start ⟨rfl, rfl⟩
  have hfits : FitsBuffers bootUsage.sys.cur.currDir (47 :: name) := by
    refine ⟨by rw [List.length_cons]; omega, by rw [filePath_absolute]; omega, ?_⟩
    rw [setTruePath_absolute _ hdots hnul (by omega)]
    exact hlen
  refine ⟨_, hstart.next (e := .chdir (47 :: name)) hfits rfl, ⟨by omega, ?_⟩, ?_⟩
  · exact (by decide : (bootTable 2).state ≠ .ready)
  · exact chdir_name hmem hdots hnul (by omega) hslash

theorem exists_header {A : Archive} {names : List (List UInt8)} {name : List UInt8}
    (hnames : A.headers.map Header.name = names) (h : name ∈ names.take 32) :
    ∃ hd ∈ A.headers.take 32, hd.name = name := by
  rw [← hnames, ← List.map_take] at h
  exact List.mem_map.mp h

/-- The shell in the directory `a`. -/
theorem working_directory_one :
    ∃ A k, Reachable (System.dirStep A) DirOk DirStart k ∧ (k.files 2).currDir = [47, 97, 47] ∧
      ((k.files 2).chdir A (withSlash (k.files 2).getcwd)).2.currDir = [47, 97, 47] := by
  obtain ⟨byte, fin, A, hA, -, hnames⟩ := @index_files [[97, 47]] (by decide) (by decide)
  have hall : ∀ h ∈ A.headers, h.name = [97, 47] ∨ h.name = [] := by
    intro h hh
    have hin : h.name ∈ A.headers.map Header.name := List.mem_map_of_mem hh
    simpa [hnames] using hin
  obtain ⟨k, hk, huser, hdir⟩ := reachable_chdir
    (exists_header hnames (show [97, 47] ∈ _ by decide)) (by decide) (by decide) (by decide)
    (by decide)
  obtain ⟨-, -, -, hstay⟩ := working_directory byte 4096 fin A hA
    (by
      intro h hh
      obtain hn | hn := hall h hh <;> rw [hn] <;> decide)
    k hk 2 huser
  refine ⟨A, k, hk, hdir, ?_⟩
  rw [hstay, hdir]
  intro h hh
  obtain hn | hn := hall h hh <;> rw [hn] <;> exact ⟨by decide, by decide⟩

/-- Two directories, `a/` and `a//`: from the second, `chdir` to where `getcwd`
says leads to the first. -/
theorem chdir_getcwd_moves :
    ¬ ∀ (byte : Nat → UInt8) (start fin : Nat) (A : Archive), initTarfs byte start fin = some A →
      (∀ h ∈ A.headers, NoDots h.name) → ∀ k, Reachable (System.dirStep A) DirOk DirStart k →
      ∀ i, k.IsUser i →
        ((k.files i).chdir A (withSlash (k.files i).getcwd)).2.currDir = (k.files i).currDir := by
  intro hall
  obtain ⟨byte, fin, A, hA, -, hnames⟩ := @index_files [[97, 47], [97, 47, 47]] (by decide)
    (by decide)
  have hdots : ∀ h ∈ A.headers, NoDots h.name := by
    intro h hh
    have hin : h.name ∈ A.headers.map Header.name := List.mem_map_of_mem hh
    rw [hnames] at hin
    revert hin
    generalize h.name = name
    revert name
    decide
  obtain ⟨k, hk, huser, hdir⟩ := reachable_chdir
    (exists_header hnames (show [97, 47, 47] ∈ _ by decide)) (by decide) (by decide) (by decide)
    (by decide)
  have hstay := hall byte 4096 fin A hA hdots k hk 2 huser
  have hcwd : withSlash (k.files 2).getcwd = [47, 97, 47] := by
    rw [Files.getcwd, hdir]
    decide
  rw [hcwd, chdir_name (exists_header hnames (by decide)) (by decide) (by decide) (by decide)
    (by decide), hdir] at hstay
  exact absurd hstay (by decide)

end X86Kernel.Fs
