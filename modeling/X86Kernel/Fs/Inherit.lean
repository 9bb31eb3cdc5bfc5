import X86Kernel.Fs.Descriptors

/-!
What a child gets of its parent's descriptors. `copytask` goes through the task
field by field and leaves out `fd` and `fd_c`, so the child finds what the last
process in its slot has left there.
-/

namespace X86Kernel.Fs

open Lib Proc

def SameTable (f g : Files) : Prop := f.fdC = g.fdC ∧ ∀ j, 0 ≤ j → j < 25 → f.fd j = g.fd j

def System.withPrior (k : System) (i : Nat) (p : Files) : System :=
  { k with files := Function.update k.files i p }

/-- The files of slot `pid` after the current process has forked. -/
def System.childFiles (A : Archive) (k : System) (pid : Nat) : Option Files :=
  (k.step A (.sched (.sys .fork))).map fun t => t.files pid

def Files.run (A : Archive) : Files → List Call → List Result
  | _, [] => []
  | f, c :: cs => (f.call A c).1 :: Files.run A (f.call A c).2 cs

def Files.Stays (A : Archive) : Files → List Call → Prop
  | _, [] => True
  | f, c :: cs => (∀ j ∈ f.indices A c, 0 ≤ j ∧ j < 25) ∧ Files.Stays A (f.call A c).2 cs

theorem childFiles_eq (A : Archive) {k : System} {pid : Nat} (p : Files)
    (hmode : k.sched.mode = .user) (hparent : (k.sched.q k.sched.r).state ≠ .ready)
    (hpid : newPID k.sched.q = some pid) :
    (k.withPrior pid p).childFiles A pid = some { p with currDir := k.cur.currDir } := by
  have hne : k.sched.r ≠ pid := by
    rintro rfl
    exact hparent (newPID_some hpid).2
  simp [System.childFiles, System.step, System.withPrior, Sched.step, Sched.syscall, hmode,
    System.forked, forks, hpid, copytask, System.cur, Function.update_of_ne hne]

section Calls

variable {A : Archive} {f g : Files}

/-- The same descriptor is replaced in both tables. -/
theorem SameTable.update (h : SameTable f g) (n j : Int) (t : FileT) :
    SameTable { f with fdC := n, fd := Function.update f.fd j t }
      { g with fdC := n, fd := Function.update g.fd j t } := by
  refine ⟨rfl, ?_⟩
  intro i h0 h25
  by_cases hi : i = j
  · simp [hi]
  · simp only [Function.update_of_ne hi]
    exact h.2 i h0 h25

theorem SameTable.install (h : SameTable f g) (hdir : f.currDir = g.currDir)
    (hfit : 0 ≤ f.fdC + 3 ∧ f.fdC + 3 < 25) (hd : Header) (flags : Option Int)
    (around : Around) :
    (f.install hd flags around).1 = (g.install hd flags around).1 ∧
      SameTable (f.install hd flags around).2 (g.install hd flags around).2 ∧
      (f.install hd flags around).2.currDir = (g.install hd flags around).2.currDir := by
  have hcell := h.2 _ hfit.1 hfit.2
  unfold Files.install
  rw [h.1] at hcell ⊢
  simp only [hcell]
  exact ⟨trivial, h.update _ _ _, hdir⟩

/-- A call inside the table does the same to both. -/
theorem SameTable.call (h : SameTable f g) (hdir : f.currDir = g.currDir) {c : Call}
    (hstay : ∀ j ∈ f.indices A c, 0 ≤ j ∧ j < 25) :
    (f.call A c).1 = (g.call A c).1 ∧ SameTable (f.call A c).2 (g.call A c).2 ∧
      (f.call A c).2.currDir = (g.call A c).2.currDir := by
  cases c with
  | openTarfs path flags around =>
      simp only [Files.call, Files.openTarfs]
      rw [← hdir]
      cases hfind : (isfileexists A f.currDir path).bind fun n => A.headers[n]? with
      | none => exact ⟨rfl, h, hdir⟩
      | some hd =>
          exact h.install hdir (hstay _ (by simp [Files.indices, Files.opens, hfind])) hd _ _
  | openDir path around =>
      simp only [Files.call, Files.openDir]
      rw [← hdir]
      split_ifs with hroot
      · have hfit := hstay (f.fdC + 3) (by simp [Files.indices, Files.opens, hroot])
        have hcell := h.2 _ hfit.1 hfit.2
        rw [h.1] at hcell ⊢
        rw [hcell]
        exact ⟨rfl, h.update _ _ _, rfl⟩
      · cases hfind : (isValidDirectory A f.currDir path).bind fun n => A.headers[n]? with
        | none => exact ⟨rfl, h, hdir⟩
        | some hd =>
            exact h.install hdir (hstay _ (by simp [Files.indices, Files.opens, hfind])) hd _ _
  | readTarfs fd count =>
      have hfit := hstay fd (by simp [Files.indices])
      have hcell := h.2 fd hfit.1 hfit.2
      simp only [Files.call, Files.readTarfs, hcell]
      split_ifs
      · exact ⟨rfl, h, hdir⟩
      · exact ⟨rfl, h, hdir⟩
      · exact ⟨rfl, h, hdir⟩
      · exact ⟨rfl, h, hdir⟩
  | readdirTarfs fd =>
      have hfit := hstay fd (by simp [Files.indices])
      have hcell := h.2 fd hfit.1 hfit.2
      simp only [Files.call, Files.readdirTarfs, hcell]
      have hupd := h.update f.fdC fd
        { g.fd fd with entry := (readdirLoop (g.fd fd).fileName (A.headers.take 32) 0
          (g.fd fd).entry).2 }
      exact ⟨trivial, ⟨h.1, hupd.2⟩, hdir⟩
  | closeTarfs fp =>
      have hfit := hstay fp (by simp [Files.indices])
      have hcell := h.2 fp hfit.1 hfit.2
      simp only [Files.call, Files.closeTarfs, hcell]
      exact ⟨trivial, h, hdir⟩

/-- So does a whole sequence of calls. -/
theorem SameTable.run (h : SameTable f g) (hdir : f.currDir = g.currDir) {cs : List Call}
    (hstay : f.Stays A cs) : f.run A cs = g.run A cs := by
  induction cs generalizing f g with
  | nil => rfl
  | cons c cs ih =>
      obtain ⟨hfirst, hrest⟩ := hstay
      obtain ⟨hret, hsame, hdir'⟩ := h.call hdir hfirst
      rw [Files.run, Files.run, hret, ih hsame hdir' hrest]

end Calls

/-- A child's descriptors come from its parent exactly when they were in the
slot already. For every parent and any two contents left in the slot that
`fork` takes: the child has its parent's table in both cases, and its calls give
the same results, if and only if both contents were the parent's. -/
theorem child_descriptors_from_parent (A : Archive) (k : System) (pid : Nat) (p p' : Files)
    (hmode : k.sched.mode = .user) (hparent : (k.sched.q k.sched.r).state ≠ .ready)
    (hpid : newPID k.sched.q = some pid) :
    (∃ c c', (k.withPrior pid p).childFiles A pid = some c ∧
        (k.withPrior pid p').childFiles A pid = some c' ∧
        SameTable c k.cur ∧ SameTable c' k.cur ∧
        ∀ cs, c.Stays A cs → c.run A cs = c'.run A cs) ↔
      SameTable p k.cur ∧ SameTable p' k.cur := by
  rw [childFiles_eq A p hmode hparent hpid, childFiles_eq A p' hmode hparent hpid]
  constructor
  · rintro ⟨c, c', hc, hc', hsame, hsame', -⟩
    obtain rfl := Option.some.inj hc
    obtain rfl := Option.some.inj hc'
    exact ⟨hsame, hsame'⟩
  · rintro ⟨hsame, hsame'⟩
    refine ⟨_, _, rfl, rfl, hsame, hsame', ?_⟩
    intro cs hstay
    refine SameTable.run (f := { p with currDir := k.cur.currDir })
      (g := { p' with currDir := k.cur.currDir }) ⟨?_, ?_⟩ rfl hstay
    · exact hsame.1.trans hsame'.1.symm
    · intro j h0 h25
      exact (hsame.2 j h0 h25).trans (hsame'.2 j h0 h25).symm

/-- The shell forks into a slot that was never used. -/
theorem child_descriptors_from_parent_shell :
    ∃ c, (bootUsage.sys.withPrior 3 bootUsage.sys.cur).childFiles emptyArchive 3 = some c ∧
      SameTable c bootUsage.sys.cur := by
  have hsame : SameTable bootUsage.sys.cur bootUsage.sys.cur := ⟨rfl, fun _ _ _ => rfl⟩
  obtain ⟨c, -, hc, -, hchild, -⟩ := (child_descriptors_from_parent emptyArchive bootUsage.sys 3
    bootUsage.sys.cur bootUsage.sys.cur rfl (by decide) (by decide +kernel)).mpr ⟨hsame, hsame⟩
  exact ⟨c, hc, hchild⟩

/-- The shell forks into a slot whose last process has opened a file: the
child's counter is 1 and the shell's is 0. -/
theorem child_keeps_stale_descriptors :
    ¬ ∀ (A : Archive) (k : System) (pid : Nat) (p : Files), k.sched.mode = .user →
      (k.sched.q k.sched.r).state ≠ .ready → newPID k.sched.q = some pid →
      ∃ c, (k.withPrior pid p).childFiles A pid = some c ∧ SameTable c k.cur := by
  intro hall
  obtain ⟨c, hc, hsame⟩ := hall emptyArchive bootUsage.sys 3
    { bootUsage.sys.cur with fdC := 1 } rfl (by decide) (by decide +kernel)
  rw [childFiles_eq emptyArchive _ rfl (by decide) (by decide +kernel)] at hc
  obtain rfl := Option.some.inj hc
  exact absurd hsame.1 (by decide)

end X86Kernel.Fs
