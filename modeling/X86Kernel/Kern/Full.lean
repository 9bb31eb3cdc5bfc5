import X86Kernel.Kern.Child
import X86Kernel.Kern.Progress
import X86Kernel.Kern.Start

/-!
`fork` as a whole, and what it does when the table is full. `newPID` then returns -1,
which nobody tests: `new` is `&q[-1]`, and `fork` goes on as for any other slot. It
returns -1 in the end, but by then the caller has one child more and its pages are
shared with tables that belong to no process.
-/

namespace X86Kernel.Kern

open Lib Paging Proc

def forkRet (q : Table) : Int :=
  match newPID q with
  | some pid => pid
  | none => -1

structure Untouched (k k' : System) : Prop where
  q : k'.sched.q = k.sched.q
  walk : ∀ v, idx v 39 < 511 → k'.mem.walk k.cur.root v = k.mem.walk k.cur.root v
  count : ∀ f, (k'.mem.page f).refCount = (k.mem.page f).refCount
  free : ∀ l, FreeList k'.mem l ↔ FreeList k.mem l

/-- There is a new process in the slot `pid`. The caller has one child more, the entries
of its page tables are shared, and frames have been taken off the free list; nothing
else has changed. -/
structure NewProcess (k k' : System) (pid : Nat) : Prop where
  child : (k'.sched.q pid).state = .running ∧ (k'.sched.q pid).pid = pid ∧
    (k'.sched.q pid).ppid = (k.sched.q k.sched.r).pid
  slots : ∀ j, j ≠ pid → k'.sched.q j = if j = k.sched.r then
    { k.sched.q j with childCount := (k.sched.q j).childCount + 1 } else k.sched.q j
  cpu : k'.sched = { k.sched with q := k'.sched.q, ctl := k'.sched.ctl }
  others : ∀ j, j ≠ pid →
    k'.sched.ctl j = k.sched.ctl j ∧ k'.space j = k.space j ∧ k'.hung j = k.hung j
  tables : pageTables.Agree shareEntry k.mem.word k'.mem.word 3 k.cur.root
  kernel : k'.mem.word k.cur.root 511 = k.mem.word k.cur.root 511 ∧ k'.mem.kpml4 = k.mem.kpml4
  frame : ∀ f, ¬ OnFreeList k.mem f → ¬ pageTables.Table k.mem.word 3 k.cur.root f →
    k'.mem.word f = k.mem.word f
  free : ∀ f, OnFreeList k'.mem f → OnFreeList k.mem f

/-- With no slot free `fork` fails and has done nothing; else the first free slot gets
the child. -/
def CleanFork (k k' : System) : Prop :=
  ((∀ i < MAX, (k.sched.q i).state ≠ .ready) → forkRet k.sched.q < 0 ∧ Untouched k k') ∧
  ∀ pid < MAX, (k.sched.q pid).state = .ready → (∀ j < pid, (k.sched.q j).state ≠ .ready) →
    forkRet k.sched.q = pid ∧ NewProcess k k' pid

section Fork

variable {k k' : System} {G : Ghost} {la : List Nat}

/-- The system call, from user code. -/
theorem fork_step (huser : k.inUser = true) : k.step (.sched (.sys .fork)) =
    (copytask k.mem k.cur).map fun r => k.forked k.sched.fork r.1 r.2 := by
  have hmode : k.sched.mode = .user := by
    unfold System.inUser at huser
    simp only [decide_eq_true_eq] at huser
    exact huser.1
  have hsched : k.sched.step (.sys .fork) = some k.sched.fork := by
    simp only [Sched.step, hmode, if_true]
    rfl
  simp only [System.step, huser, if_true, System.schedStep, hsched, Option.bind_eq_bind,
    Option.bind_some]
  cases copytask k.mem k.cur with
  | none => rfl
  | some r => rfl

/-- `fork` returns if and only if there is a frame for the new PML4, for each table and
for each area. -/
theorem fork_returns_iff (h : Inv k.mem G) (hL : Listed k.mem G k.cur.root k.cur.vm la)
    (huser : k.inUser = true) :
    (∃ k', k.step (.sched (.sys .fork)) = some k') ↔
      Supplied (childFrames k.mem k.cur la) k.mem := by
  obtain ⟨s, hP, -⟩ := hL.parent h
  rw [fork_step huser]
  obtain ⟨c, m', hrun, hC⟩ | ⟨hrun, hlen⟩ := copytask_or hP
  · rw [hrun]
    exact iff_of_true ⟨_, rfl⟩ ⟨s, hP.stock.list, hC.spends.enough⟩
  · rw [hrun]
    refine iff_of_false (by simp) ?_
    rintro ⟨l, hl, henough⟩
    obtain rfl := Chain.unique hl hP.stock.list
    omega

/-- The child count has changed in any case. -/
theorem fork_counts (hstep : k.step (.sched (.sys .fork)) = some k') (huser : k.inUser = true)
    (hfull : ∀ i < MAX, (k.sched.q i).state ≠ .ready) : k'.sched.q ≠ k.sched.q := by
  rw [fork_step huser] at hstep
  obtain ⟨r, -, rfl⟩ := Option.map_eq_some_iff.mp hstep
  intro hcon
  have hnone : newPID k.sched.q = none := by
    rw [Option.eq_none_iff_forall_ne_some]
    exact fun pid hn => hfull pid (newPID_some hn).1 (newPID_some hn).2
  have hcount := congrArg Task.childCount (congrFun hcon k.sched.r)
  rw [forked_sched] at hcount
  simp [Sched.fork, Proc.fork, hnone] at hcount

/-- A free slot gets the child. -/
theorem fork_newProcess {s : List Nat} {c : Space} {m' : Mem} {pid n : Nat}
    (hs : ∀ f, f ∈ s ↔ OnFreeList k.mem f) (hC : Copies k.mem k.cur.root s n m')
    (hcur : (k.sched.q k.sched.r).state ≠ .ready) (hpid : newPID k.sched.q = some pid) :
    NewProcess k (k.forked k.sched.fork c m') pid := by
  have hne : k.sched.r ≠ pid := by
    rintro rfl
    exact hcur (newPID_some hpid).2
  have hfree : ∀ f, OnFreeList m' f → f ∈ s.drop n :=
    fun f hf => (Chain.along_iff hC.spends.stock.list f).mp hf
  have hforked : k.forked k.sched.fork c m' = { k with
      sched := k.sched.fork, space := Function.update k.space pid c, mem := m',
      hung := Function.update k.hung pid false } := by
    unfold System.forked
    rw [hpid]
  rw [hforked]
  refine ⟨⟨?_, ?_, ?_⟩, ?_, rfl, ?_, hC.parent, ⟨hC.past 511 (by decide), hC.spends.kpml4⟩, ?_, ?_⟩
  · simp [Sched.fork, fork_state, hpid]
  · simp [Sched.fork, hpid]
  · simp [Sched.fork, fork_ppid, hpid]
  · intro j hj
    by_cases hjr : j = k.sched.r
    · subst hjr
      simp [Sched.fork, Proc.fork, hpid, Table.modify_ne _ _ hj]
    · simp [Sched.fork, Proc.fork, hpid, Table.modify_ne _ _ hj, Table.modify_ne _ _ hjr, hjr]
  · intro j hj
    simp [Sched.fork, hpid, hj]
  · intro f hf hft
    refine hC.spends.frame f hft (fun hcon => hf ?_)
    exact (hs f).mp (List.mem_of_mem_take hcon)
  · exact fun f hf => (hs f).mp (List.mem_of_mem_drop (hfree f hf))

end Fork

/-- `fork` does what it should if and only if there is a free slot, and frames enough for
a PML4, the tables and the areas of the child. -/
theorem fork_clean_iff (k : System) (G : Ghost) (la : List Nat) (h : Inv k.mem G)
    (hL : Listed k.mem G k.cur.root k.cur.vm la) (huser : k.inUser = true)
    (hcur : (k.sched.q k.sched.r).state ≠ .ready) :
    (∃ k', k.step (.sched (.sys .fork)) = some k' ∧ CleanFork k k') ↔
      (∃ i < MAX, (k.sched.q i).state = .ready) ∧
        Supplied (childFrames k.mem k.cur la) k.mem := by
  rw [← fork_returns_iff h hL huser]
  constructor
  · rintro ⟨k', hstep, hfull, -⟩
    refine ⟨?_, k', hstep⟩
    by_contra hcon
    push Not at hcon
    exact fork_counts hstep huser hcon (hfull hcon).2.q
  · rintro ⟨⟨i, hi, hready⟩, k', hstep⟩
    refine ⟨k', hstep, fun hfull => absurd hready (hfull i hi), ?_⟩
    intro pid hlt hpid hleast
    have hnew : newPID k.sched.q = some pid := newPID_eq_some_iff.mpr ⟨hlt, hpid, hleast⟩
    obtain ⟨s, hP, hs⟩ := hL.parent h
    rw [fork_step huser] at hstep
    obtain ⟨⟨c, m'⟩, hrun, rfl⟩ := Option.map_eq_some_iff.mp hstep
    obtain ⟨c₁, m₁, hrun₁, hC⟩ | ⟨hrun₁, -⟩ := copytask_or hP
    · obtain ⟨rfl, rfl⟩ : c₁ = c ∧ m₁ = m' := by simpa [hrun] using hrun₁.symm
      exact ⟨by rw [forkRet, hnew], fork_newProcess
        (fun f => (hs f).trans (onFreeList_iff h f).symm) hC hcur hnew⟩
    · simp [hrun] at hrun₁

/-- The shell of the small machine, and the memory its child gets. -/
theorem shell_forks : ∃ (k : System) (G : Ghost) (la : List Nat) (c : Space) (m' : Mem),
    Inv k.mem G ∧ Listed k.mem G k.cur.root k.cur.vm la ∧ k.inUser = true ∧
      k.sched = Proc.boot ∧ copytask k.mem k.cur = some (c, m') := by
  have hrun : ((System.start smallMem emptyImage []).bind fun k =>
      if k.inUser then copytask k.mem k.cur else none).isSome = true := by
    decide +kernel
  obtain ⟨⟨c, m'⟩, hrun⟩ := Option.isSome_iff_exists.mp hrun
  obtain ⟨k, hk, hcopy⟩ := Option.bind_eq_some_iff.mp hrun
  split_ifs at hcopy with huser
  obtain ⟨G, hgood, hboot, -⟩ := smallMem_boot.start emptyImage_ok (by decide) hk
  obtain ⟨s, t, rest, hL⟩ := (hgood.cur_valid huser).areas
  exact ⟨k, G, _, c, m', hgood.inv, hL, huser, hboot, hcopy⟩

/-- It gets slot 3. -/
theorem fork_clean_iff_shell : ∃ k k' : System, k.sched = Proc.boot ∧
    k.step (.sched (.sys .fork)) = some k' ∧ CleanFork k k' := by
  obtain ⟨k, G, la, c, m', hI, hL, huser, hboot, hcopy⟩ := shell_forks
  have hstep : k.step (.sched (.sys .fork)) = some (k.forked k.sched.fork c m') := by
    rw [fork_step huser, hcopy]
    rfl
  obtain ⟨k', hrun, hclean⟩ := (fork_clean_iff k G la hI hL huser (by rw [hboot]; decide)).mpr
    ⟨⟨3, by decide, by rw [hboot]; rfl⟩, (fork_returns_iff hI hL huser).mp ⟨_, hstep⟩⟩
  exact ⟨k, k', hboot, hrun, hclean⟩

/-- A system with a process in every slot. -/
def System.crowded (k : System) : System :=
  { k with sched := { k.sched with q := fun i => { k.sched.q i with state := .running } } }

/-- The shell forks when the table is full. -/
theorem full_table_changes : ¬ ∀ (k k' : System) (G : Ghost) (la : List Nat), Inv k.mem G →
    Listed k.mem G k.cur.root k.cur.vm la → k.inUser = true →
    (k.sched.q k.sched.r).state ≠ .ready → k.step (.sched (.sys .fork)) = some k' →
    CleanFork k k' := by
  intro hall
  obtain ⟨k, G, la, c, m', hI, hL, huser, -, hcopy⟩ := shell_forks
  have huser' : k.crowded.inUser = true := huser
  have hcopy' : copytask k.crowded.mem k.crowded.cur = some (c, m') := hcopy
  have hstep : k.crowded.step (.sched (.sys .fork)) =
      some (k.crowded.forked k.crowded.sched.fork c m') := by
    rw [fork_step huser', hcopy']
    rfl
  have hfull : ∀ i, (k.crowded.sched.q i).state ≠ .ready := fun _ hcon => PState.noConfusion hcon
  have hclean := hall k.crowded _ G la hI hL huser' (hfull _) hstep
  exact fork_counts hstep huser' (fun i _ => hfull i) (hclean.1 fun i _ => hfull i).2.q

end X86Kernel.Kern
