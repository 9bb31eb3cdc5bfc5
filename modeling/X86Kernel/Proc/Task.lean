import Mathlib.Tactic

/-!
The process table `q` and the operations of `process.c` on it. Only the fields
that scheduling, waiting and killing read or write are here; the memory fields
of `task_struct` (`pml4e`, `vm`) belong to the memory model.

A slot is a natural number. The C loops `for (i = 0; i < MAX; ++i)` run over
`slots`; a pid is the number of its slot.
-/

namespace X86Kernel.Proc

def MAX : Nat := 1100

/-- The states of `task_struct`, in the order of the enumeration. -/
inductive PState where
  | running
  | sleeping
  | zombie
  | idle
  | ready
  | wait
  | suspended
  deriving DecidableEq, Repr

structure Task where
  state : PState
  time : Int
  pid : Nat
  ppid : Nat
  childCount : Nat
  deriving DecidableEq, Repr

abbrev Table := Nat → Task

/-- The indices of the loops over the whole table, in loop order. Irreducible,
so that no tactic ever unrolls a loop over the table. -/
@[irreducible] def slots : List Nat := List.range MAX

def Table.modify (q : Table) (i : Nat) (f : Task → Task) : Table :=
  Function.update q i (f (q i))

def Table.setState (q : Table) (i : Nat) (st : PState) : Table :=
  q.modify i fun t => { t with state := st }

@[simp] theorem mem_slots (i : Nat) : i ∈ slots ↔ i < MAX := by
  unfold slots
  exact List.mem_range

theorem nodup_slots : slots.Nodup := by
  unfold slots
  exact List.nodup_range

@[simp] theorem Table.modify_same (q : Table) (i : Nat) (f : Task → Task) :
    q.modify i f i = f (q i) := by
  simp [Table.modify]

theorem Table.modify_ne (q : Table) {i j : Nat} (f : Task → Task) (h : j ≠ i) :
    q.modify i f j = q j := by
  simp [Table.modify, h]

theorem Table.setState_apply (q : Table) (i j : Nat) (st : PState) :
    q.setState i st j = if j = i then { q i with state := st } else q j := by
  by_cases h : j = i
  · subst h
    simp [Table.setState]
  · simp [Table.setState, Table.modify_ne q _ h, h]

@[simp] theorem Table.setState_pid (q : Table) (i j : Nat) (st : PState) :
    (q.setState i st j).pid = (q j).pid := by
  rw [Table.setState_apply]
  split_ifs with h <;> simp_all

@[simp] theorem Table.setState_ppid (q : Table) (i j : Nat) (st : PState) :
    (q.setState i st j).ppid = (q j).ppid := by
  rw [Table.setState_apply]
  split_ifs with h <;> simp_all

theorem Table.setState_state (q : Table) (i j : Nat) (st : PState) :
    (q.setState i st j).state = if j = i then st else (q j).state := by
  rw [Table.setState_apply]
  split_ifs <;> rfl

/-- A loop over the whole table whose body reads and writes only `q[i]`: its
iterations are independent, so it acts on every slot at once. -/
def Table.forEach (q : Table) (f : Task → Task) : Table := fun j =>
  if j < MAX then f (q j) else q j

theorem foldl_modify_apply (f : Task → Task) (l : List Nat) (hl : l.Nodup)
    (q : Table) (j : Nat) :
    (l.foldl (fun q i => q.modify i f) q) j = if j ∈ l then f (q j) else q j := by
  induction l generalizing q with
  | nil => simp
  | cons i rest ih =>
      obtain ⟨hi, hrest⟩ := List.nodup_cons.mp hl
      rw [List.foldl_cons, ih hrest]
      by_cases hj : j = i
      · subst hj
        simp [hi]
      · simp [hj, Table.modify_ne q f hj]

/-- `forEach` is the C loop, one slot after the other. -/
theorem Table.forEach_eq_loop (q : Table) (f : Task → Task) :
    q.forEach f = slots.foldl (fun q i => q.modify i f) q := by
  funext j
  rw [foldl_modify_apply f slots nodup_slots]
  simp [Table.forEach]

/-- `newPID`: the first `READY` slot. The C function returns `-1` when there
is none, which is `none` here. -/
def newPID (q : Table) : Option Nat :=
  slots.find? fun i => (q i).state = .ready

theorem newPID_eq_some_iff {q : Table} {i : Nat} :
    newPID q = some i ↔
      i < MAX ∧ (q i).state = .ready ∧ ∀ j < i, (q j).state ≠ .ready := by
  unfold newPID slots
  rw [List.find?_range_eq_some]
  simp only [decide_eq_true_eq, List.mem_range, Bool.not_eq_true', decide_eq_false_iff_not]
  tauto

theorem newPID_some {q : Table} {i : Nat} (h : newPID q = some i) :
    i < MAX ∧ (q i).state = .ready :=
  ⟨(newPID_eq_some_iff.mp h).1, (newPID_eq_some_iff.mp h).2.1⟩

/-- The loop of `exit` and `kill` that gives the children of `pid` to init. -/
def reparent (q : Table) (pid : Nat) : Table :=
  q.forEach fun t => if t.ppid = pid then { t with ppid := 0 } else t

theorem reparent_apply (q : Table) (pid j : Nat) :
    reparent q pid j =
      if j < MAX ∧ (q j).ppid = pid then { q j with ppid := 0 } else q j := by
  by_cases hj : j < MAX <;> simp [reparent, Table.forEach, hj]

@[simp] theorem reparent_state (q : Table) (pid j : Nat) :
    (reparent q pid j).state = (q j).state := by
  rw [reparent_apply]
  split_ifs <;> rfl

@[simp] theorem reparent_pid (q : Table) (pid j : Nat) :
    (reparent q pid j).pid = (q j).pid := by
  rw [reparent_apply]
  split_ifs <;> rfl

theorem reparent_ppid (q : Table) (pid j : Nat) :
    (reparent q pid j).ppid =
      if j < MAX ∧ (q j).ppid = pid then 0 else (q j).ppid := by
  rw [reparent_apply]
  split_ifs <;> rfl

/-- `if (q[q[i].ppid].state == WAIT) q[q[i].ppid].state = RUNNING;` -/
def wakeParent (q : Table) (i : Nat) : Table :=
  if (q (q i).ppid).state = .wait then q.setState (q i).ppid .running else q

@[simp] theorem wakeParent_pid (q : Table) (i j : Nat) :
    (wakeParent q i j).pid = (q j).pid := by
  unfold wakeParent
  split_ifs <;> simp

@[simp] theorem wakeParent_ppid (q : Table) (i j : Nat) :
    (wakeParent q i j).ppid = (q j).ppid := by
  unfold wakeParent
  split_ifs <;> simp

theorem wakeParent_state (q : Table) (i j : Nat) :
    (wakeParent q i j).state =
      if j = (q i).ppid ∧ (q j).state = .wait then .running else (q j).state := by
  unfold wakeParent
  by_cases hj : j = (q i).ppid
  · subst hj
    by_cases hw : (q (q i).ppid).state = .wait <;> simp [hw, Table.setState_state]
  · split_ifs <;> simp_all [Table.setState_state]

/-- The common tail of `exit` and `kill`: slot `i` becomes a zombie, the
children of `pid` go to init and the parent of `i` is woken. `exit` passes
`r->pid` for `pid`, `kill` its argument. -/
def die (q : Table) (i pid : Nat) : Table :=
  wakeParent (reparent (q.setState i .zombie) pid) i

def exit (q : Table) (r : Nat) : Table := die q r (q r).pid

/-- `kill(pid)`. Nothing about the victim is checked. -/
def kill (q : Table) (pid : Nat) : Table := die q pid pid

@[simp] theorem die_pid (q : Table) (i pid j : Nat) :
    (die q i pid j).pid = (q j).pid := by
  simp [die]

theorem die_ppid (q : Table) (i pid j : Nat) :
    (die q i pid j).ppid =
      if j < MAX ∧ (q j).ppid = pid then 0 else (q j).ppid := by
  simp [die, reparent_ppid]

/-- What a death does to the states: the victim is a zombie, and its parent,
read after reparenting, runs if it was waiting. -/
theorem die_state (q : Table) (i pid j : Nat) :
    (die q i pid j).state =
      if j = i then .zombie
      else if j = (die q i pid i).ppid ∧ (q j).state = .wait then .running
      else (q j).state := by
  have hpp : (die q i pid i).ppid = (reparent (q.setState i .zombie) pid i).ppid := by
    simp [die]
  rw [hpp]
  unfold die
  rw [wakeParent_state]
  by_cases hj : j = i
  · subst hj
    simp [Table.setState_state]
  · simp [Table.setState_state, hj]

def zombieChild (q : Table) (r : Nat) : Option Nat :=
  slots.find? fun i => (q i).ppid = (q r).pid ∧ (q i).state = .zombie

theorem zombieChild_some {q : Table} {r i : Nat} (h : zombieChild q r = some i) :
    i < MAX ∧ (q i).ppid = (q r).pid ∧ (q i).state = .zombie := by
  unfold zombieChild at h
  have hmem : i ∈ slots := List.mem_of_find?_eq_some h
  exact ⟨(mem_slots i).mp hmem, by simpa using List.find?_some h⟩

theorem zombieChild_none {q : Table} {r : Nat} (h : zombieChild q r = none)
    {i : Nat} (hi : i < MAX) (hp : (q i).ppid = (q r).pid) :
    (q i).state ≠ .zombie := by
  unfold zombieChild at h
  have hnone := List.find?_eq_none.mp h i ((mem_slots i).mpr hi)
  simpa [hp] using hnone

/-- The test of `waitpid`: `pid` is a zombie child of the caller. -/
def isZombieChild (q : Table) (r pid : Nat) : Bool :=
  (q pid).ppid = (q r).pid ∧ (q pid).state = .zombie

theorem isZombieChild_iff {q : Table} {r pid : Nat} :
    isZombieChild q r pid ↔ (q pid).ppid = (q r).pid ∧ (q pid).state = .zombie := by
  simp [isZombieChild]

/-- The table part of `fork`. `newPID` returning `-1` makes `new` point at
`q[-1]`: everything but the caller's `child_count` is then written below the
table, which is outside the state modelled here. -/
def fork (q : Table) (r : Nat) : Table :=
  let q := match newPID q with
    | some pid => q.modify pid fun t =>
        { t with pid := pid, ppid := (q r).pid, state := .running }
    | none => q
  q.modify r fun t => { t with childCount := t.childCount + 1 }

@[simp] theorem fork_pid (q : Table) (r j : Nat) :
    (fork q r j).pid = if newPID q = some j then j else (q j).pid := by
  unfold fork Table.modify
  cases h : newPID q with
  | none => by_cases hr : j = r <;> simp [hr]
  | some pid => by_cases hr : j = r <;> by_cases hj : j = pid <;> grind

theorem fork_ppid (q : Table) (r j : Nat) :
    (fork q r j).ppid = if newPID q = some j then (q r).pid else (q j).ppid := by
  unfold fork Table.modify
  cases h : newPID q with
  | none => by_cases hr : j = r <;> simp [hr]
  | some pid => by_cases hr : j = r <;> by_cases hj : j = pid <;> grind

theorem fork_state (q : Table) (r j : Nat) :
    (fork q r j).state = if newPID q = some j then .running else (q j).state := by
  unfold fork Table.modify
  cases h : newPID q with
  | none => by_cases hr : j = r <;> simp [hr]
  | some pid => by_cases hr : j = r <;> by_cases hj : j = pid <;> grind

/-- One iteration of the sweep in `timer_handler`. -/
def sweepTask (t : Task) : Task :=
  let t := if t.state = .suspended ∧ 0 < t.time then { t with time := t.time - 1 } else t
  if t.time = 0 ∧ t.state = .suspended then { t with state := .running } else t

def sweep (q : Table) : Table := q.forEach sweepTask

theorem sweep_apply (q : Table) (j : Nat) :
    sweep q j = if j < MAX then sweepTask (q j) else q j := rfl

@[simp] theorem sweepTask_pid (t : Task) : (sweepTask t).pid = t.pid := by
  unfold sweepTask
  dsimp only
  split_ifs <;> rfl

@[simp] theorem sweepTask_ppid (t : Task) : (sweepTask t).ppid = t.ppid := by
  unfold sweepTask
  dsimp only
  split_ifs <;> rfl

theorem sweepTask_state (t : Task) :
    (sweepTask t).state = t.state ∨
      (t.state = .suspended ∧ (sweepTask t).state = .running) := by
  unfold sweepTask
  dsimp only
  split_ifs <;> simp_all

@[simp] theorem sweep_pid (q : Table) (j : Nat) : (sweep q j).pid = (q j).pid := by
  rw [sweep_apply]
  split_ifs <;> simp

@[simp] theorem sweep_ppid (q : Table) (j : Nat) : (sweep q j).ppid = (q j).ppid := by
  rw [sweep_apply]
  split_ifs <;> simp

theorem sweep_state (q : Table) (j : Nat) :
    (sweep q j).state = (q j).state ∨
      ((q j).state = .suspended ∧ (sweep q j).state = .running) := by
  rw [sweep_apply]
  split_ifs
  · exact sweepTask_state (q j)
  · exact Or.inl rfl

end X86Kernel.Proc
