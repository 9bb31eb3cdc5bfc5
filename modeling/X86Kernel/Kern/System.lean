import X86Kernel.Kern.Exec
import X86Kernel.Kern.Remove
import X86Kernel.Proc.Slots

/-!
The kernel as a whole: the scheduler of `Proc`, the memory of every slot, and
the faults of user code. A step of the scheduler that forks also copies an
address space, and one that reaps also destroys one.
-/

namespace X86Kernel.Kern

open Lib Paging Proc

/-- The machine. `space` holds `pml4e` and `vm` of every slot, which stay behind
when a process is reaped; `hung` marks the processes that are in one of the
endless loops of `isr14`. -/
structure System where
  sched : Sched
  space : Nat → Space
  mem : Mem
  hung : Nat → Bool

def System.cur (k : System) : Space := k.space k.sched.r

def System.inUser (k : System) : Bool := k.sched.mode = .user ∧ k.hung k.sched.r = false

inductive Action where
  | sched (e : Proc.Event)
  | exec (img : Image) (args : List (List Byte))
  | malloc (bytes : Int)
  | write (a : Nat) (b : Byte)
  | read (a : Nat)

/-- The memory that `fork` has made goes to the slot `newPID` returns. Without a
free slot it is lost: `pml4e` and `vm` are written below the table. -/
def System.forked (k : System) (s : Sched) (c : Space) (m : Mem) : System :=
  match newPID k.sched.q with
  | some pid => { sched := s, space := Function.update k.space pid c, mem := m,
                  hung := Function.update k.hung pid false }
  | none => { k with sched := s, mem := m }

def System.schedStep (k : System) (e : Proc.Event) : Option System := do
  let s ← k.sched.step e
  if e = .sys .fork then
    let (c, m) ← copytask k.mem k.cur
    some (k.forked s c m)
  else
    match reaps k.sched e with
    | some i => (removeProcess k.mem (k.space i)).map fun m => { k with sched := s, mem := m }
    | none => some { k with sched := s }

/-- The end of an access to memory. A process that faults for good exits and
never comes back from the loop behind `exit`. -/
def System.access (k : System) : Fault → Option System
  | .resume m => some { k with mem := m }
  | .segv => do
      let s ← k.sched.step (.sys .exit)
      some { k with sched := s, hung := Function.update k.hung k.sched.r true }
  | .stuck => some { k with hung := Function.update k.hung k.sched.r true }

/-- System calls need a process that executes; interrupts do not. -/
def System.step (k : System) : Action → Option System
  | .sched (.sys call) => if k.inUser then k.schedStep (.sys call) else none
  | .sched e => k.schedStep e
  | .exec img args =>
      if k.inUser then
        (execvpe k.mem k.cur img args).map fun r =>
          { k with space := Function.update k.space k.sched.r r.1, mem := r.2 }
      else none
  | .malloc bytes =>
      if k.inUser then (Kern.malloc k.mem k.cur bytes).map fun m => { k with mem := m } else none
  | .write a b =>
      if k.inUser then
        (Kern.write k.mem k.cur a fun w => setByte w (a % 8) b).bind k.access
      else none
  | .read a => if k.inUser then (Kern.read k.mem k.cur a).bind k.access else none

inductive Moves (k : System) : Action → System → Prop
  | fork {s : Sched} {c : Space} {m : Mem} : k.inUser → k.sched.step (.sys .fork) = some s →
      copytask k.mem k.cur = some (c, m) → Moves k (.sched (.sys .fork)) (k.forked s c m)
  | reap {e : Proc.Event} {s : Sched} {i : Nat} {m : Mem} : e ≠ .sys .fork →
      k.sched.step e = some s → reaps k.sched e = some i →
      removeProcess k.mem (k.space i) = some m → Moves k (.sched e) { k with sched := s, mem := m }
  | quiet {e : Proc.Event} {s : Sched} : e ≠ .sys .fork → k.sched.step e = some s →
      reaps k.sched e = none → Moves k (.sched e) { k with sched := s }
  | exec {img : Image} {args : List (List Byte)} {sp : Space} {m : Mem} : k.inUser →
      execvpe k.mem k.cur img args = some (sp, m) → Moves k (.exec img args)
        { k with space := Function.update k.space k.sched.r sp, mem := m }
  | malloc {bytes : Int} {m : Mem} : k.inUser → Kern.malloc k.mem k.cur bytes = some m →
      Moves k (.malloc bytes) { k with mem := m }
  | write {a : Nat} {b : Byte} {m : Mem} : k.inUser →
      Kern.write k.mem k.cur a (fun w => setByte w (a % 8) b) = some (.resume m) →
      Moves k (.write a b) { k with mem := m }
  | read {a : Nat} {m : Mem} : k.inUser → Kern.read k.mem k.cur a = some (.resume m) →
      Moves k (.read a) { k with mem := m }
  | segv {act : Action} {s : Sched} : k.inUser → (∃ a b, act = .write a b) ∨ (∃ a, act = .read a) →
      k.sched.step (.sys .exit) = some s → Moves k act
        { k with sched := s, hung := Function.update k.hung k.sched.r true }
  | stuck {act : Action} : k.inUser → (∃ a b, act = .write a b) ∨ (∃ a, act = .read a) →
      Moves k act { k with hung := Function.update k.hung k.sched.r true }

theorem schedStep_moves {k k' : System} {e : Proc.Event} (huser : e = .sys .fork → k.inUser)
    (h : k.schedStep e = some k') : Moves k (.sched e) k' := by
  obtain ⟨s, hs, hrest⟩ := Option.bind_eq_some_iff.mp h
  split_ifs at hrest with hfork
  · obtain ⟨⟨c, m⟩, hcopy, hdone⟩ := Option.bind_eq_some_iff.mp hrest
    obtain rfl := Option.some.inj hdone
    subst hfork
    exact .fork (huser rfl) hs hcopy
  · cases hr : reaps k.sched e with
    | some i =>
        rw [hr] at hrest
        obtain ⟨m, hm, rfl⟩ := Option.map_eq_some_iff.mp hrest
        exact .reap hfork hs hr hm
    | none =>
        rw [hr] at hrest
        obtain rfl := Option.some.inj hrest
        exact .quiet hfork hs hr

theorem step_moves {k k' : System} {act : Action} (h : k.step act = some k') :
    Moves k act k' := by
  unfold System.step at h
  split at h
  · split_ifs at h with huser
    exact schedStep_moves (fun _ => huser) h
  · rename_i e hsys
    exact schedStep_moves (fun he => absurd he (hsys _)) h
  · split_ifs at h with huser
    obtain ⟨⟨sp, m⟩, hrun, rfl⟩ := Option.map_eq_some_iff.mp h
    exact .exec huser hrun
  · split_ifs at h with huser
    obtain ⟨m, hrun, rfl⟩ := Option.map_eq_some_iff.mp h
    exact .malloc huser hrun
  · rename_i a b
    split_ifs at h with huser
    obtain ⟨r, hrun, h⟩ := Option.bind_eq_some_iff.mp h
    cases r with
    | resume m =>
        obtain rfl := Option.some.inj h
        exact .write huser hrun
    | segv =>
        obtain ⟨s, hs, h⟩ := Option.bind_eq_some_iff.mp h
        obtain rfl := Option.some.inj h
        exact .segv huser (Or.inl ⟨a, b, rfl⟩) hs
    | stuck =>
        obtain rfl := Option.some.inj h
        exact .stuck huser (Or.inl ⟨a, b, rfl⟩)
  · rename_i a
    split_ifs at h with huser
    obtain ⟨r, hrun, h⟩ := Option.bind_eq_some_iff.mp h
    cases r with
    | resume m =>
        obtain rfl := Option.some.inj h
        exact .read huser hrun
    | segv =>
        obtain ⟨s, hs, h⟩ := Option.bind_eq_some_iff.mp h
        obtain rfl := Option.some.inj h
        exact .segv huser (Or.inr ⟨a, rfl⟩) hs
    | stuck =>
        obtain rfl := Option.some.inj h
        exact .stuck huser (Or.inr ⟨a, rfl⟩)

/-- A scheduler step that neither forks nor reaps leaves memory alone. -/
theorem sched_quiet {k k' : System} {e : Proc.Event} (hfork : e ≠ .sys .fork)
    (hreap : reaps k.sched e = none) (hstep : k.step (.sched e) = some k') :
    k'.mem = k.mem ∧ k'.space = k.space := by
  cases step_moves hstep with
  | fork => exact absurd rfl hfork
  | reap _ _ hi _ => simp [hreap] at hi
  | quiet => exact ⟨rfl, rfl⟩
  | segv _ hact _ => simp at hact
  | stuck _ hact => simp at hact

end X86Kernel.Kern
