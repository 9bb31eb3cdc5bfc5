import X86Kernel.Lib.Run
import X86Kernel.Proc.Terminal

/-!
The scheduler as a state machine: `yield` of `proc_man.c`, `timer_handler`,
the idle loop, init's endless `wait` and the system calls that touch the
process table. One CPU runs with interrupts off in the kernel, so everything
between two calls of `yield` is one step; where a suspended process continues
is recorded in `ctl`.
-/

namespace X86Kernel.Proc

open Lib

/-- What the CPU executes: user code of `r`, the idle loop around its `hlt`,
or the kernel code in which `yield` has just resumed `r`. -/
inductive Mode where
  | user
  | idle
  | kernel
  deriving DecidableEq, Repr

/-- Where a process that is not on the CPU continues when `yield` picks it. -/
inductive Ctl where
  /-- on its way back to user code, as a freshly forked child -/
  | user
  /-- after the `yield` in `timer_handler`, which interrupted `back` -/
  | timer (back : Mode)
  /-- at the first scan of `wait`, called by `in` -/
  | inLoop
  /-- after the `yield` in `wait` -/
  | wait
  /-- after the `yield` in `waitpid(pid)` -/
  | waitpid (pid : Nat)
  /-- after the `yield` in `read_input` -/
  | readInput
  /-- after the `yield` in `sleep` -/
  | sleep
  /-- after the `yield` in `exit` -/
  | exit
  /-- in the idle loop, about to halt -/
  | idle
  deriving DecidableEq, Repr

structure Sched where
  q : Table
  r : Nat
  ctl : Nat → Ctl
  mode : Mode
  count : Int
  sec : Int
  tty : Tty

/-- The `while` loop of `yield` with `n` iterations left, starting at `i`. -/
def scan (q : Table) (pid : Nat) : Nat → Nat → Option Nat
  | 0, _ => none
  | n + 1, i =>
      if i = pid then some i
      else if (q i).state = .running then some i
      else scan q pid n ((i + 1) % MAX)

/-- The slot `yield` switches to when the caller's pid is `pid`. -/
@[irreducible] def nextSlot (q : Table) (pid : Nat) : Option Nat :=
  scan q pid MAX ((pid + 1) % MAX)

def Sched.yield (s : Sched) (point : Ctl) : Option Sched :=
  (nextSlot s.q (s.q s.r).pid).map fun i =>
    { s with ctl := Function.update s.ctl s.r point, r := i, mode := .kernel }

def Sched.toUser (s : Sched) : Sched :=
  { s with mode := .user, ctl := Function.update s.ctl s.r .user }

/-- `removeProcess(i); q[i].state = READY;` as far as the table goes. -/
def Sched.reap (s : Sched) (i : Nat) : Sched :=
  { s with q := s.q.setState i .ready }

/-- One iteration of the `while` loop of `read_input`. -/
def Sched.readInput (s : Sched) : Option Sched :=
  if 0 < s.tty.noLines then
    let (tty, _, found) := readLine s.tty
    if found then some { s with tty := tty, q := s.q.setState s.r .running }.toUser
    else { s with tty := tty }.yield .readInput
  else { s with q := s.q.setState s.r .sleeping }.yield .readInput

/-- The body of the loop in `waitpid`: reap the child or yield again. -/
def Sched.pollChild (s : Sched) (pid : Nat) : Option Sched :=
  if isZombieChild s.q s.r pid then some (s.reap pid).toUser
  else s.yield (.waitpid pid)

def Sched.waitTop (s : Sched) : Option Sched :=
  match zombieChild s.q s.r with
  | some i => some { s.reap i with ctl := Function.update s.ctl s.r .inLoop }
  | none => { s with q := s.q.setState s.r .wait }.yield .wait

/-- `wait` after its `yield`: the second scan, then the loop again. -/
def Sched.waitAgain (s : Sched) : Sched :=
  let s' := match zombieChild s.q s.r with
    | some i => s.reap i
    | none => s
  { s' with ctl := Function.update s.ctl s.r .inLoop }

def Sched.timerTail (s : Sched) (back : Mode) : Sched :=
  { s with q := sweep s.q, sec := s.sec + 1, count := 0, mode := back }

/-- The kernel code a resumed process runs until it leaves the kernel or
yields again. -/
def Sched.resume (s : Sched) : Option Sched :=
  match s.ctl s.r with
  | .user | .sleep | .exit => some s.toUser
  | .timer back => some (s.timerTail back)
  | .inLoop => s.waitTop
  | .wait => some s.waitAgain
  | .waitpid pid => s.pollChild pid
  | .readInput => s.readInput
  | .idle => some { s with mode := .idle }

/-- `fork`: the child continues in `isr128`, on its way to user code. -/
def Sched.fork (s : Sched) : Sched :=
  { s with
    q := Proc.fork s.q s.r
    ctl := match newPID s.q with
      | some pid => Function.update s.ctl pid .user
      | none => s.ctl }

def Sched.exit (s : Sched) : Option Sched :=
  Sched.yield { s with q := Proc.exit s.q s.r } .exit

/-- `kill` returns to its caller, also when the caller is the victim. -/
def Sched.kill (s : Sched) (pid : Nat) : Sched :=
  { s with q := Proc.kill s.q pid }

/-- `sleep`; the argument is `unsigned`, the field `time` is an `int`. -/
def Sched.sleep (s : Sched) (seconds : BitVec 32) : Option Sched :=
  if seconds = 0 then some s
  else Sched.yield { s with q := s.q.modify s.r fun t =>
    { t with time := seconds.toInt, state := .suspended } } .sleep

def Sched.waitpid (s : Sched) (pid : Nat) : Option Sched :=
  if isZombieChild s.q s.r pid then some (s.reap pid).toUser
  else Sched.yield { s with q := s.q.setState s.r .wait } (.waitpid pid)

/-- `timer_handler`, entered from user code or from the idle loop. -/
def Sched.timerHandler (s : Sched) : Option Sched :=
  if s.count + 1 = 18 then
    Sched.yield { s with count := s.count + 1 } (.timer s.mode)
  else some { s with count := s.count + 1 }

def Sched.keyPressed (s : Sched) (code : Nat) (x : UInt8) : Sched :=
  let (tty, enter) := writeTerminal s.tty code x
  { s with tty := tty, q := if enter then wakeProcess s.q else s.q }

inductive Syscall where
  | fork
  | exit
  | kill (pid : Nat)
  | sleep (seconds : BitVec 32)
  | readInput
  | waitpid (pid : Nat)
  deriving DecidableEq, Repr

/-- What can happen next: a system call of the current process, an interrupt,
the `yield` of the idle loop, or the next piece of a resumed process. A key comes
with the byte behind `code_map`. The idle loop may yield at any time; the `hlt`
before it is not modelled. -/
inductive Event where
  | sys (call : Syscall)
  | tick
  | key (code : Nat) (x : UInt8)
  | idleYield
  | resume
  deriving DecidableEq, Repr

def Sched.syscall (s : Sched) : Syscall → Option Sched
  | .fork => some s.fork
  | .exit => s.exit
  | .kill pid => some (s.kill pid)
  | .sleep seconds => s.sleep seconds
  | .readInput => s.readInput
  | .waitpid pid => s.waitpid pid

/-- A step. User code is entered with interrupts off, so that on the machine they
come in the idle loop only; here they may come in user code as well, and what holds
of all runs holds of those of the machine. -/
def Sched.step (s : Sched) (e : Event) : Option Sched :=
  match e with
  | .resume => if s.mode = .kernel then s.resume else none
  | .sys call => if s.mode = .user then s.syscall call else none
  | .idleYield => if s.mode = .idle then s.yield .idle else none
  | .tick => if s.mode = .kernel then none else s.timerHandler
  | .key code x => if s.mode = .kernel then none else some (s.keyPressed code x)

/-- The table `init_proc`, `init_p` and `create_process` leave: init in slot
0, idle in slot 1, the shell in slot 2, every other slot `READY`. -/
def bootTable : Table := fun i =>
  { state := if i ≤ 2 then .running else .ready
    time := 0
    pid := if i ≤ 2 then i else 0
    ppid := 0
    childCount := 0 }

def boot : Sched :=
  { q := bootTable
    r := 2
    ctl := fun i => if i = 0 then .inLoop else if i = 1 then .idle else .user
    mode := .user
    count := 0
    sec := 0
    tty := { buf := fun _ => 0, i := 0, offset := 0, caps := false, ctrl := false, noLines := 0 } }

/-- The states of a process that has not died: what `ps` lists. -/
def PState.live : PState → Prop
  | .running | .sleeping | .wait | .suspended => True
  | .zombie | .idle | .ready => False

instance (st : PState) : Decidable st.live := by
  cases st <;> unfold PState.live <;> infer_instance

/-- How many slots a scan that starts behind `r` passes before it is at `i`; it
is at `r` itself last. -/
def behind (r i : Nat) : Nat := (i + MAX - r - 1) % MAX

/-- `i` is the first running slot behind `r` in circular order, or `r` itself
when there is no other. -/
structure FirstRunning (q : Table) (r i : Nat) : Prop where
  lt : i < MAX
  running : (q i).state = .running ∨ i = r
  first : ∀ j < MAX, behind r j < behind r i → (q j).state ≠ .running

/-- A slot that comes before the one a scan has come to is one it has passed. -/
theorem not_running_of_passed {q : Table} {pid k j : Nat} (hpid : pid < MAX) (hk : k < MAX)
    (hpast : ∀ m < k, (q ((pid + 1 + m) % MAX)).state ≠ .running) (hj : j < MAX)
    (hlt : behind pid j < behind pid ((pid + 1 + k) % MAX)) : (q j).state ≠ .running := by
  simp only [behind, MAX] at *
  have hseen := hpast ((j + 1100 - pid - 1) % 1100) (by omega)
  have hidx : (pid + 1 + (j + 1100 - pid - 1) % 1100) % 1100 = j := by omega
  rwa [hidx] at hseen

theorem scan_spec (q : Table) (pid : Nat) (hpid : pid < MAX) (n k : Nat)
    (hn : k + n = MAX) (hpos : 0 < n)
    (hpast : ∀ m < k, (q ((pid + 1 + m) % MAX)).state ≠ .running) :
    ∃ i, scan q pid n ((pid + 1 + k) % MAX) = some i ∧ FirstRunning q pid i := by
  induction n generalizing k with
  | zero => omega
  | succ n ih =>
      have hlt : (pid + 1 + k) % MAX < MAX := Nat.mod_lt _ (by simp [MAX])
      have hseen := fun j hj => not_running_of_passed (j := j) hpid (by omega) hpast hj
      unfold scan
      split_ifs with hi hrun
      · exact ⟨_, rfl, hlt, .inr hi, hseen⟩
      · exact ⟨_, rfl, hlt, .inl hrun, hseen⟩
      · have hmore : 0 < n := by
          -- the scan is over when it is back at `pid`
          by_contra hn0
          refine hi ?_
          simp only [MAX] at *
          omega
        have hidx : ((pid + 1 + k) % MAX + 1) % MAX = (pid + 1 + (k + 1)) % MAX := by
          simp only [MAX]
          omega
        rw [hidx]
        refine ih (k + 1) (by omega) hmore ?_
        intro m hm
        by_cases hmk : m = k
        · rwa [hmk]
        · exact hpast m (by omega)

theorem nextSlot_first (q : Table) (pid : Nat) (hpid : pid < MAX) :
    ∃ i, nextSlot q pid = some i ∧ FirstRunning q pid i := by
  have h := scan_spec q pid hpid MAX 0 (by omega) (by simp [MAX]) (by omega)
  simpa [nextSlot] using h

/-- The choice of `yield`: another running slot, or the caller itself when no
other slot is running, whatever the caller's own state. -/
theorem nextSlot_spec (q : Table) (pid : Nat) (hpid : pid < MAX) :
    ∃ i, nextSlot q pid = some i ∧ i < MAX ∧
      ((i ≠ pid ∧ (q i).state = .running) ∨
        (i = pid ∧ ∀ j < MAX, j ≠ pid → (q j).state ≠ .running)) := by
  obtain ⟨i, hi, hfirst⟩ := nextSlot_first q pid hpid
  refine ⟨i, hi, hfirst.lt, ?_⟩
  by_cases heq : i = pid
  · subst heq
    refine .inr ⟨rfl, fun j hj hne => hfirst.first j hj ?_⟩
    simp only [behind, MAX] at *
    omega
  · exact .inl ⟨heq, hfirst.running.resolve_right heq⟩

end X86Kernel.Proc
