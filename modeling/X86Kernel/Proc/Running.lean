import X86Kernel.Proc.Invariant

/-!
Who executes, and who is whose parent. As long as nobody kills itself or the
idle process, idle is always there for `yield` to fall back on, so only
running processes execute; and then every parent link, also of free slots,
points at a live process.
-/

namespace X86Kernel.Proc

open Lib

def SparesCallerAndIdle (s : Sched) : Event → Prop
  | .sys (.kill pid) => 1 ≤ pid ∧ pid < MAX ∧ pid ≠ (s.q s.r).pid ∧ pid ≠ 1
  | _ => True

def SparesIdle : Event → Prop
  | .sys (.kill pid) => pid ≠ 1
  | _ => True

theorem SparesCallerAndIdle.sparesIdle {s : Sched} {e : Event} (h : SparesCallerAndIdle s e) :
    SparesIdle e := by
  unfold SparesCallerAndIdle at h
  unfold SparesIdle
  split at h
  · exact h.2.2.2
  · trivial

/-- Slot 1 holds the idle loop and nothing else, and idle always runs. -/
structure Awake (s : Sched) : Prop extends Base s where
  idle_running : (s.q 1).state = .running
  idle_ctl : s.ctl 1 = .idle ∨ s.ctl 1 = .timer .idle
  idle_mode : s.r = 1 → s.mode ≠ .user

/-- With idle running, `yield` ends in a running process whatever the state of
its caller. -/
theorem yield_running {s t : Sched} {point : Ctl} (h : Base s)
    (hidle : (s.q 1).state = .running) (hy : s.yield point = some t) :
    (t.q t.r).state = .running := by
  obtain ⟨htq, -, -, -, -, -, -, hcase⟩ := yield_spec h.cur_lt h.cur_pid hy
  rw [htq]
  rcases hcase with ⟨-, hrun⟩ | ⟨heq, hnone⟩
  · exact hrun
  · by_cases h1 : s.r = 1
    · rw [heq, h1, hidle]
    · exact absurd hidle (hnone 1 (by decide) (Ne.symm h1))

/-- A point set for another slot leaves idle's alone. -/
theorem idle_ctl_update {ctl : Nat → Ctl} {i : Nat} (point : Ctl) (hi : i ≠ 1)
    (h : ctl 1 = .idle ∨ ctl 1 = .timer .idle) :
    Function.update ctl i point 1 = .idle ∨ Function.update ctl i point 1 = .timer .idle := by
  rwa [Function.update_of_ne (Ne.symm hi)]

theorem Awake.of_yield {s t : Sched} {point : Ctl} (h : Base s)
    (hidle : (s.q 1).state = .running)
    (hctl : s.ctl 1 = .idle ∨ s.ctl 1 = .timer .idle)
    (hinit : s.r = 0 → point = .wait)
    (hpoint : s.r = 1 → point = .idle ∨ point = .timer .idle)
    (hy : s.yield point = some t) : Awake t := by
  obtain ⟨htq, htctl, htmode, -⟩ := yield_spec h.cur_lt h.cur_pid hy
  refine ⟨h.yield hinit hy, htq ▸ hidle, ?_, fun _ => by simp [htmode]⟩
  rw [htctl]
  by_cases h1 : s.r = 1
  · simpa [h1] using hpoint h1
  · exact idle_ctl_update point h1 hctl

/-- A process other than init and idle yields. -/
theorem Awake.of_yield_other {s t : Sched} {point : Ctl} (h : Base s)
    (hidle : (s.q 1).state = .running)
    (hctl : s.ctl 1 = .idle ∨ s.ctl 1 = .timer .idle) (hr : s.r ≠ 0 ∧ s.r ≠ 1)
    (hy : s.yield point = some t) : Awake t :=
  Awake.of_yield h hidle hctl (fun h0 => absurd h0 hr.1) (fun h1 => absurd h1 hr.2) hy

theorem Awake.ne_one_of_user {s : Sched} (h : Awake s) (hm : s.mode = .user) : s.r ≠ 1 :=
  fun h1 => h.idle_mode h1 hm

theorem Awake.ne_one_of_ctl {s : Sched} (h : Awake s)
    (h1 : s.ctl s.r ≠ .idle) (h2 : s.ctl s.r ≠ .timer .idle) : s.r ≠ 1 := by
  intro hr
  rw [hr] at h1 h2
  rcases h.idle_ctl with hc | hc
  · exact h1 hc
  · exact h2 hc

theorem Awake.other_of_user {s : Sched} (h : Awake s) (hm : s.mode = .user) :
    s.r ≠ 0 ∧ s.r ≠ 1 :=
  ⟨h.ne_zero_of_mode (by simp [hm]), h.ne_one_of_user hm⟩

/-- Whoever comes from user code, or is resumed in the middle of a system call of
its own, is neither init nor idle. -/
theorem Awake.other_of_call {s : Sched} {point : Ctl} {sys : Event} {e : Event} (h : Awake s)
    (hpoint : point = .readInput ∨ ∃ c, point = .waitpid c)
    (hat : s.mode = .user ∧ e = sys ∨ s.mode = .kernel ∧ e = .resume ∧ s.ctl s.r = point) :
    s.r ≠ 0 ∧ s.r ≠ 1 := by
  rcases hat with ⟨hm, -⟩ | ⟨-, -, hc⟩
  · exact h.other_of_user hm
  · rcases hpoint with rfl | ⟨c, rfl⟩ <;>
      exact ⟨h.ne_zero_of_ctl (by simp [hc]) (by simp [hc]),
        h.ne_one_of_ctl (by simp [hc]) (by simp [hc])⟩

/-- A return to user code of a process other than idle. -/
theorem Awake.toUser {s : Sched} (h : Base s) (hidle : (s.q 1).state = .running)
    (hctl : s.ctl 1 = .idle ∨ s.ctl 1 = .timer .idle) (hr : s.r ≠ 0 ∧ s.r ≠ 1) :
    Awake s.toUser := by
  refine ⟨h.toUser hr.1, hidle, ?_, fun h1 => absurd h1 hr.2⟩
  exact idle_ctl_update _ hr.2 hctl

theorem die_running {q : Table} {i pid j : Nat} (hj : j ≠ i)
    (h : (q j).state = .running) : (die q i pid j).state = .running := by
  rw [die_state]
  simp [hj, h]

theorem setState_running {q : Table} {i j : Nat} {st : PState} (hj : j ≠ i)
    (h : (q j).state = .running) : (q.setState i st j).state = .running := by
  simp [Table.setState_state, hj, h]

theorem wake_running {q : Table} {i : Nat} (enter : Bool) (h : (q i).state = .running) :
    ((if enter then wakeProcess q else q) i).state = .running := by
  split_ifs
  · rcases wakeProcess_state q i with heq | ⟨-, hr⟩
    · rw [heq, h]
    · exact hr
  · exact h

theorem sweep_running {q : Table} {i : Nat} (h : (q i).state = .running) :
    (sweep q i).state = .running := by
  rcases sweep_state q i with heq | ⟨-, hr⟩
  · rw [heq, h]
  · exact hr

/-- A running slot is not reaped. -/
theorem reap_running {q : Table} {i j : Nat} (hst : (q i).state = .zombie)
    (h : (q j).state = .running) : (q.setState i .ready j).state = .running := by
  refine setState_running ?_ h
  rintro rfl
  simp [h] at hst

/-- The child of `fork` takes a free slot, never idle's. -/
theorem Awake.fork {s : Sched} (h : Awake s) (hm : s.mode = .user) (hb : Base s.fork) :
    Awake s.fork := by
  have hnew : newPID s.q ≠ some 1 := fun hn => by
    have hfree := (newPID_some hn).2
    simp [h.idle_running] at hfree
  refine ⟨hb, ?_, ?_, fun hr => absurd hr (h.ne_one_of_user hm)⟩
  · simp [Sched.fork, fork_state, hnew, h.idle_running]
  · simp only [Sched.fork]
    cases hn : newPID s.q with
    | none => exact h.idle_ctl
    | some pid =>
        refine idle_ctl_update _ ?_ h.idle_ctl
        rintro rfl
        exact hnew hn

/-- The tail of the timer interrupt never returns idle to user code. -/
theorem Awake.timerTail {s : Sched} {back : Mode} (h : Awake s) (hc : s.ctl s.r = .timer back)
    (hb : Base (s.timerTail back)) : Awake (s.timerTail back) := by
  refine ⟨hb, sweep_running h.idle_running, h.idle_ctl, ?_⟩
  intro (hr : s.r = 1)
  rw [hr] at hc
  rcases h.idle_ctl with hi | hi
  · simp [hi] at hc
  · obtain rfl : Mode.idle = back := by simpa [hi] using hc
    simp [Sched.timerTail]

/-- Idle stays what it is as long as it is not killed. -/
theorem Awake.step {s t : Sched} {e : Event} (h : Awake s) (hok : SparesIdle e)
    (hstep : s.step e = some t) : Awake t := by
  have hb : Base t := h.toBase.step hstep
  cases step_trans hstep with
  | fork hm => exact h.fork hm hb
  | exit hm hy =>
      have hr := h.other_of_user hm
      exact Awake.of_yield_other (h.die s.r _ hr.1)
        (die_running (Ne.symm hr.2) h.idle_running) h.idle_ctl hr hy
  | kill pid hm =>
      have hne : 1 ≠ pid := Ne.symm hok
      exact ⟨hb, die_running hne h.idle_running, h.idle_ctl, h.idle_mode⟩
  | noSleep hm => exact h
  | sleep seconds hm hy =>
      have hr := h.other_of_user hm
      refine Awake.of_yield_other (h.setCur s.tty (fun t =>
        { t with time := seconds.toInt, state := .suspended }) (fun _ => ⟨rfl, rfl, trivial⟩))
        ?_ h.idle_ctl hr hy
      simpa [Table.modify_ne _ _ (Ne.symm hr.2)] using h.idle_running
  | readDone e tty hat =>
      have hr := h.other_of_call (Or.inl rfl) hat
      exact Awake.toUser (h.setState tty .running trivial)
        (setState_running (Ne.symm hr.2) h.idle_running) h.idle_ctl hr
  | readRetry e tty hat hy =>
      have ht : Base { s with tty := tty } := h.congr rfl rfl rfl rfl
      exact Awake.of_yield_other ht h.idle_running h.idle_ctl
        (h.other_of_call (Or.inl rfl) hat) hy
  | readSleep e hat hy =>
      have hr := h.other_of_call (Or.inl rfl) hat
      exact Awake.of_yield_other (h.setState s.tty .sleeping trivial)
        (setState_running (Ne.symm hr.2) h.idle_running) h.idle_ctl hr hy
  | reapChild e pid hat hp hst =>
      exact Awake.toUser (h.reap (h.child_ne hp hst)) (reap_running hst h.idle_running)
        h.idle_ctl (h.other_of_call (Or.inr ⟨pid, rfl⟩) hat)
  | waitChild pid hm _ hy =>
      have hr := h.other_of_user hm
      exact Awake.of_yield_other (h.setState s.tty .wait trivial)
        (setState_running (Ne.symm hr.2) h.idle_running) h.idle_ctl hr hy
  | poll pid hm hc _ hy =>
      exact Awake.of_yield_other h.toBase h.idle_running h.idle_ctl
        ⟨h.ne_zero_of_ctl (by simp [hc]) (by simp [hc]),
          h.ne_one_of_ctl (by simp [hc]) (by simp [hc])⟩ hy
  | tick hm _ => exact ⟨hb, h.idle_running, h.idle_ctl, h.idle_mode⟩
  | preempt hm _ hy =>
      have ht : Base { s with count := s.count + 1 } := h.congr rfl rfl rfl rfl
      refine Awake.of_yield ht h.idle_running h.idle_ctl
        (fun hr => absurd hr (h.ne_zero_of_mode hm)) ?_ hy
      intro hr
      cases hmode : s.mode with
      | user => exact absurd hmode (h.idle_mode hr)
      | idle => exact Or.inr rfl
      | kernel => exact absurd hmode hm
  | key code x tty enter hm =>
      exact ⟨hb, wake_running enter h.idle_running, h.idle_ctl, h.idle_mode⟩
  | idleYield hm hy =>
      exact Awake.of_yield h.toBase h.idle_running h.idle_ctl
        (fun hr => absurd hr (h.ne_zero_of_mode (by simp [hm]))) (fun _ => Or.inl rfl) hy
  | back hm hc =>
      have hr : s.r ≠ 0 ∧ s.r ≠ 1 := by
        rcases hc with hc | hc | hc <;>
          exact ⟨h.ne_zero_of_ctl (by simp [hc]) (by simp [hc]),
            h.ne_one_of_ctl (by simp [hc]) (by simp [hc])⟩
      exact Awake.toUser h.toBase h.idle_running h.idle_ctl hr
  | timerTail back hm hc => exact h.timerTail hc hb
  | initReap i hm hc _ hp hst =>
      have h1 := h.ne_one_of_ctl (by rcases hc with hc | hc <;> simp [hc])
        (by rcases hc with hc | hc <;> simp [hc])
      exact ⟨hb, reap_running hst h.idle_running, idle_ctl_update _ h1 h.idle_ctl, h.idle_mode⟩
  | initBlock hm hc _ hy =>
      have h1 := h.ne_one_of_ctl (by simp [hc]) (by simp [hc])
      exact Awake.of_yield (h.setState s.tty .wait trivial)
        (setState_running (Ne.symm h1) h.idle_running) h.idle_ctl
        (fun _ => rfl) (fun hr => absurd hr h1) hy
  | initLoop hm hc =>
      have h1 := h.ne_one_of_ctl (by simp [hc]) (by simp [hc])
      exact ⟨hb, h.idle_running, idle_ctl_update _ h1 h.idle_ctl, h.idle_mode⟩
  | idle hm hc => exact ⟨hb, h.idle_running, h.idle_ctl, fun _ => by simp⟩

structure OnlyRunning (s : Sched) : Prop extends Awake s where
  cur_running : (s.q s.r).state = .running

theorem OnlyRunning.step {s t : Sched} {e : Event} (h : OnlyRunning s)
    (hok : SparesCallerAndIdle s e) (hstep : s.step e = some t) : OnlyRunning t := by
  refine ⟨h.toAwake.step hok.sparesIdle hstep, ?_⟩
  have hnotIdle : s.mode = .user → s.r ≠ 1 := h.ne_one_of_user
  cases step_trans hstep with
  | fork hm =>
      simp only [Sched.fork, fork_state]
      split_ifs
      · rfl
      · exact h.cur_running
  | exit hm hy =>
      exact yield_running (h.die s.r _ (h.ne_zero_of_mode (by simp [hm])))
        (die_running (Ne.symm (hnotIdle hm)) h.idle_running) hy
  | kill pid hm =>
      obtain ⟨-, -, hcaller, -⟩ := hok
      rw [h.cur_pid] at hcaller
      exact die_running (Ne.symm hcaller) h.cur_running
  | noSleep hm => exact h.cur_running
  | sleep seconds hm hy =>
      refine yield_running (h.setCur s.tty (fun t =>
        { t with time := seconds.toInt, state := .suspended }) (fun _ => ⟨rfl, rfl, trivial⟩))
        ?_ hy
      simpa [Table.modify_ne _ _ (Ne.symm (hnotIdle hm))] using h.idle_running
  | readDone e tty hat => simp [Sched.toUser, Table.setState_state]
  | readRetry e tty hat hy =>
      have ht : Base { s with tty := tty } := h.congr rfl rfl rfl rfl
      exact yield_running ht h.idle_running hy
  | readSleep e hat hy =>
      exact yield_running (h.setState s.tty .sleeping trivial)
        (setState_running (Ne.symm (h.other_of_call (Or.inl rfl) hat).2) h.idle_running) hy
  | reapChild e pid hat hp hst => exact reap_running hst h.cur_running
  | waitChild pid hm _ hy =>
      exact yield_running (h.setState s.tty .wait trivial)
        (setState_running (Ne.symm (hnotIdle hm)) h.idle_running) hy
  | poll pid hm hc _ hy => exact yield_running h.toBase h.idle_running hy
  | tick hm _ => exact h.cur_running
  | preempt hm _ hy =>
      have ht : Base { s with count := s.count + 1 } := h.congr rfl rfl rfl rfl
      exact yield_running ht h.idle_running hy
  | key code x tty enter hm => exact wake_running enter h.cur_running
  | idleYield hm hy => exact yield_running h.toBase h.idle_running hy
  | back hm hc => exact h.cur_running
  | timerTail back hm hc => exact sweep_running h.cur_running
  | initReap i hm hc _ hp hst => exact reap_running hst h.cur_running
  | initBlock hm hc _ hy =>
      have h1 := h.ne_one_of_ctl (by simp [hc]) (by simp [hc])
      exact yield_running (h.setState s.tty .wait trivial)
        (setState_running (Ne.symm h1) h.idle_running) hy
  | initLoop hm hc => exact h.cur_running
  | idle hm hc => exact h.cur_running

theorem Awake.boot : Awake boot where
  toBase := Base.boot
  idle_running := by simp [Proc.boot, bootTable]
  idle_ctl := by simp [Proc.boot]
  idle_mode := by simp [Proc.boot]

theorem OnlyRunning.boot : OnlyRunning boot where
  toAwake := Awake.boot
  cur_running := by simp [Proc.boot, bootTable]

/-- In every run whose kills spare their caller and the idle process, the
process on the CPU is running, in user code and wherever `yield` resumes it. -/
theorem only_running_processes_execute (s : Sched)
    (h : Reachable Sched.step SparesCallerAndIdle (· = boot) s) :
    (s.q s.r).state = .running := by
  refine (h.invariant (P := OnlyRunning) ?_ ?_).cur_running
  · rintro s rfl
    exact OnlyRunning.boot
  · intro a e b ha hok hstep
    exact ha.step hok hstep

/-- The shell forks, kills its child and goes to sleep; init is resumed. -/
theorem only_running_processes_execute_init :
    ∃ s, Reachable Sched.step SparesCallerAndIdle (· = boot) s ∧ s.r = 0 ∧
      (s.q s.r).state = .running := by
  have hstart : Reachable Sched.step SparesCallerAndIdle (· = boot) boot := .start rfl
  have hfork : Reachable Sched.step SparesCallerAndIdle (· = boot) boot.fork :=
    hstart.next (e := .sys .fork) trivial rfl
  have hkill : Reachable Sched.step SparesCallerAndIdle (· = boot) (boot.fork.kill 3) :=
    hfork.next (e := .sys (.kill 3)) (by simp [SparesCallerAndIdle, MAX]; decide +kernel) rfl
  obtain ⟨s, hs, hr⟩ : ∃ s, Sched.step (boot.fork.kill 3) (.sys (.sleep 1)) = some s ∧
      s.r = 0 := by
    have hrun : (Sched.step (boot.fork.kill 3) (.sys (.sleep 1))).any (fun s => s.r = 0) := by
      decide +kernel
    obtain ⟨s, hs, hr⟩ := (Option.any_eq_true _ _).mp hrun
    exact ⟨s, hs, by simpa using hr⟩
  have hok : SparesCallerAndIdle (boot.fork.kill 3) (.sys (.sleep 1)) := trivial
  have hreach := hkill.next hok hs
  exact ⟨s, hreach, hr, only_running_processes_execute s hreach⟩

/-- The shell kills itself and is back in user code as a zombie. -/
theorem killed_caller_keeps_executing :
    ¬ ∀ s, Reachable Sched.step (fun _ e => ∀ pid, e = .sys (.kill pid) → 1 ≤ pid ∧ pid < MAX)
      (· = boot) s → s.mode = .user → (s.q s.r).state = .running := by
  intro hclaim
  have hkill : Reachable Sched.step
      (fun _ e => ∀ pid, e = .sys (.kill pid) → 1 ≤ pid ∧ pid < MAX) (· = boot) (boot.kill 2) := by
    have hstart : Reachable Sched.step
        (fun _ e => ∀ pid, e = .sys (.kill pid) → 1 ≤ pid ∧ pid < MAX) (· = boot) boot :=
      .start rfl
    refine hstart.next (e := .sys (.kill 2)) ?_ rfl
    rintro pid ⟨⟩
    simp [MAX]
  have hst := hclaim _ hkill rfl
  revert hst
  decide +kernel

/-- The kills and forks of the parent-link property: `kill` is aimed at a slot
from 2 on that is not its caller, `fork` finds a free slot. -/
def KillsOthers (s : Sched) : Event → Prop
  | .sys (.kill pid) => 2 ≤ pid ∧ pid < MAX ∧ pid ≠ (s.q s.r).pid
  | .sys .fork => newPID s.q ≠ none
  | _ => True

theorem KillsOthers.spares {s : Sched} {e : Event} (h : KillsOthers s e) :
    SparesCallerAndIdle s e := by
  unfold KillsOthers at h
  unfold SparesCallerAndIdle
  split at h <;> first
    | trivial
    | exact ⟨by omega, h.2.1, h.2.2, by omega⟩
    | (split <;> simp_all)

structure Linked (s : Sched) : Prop where
  init_live : (s.q 0).state.live
  parent : ∀ i < MAX, (s.q i).ppid < MAX ∧ (s.q (s.q i).ppid).state.live

/-- A step that changes no link and kills nobody. -/
theorem Linked.mono {s t : Sched} (h : Linked s)
    (hlive : ∀ j, (s.q j).state.live → (t.q j).state.live)
    (hppid : ∀ j, (t.q j).ppid = (s.q j).ppid) : Linked t := by
  refine ⟨hlive 0 h.init_live, ?_⟩
  intro i hi
  rw [hppid]
  exact ⟨(h.parent i hi).1, hlive _ (h.parent i hi).2⟩

theorem Linked.die {s t : Sched} (h : Linked s) {i : Nat} (hi : i ≠ 0)
    (htq : t.q = die s.q i i) : Linked t := by
  have hlive : ∀ j, j ≠ i → (s.q j).state.live → (t.q j).state.live := by
    intro j hj hl
    rw [htq, die_state, if_neg hj]
    split_ifs
    · trivial
    · exact hl
  refine ⟨hlive 0 (Ne.symm hi) h.init_live, ?_⟩
  intro j hj
  obtain ⟨hlt, hl⟩ := h.parent j hj
  rw [htq, die_ppid, ← htq]
  split_ifs with hchild
  · exact ⟨by decide, hlive 0 (Ne.symm hi) h.init_live⟩
  · exact ⟨hlt, hlive _ (fun hp => hchild ⟨hj, hp⟩) hl⟩

theorem setState_live {q : Table} {i j : Nat} {st : PState} (hst : st.live ∨ ¬ (q i).state.live)
    (h : (q j).state.live) : (q.setState i st j).state.live := by
  rw [Table.setState_state]
  split_ifs with hj
  · subst hj
    rcases hst with hl | hn
    · exact hl
    · exact absurd h hn
  · exact h

theorem Linked.step {s t : Sched} {e : Event} (hr : OnlyRunning s) (h : Linked s)
    (hok : KillsOthers s e) (hstep : s.step e = some t) : Linked t := by
  have hb := hr.toBase
  -- after a yield the table is the one before it
  have hyield : ∀ {s' : Sched} {point : Ctl}, Base s' → s'.yield point = some t →
      Linked s' → Linked t := by
    intro s' point hb' hy hl
    have htq := (yield_spec hb'.cur_lt hb'.cur_pid hy).1
    exact hl.mono (fun j hj => htq ▸ hj) (fun j => by rw [htq])
  have hcur : ∀ (tty : Tty) (st : PState), st.live →
      Linked { s with tty := tty, q := s.q.setState s.r st } := fun tty st hl =>
    h.mono (fun j => setState_live (Or.inl hl)) (fun j => Table.setState_ppid _ _ _ _)
  have hreap : ∀ i, (s.q i).state = .zombie → Linked (s.reap i) := fun i hz =>
    h.mono (fun j => setState_live (Or.inr (by simp [hz, PState.live])))
      (fun j => Table.setState_ppid _ _ _ _)
  cases step_trans hstep with
  | fork hm =>
      have hlive : ∀ j, (s.q j).state.live → (s.fork.q j).state.live := by
        intro j hl
        simp only [Sched.fork, fork_state]
        split_ifs
        · trivial
        · exact hl
      refine ⟨hlive 0 h.init_live, ?_⟩
      intro i hi
      have hpp : (s.fork.q i).ppid = if newPID s.q = some i then (s.q s.r).pid else (s.q i).ppid :=
        fork_ppid s.q s.r i
      rw [hpp]
      split_ifs
      · rw [hb.cur_pid]
        exact ⟨hb.cur_lt, hlive _ (by simp [hr.cur_running, PState.live])⟩
      · exact ⟨(h.parent i hi).1, hlive _ (h.parent i hi).2⟩
  | exit hm hy =>
      have h0 := hb.ne_zero_of_mode (by simp [hm])
      have hd : Linked { s with q := Proc.exit s.q s.r } :=
        h.die h0 (by simp [Proc.exit, hb.cur_pid])
      exact hyield (hb.die s.r _ h0) hy hd
  | kill pid hm =>
      obtain ⟨hpid, -⟩ := hok
      exact h.die (i := pid) (by omega) rfl
  | noSleep hm => exact h
  | sleep seconds hm hy =>
      refine hyield (hb.setCur s.tty (fun t =>
        { t with time := seconds.toInt, state := .suspended }) (fun _ => ⟨rfl, rfl, trivial⟩)) hy
        (h.mono ?_ ?_)
      · intro j hl
        by_cases hj : j = s.r
        · subst hj
          simp [PState.live]
        · simpa [Table.modify_ne _ _ hj] using hl
      · intro j
        by_cases hj : j = s.r
        · subst hj
          simp
        · simp [Table.modify_ne _ _ hj]
  | readDone e tty hat => exact (hcur tty .running trivial).mono (fun _ hl => hl) (fun _ => rfl)
  | readRetry e tty hat hy =>
      have ht : Base { s with tty := tty } :=
        ⟨hb.cur_lt, hb.cur_pid, hb.cur_state, hb.live_pid, hb.init_ctl, hb.init_kernel,
          hb.init_slot, hb.no_self⟩
      exact hyield ht hy (h.mono (fun _ hl => hl) (fun _ => rfl))
  | readSleep e hat hy =>
      exact hyield (hb.setState s.tty .sleeping trivial) hy (hcur s.tty .sleeping trivial)
  | reapChild e pid hat hp hst => exact (hreap pid hst).mono (fun _ hl => hl) (fun _ => rfl)
  | waitChild pid hm _ hy =>
      exact hyield (hb.setState s.tty .wait trivial) hy (hcur s.tty .wait trivial)
  | poll pid hm hc _ hy => exact hyield hb hy h
  | tick hm _ => exact h.mono (fun _ hl => hl) (fun _ => rfl)
  | preempt hm _ hy =>
      have ht : Base { s with count := s.count + 1 } :=
        ⟨hb.cur_lt, hb.cur_pid, hb.cur_state, hb.live_pid, hb.init_ctl, hb.init_kernel,
          hb.init_slot, hb.no_self⟩
      exact hyield ht hy (h.mono (fun _ hl => hl) (fun _ => rfl))
  | key code x tty enter hm =>
      refine h.mono ?_ ?_
      · intro j hl
        dsimp only
        split_ifs
        · rcases wakeProcess_state s.q j with heq | ⟨-, hs⟩
          · exact heq ▸ hl
          · simp [hs, PState.live]
        · exact hl
      · intro j
        dsimp only
        split_ifs <;> simp
  | idleYield hm hy => exact hyield hb hy h
  | back hm hc => exact h.mono (fun _ hl => hl) (fun _ => rfl)
  | timerTail back hm hc =>
      refine h.mono ?_ (fun j => sweep_ppid _ _)
      intro j hl
      rcases sweep_state s.q j with heq | ⟨-, hs⟩
      · simpa [Sched.timerTail, heq] using hl
      · simp [Sched.timerTail, hs, PState.live]
  | initReap i hm hc _ hp hst => exact (hreap i hst).mono (fun _ hl => hl) (fun _ => rfl)
  | initBlock hm hc _ hy =>
      exact hyield (hb.setState s.tty .wait trivial) hy (hcur s.tty .wait trivial)
  | initLoop hm hc => exact h.mono (fun _ hl => hl) (fun _ => rfl)
  | idle hm hc => exact h.mono (fun _ hl => hl) (fun _ => rfl)

/-- Every parent link leads to a live process, and the slot the next `fork`
takes is nobody's parent. -/
theorem parent_links_never_dangle (s : Sched)
    (h : Reachable Sched.step KillsOthers (· = boot) s) :
    (∀ i < MAX, (s.q i).ppid < MAX ∧ (s.q (s.q i).ppid).state.live) ∧
    ∀ pid t, newPID s.q = some pid → s.step (.sys .fork) = some t →
      ∀ i < MAX, (t.q i).ppid ≠ pid := by
  have hinv : OnlyRunning s ∧ Linked s := by
    refine h.invariant (P := fun s => OnlyRunning s ∧ Linked s) ?_ ?_
    · rintro s rfl
      refine ⟨OnlyRunning.boot, trivial, fun i _ => ⟨?_, ?_⟩⟩
      · simp [boot, bootTable, MAX]
      · simp [boot, bootTable, PState.live]
    · rintro a e b ⟨hr, hl⟩ hok hstep
      exact ⟨hr.step hok.spares hstep, hl.step hr hok hstep⟩
  obtain ⟨hr, hl⟩ := hinv
  refine ⟨hl.parent, ?_⟩
  intro pid t hn hstep i hi hpp
  have hfree := (newPID_some hn).2
  have htq : t.q = fork s.q s.r := by
    cases step_trans hstep with
    | fork hm => rfl
    | readDone _ _ hat | readRetry _ _ hat | readSleep _ hat | reapChild _ _ hat => simp at hat
  rw [htq, fork_ppid] at hpp
  split_ifs at hpp
  · -- the parent's slot is not free
    rw [hr.cur_pid] at hpp
    exact hr.cur_state (hpp ▸ hfree)
  · have hlive := (hl.parent i hi).2
    rw [hpp] at hlive
    simp [hfree, PState.live] at hlive

/-- The shell forks and its child dies unreaped. -/
theorem parent_links_never_dangle_orphan :
    ∃ s, Reachable Sched.step KillsOthers (· = boot) s ∧ (s.q 3).state = .zombie ∧
      (s.q (s.q 3).ppid).state.live := by
  have hfork : Reachable Sched.step KillsOthers (· = boot) boot.fork := by
    have hstart : Reachable Sched.step KillsOthers (· = boot) boot := .start rfl
    refine hstart.next (e := .sys .fork) ?_ rfl
    have hnew : (newPID boot.q).isSome = true := by decide +kernel
    intro hnone
    simp [hnone] at hnew
  have hkill : Reachable Sched.step KillsOthers (· = boot) (boot.fork.kill 3) :=
    hfork.next (e := .sys (.kill 3)) (by simp [KillsOthers, MAX]; decide +kernel) rfl
  exact ⟨_, hkill, by decide +kernel,
    ((parent_links_never_dangle _ hkill).1 3 (by decide)).2⟩

end X86Kernel.Proc
