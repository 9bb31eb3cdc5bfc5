import X86Kernel.Proc.Running

/-!
When slots become free and when they are taken: a slot is freed by the step
that reaps it and taken by the `fork` that returns it, unless somebody kills a
process that is not there.
-/

namespace X86Kernel.Proc

open Lib

/-- The slot a step calls `removeProcess` on. -/
def reaps (s : Sched) : Event → Option Nat
  | .sys (.waitpid pid) => if isZombieChild s.q s.r pid then some pid else none
  | .resume =>
      match s.ctl s.r with
      | .inLoop | .wait => zombieChild s.q s.r
      | .waitpid pid => if isZombieChild s.q s.r pid then some pid else none
      | _ => none
  | _ => none

/-- The slot a step takes for a new process. -/
def forks (s : Sched) : Event → Option Nat
  | .sys .fork => newPID s.q
  | _ => none

theorem forks_eq_none {s : Sched} {e : Event} (h : e ≠ .sys .fork) : forks s e = none := by
  unfold forks
  split
  · exact absurd rfl h
  · rfl

def KillsExisting (s : Sched) : Event → Prop
  | .sys (.kill pid) => (s.q pid).state ≠ .ready
  | _ => True

/-- Only a zombie child of the current process is reaped. -/
theorem reaps_zombie {s : Sched} {e : Event} {i : Nat} (h : reaps s e = some i) :
    (s.q i).ppid = (s.q s.r).pid ∧ (s.q i).state = .zombie := by
  have hwaitpid : ∀ pid, (if isZombieChild s.q s.r pid then some pid else none) = some i →
      (s.q i).ppid = (s.q s.r).pid ∧ (s.q i).state = .zombie := by
    intro pid hpid
    split_ifs at hpid with hz
    obtain rfl : pid = i := Option.some.inj hpid
    exact isZombieChild_iff.mp hz
  unfold reaps at h
  split at h
  · exact hwaitpid _ h
  · split at h
    · exact (zombieChild_some h).2
    · exact (zombieChild_some h).2
    · exact hwaitpid _ h
    · cases h
  · cases h

/-- A slot that is reaped belongs to neither init nor idle nor the process
that reaps it. -/
theorem Awake.reaps_ne {s : Sched} (h : Awake s) {e : Event} {i : Nat}
    (hr : reaps s e = some i) : 2 ≤ i ∧ i ≠ s.r := by
  obtain ⟨hp, hst⟩ := reaps_zombie hr
  obtain ⟨h0, hcur⟩ := h.child_ne hp hst
  have h1 : i ≠ 1 := by
    rintro rfl
    simp [h.idle_running] at hst
  exact ⟨by omega, hcur⟩

theorem setState_ready_iff {q : Table} {i j : Nat} {st : PState} (hst : st ≠ .ready)
    (hi : (q i).state ≠ .ready) :
    (q.setState i st j).state = .ready ↔ (q j).state = .ready := by
  rw [Table.setState_state]
  split_ifs with hj
  · simp [hst, hj, hi]
  · exact Iff.rfl

theorem reap_ready_iff {q : Table} {i j : Nat} :
    (q.setState i .ready j).state = .ready ↔ (q j).state = .ready ∨ i = j := by
  rw [Table.setState_state]
  split_ifs with hj
  · simp [hj]
  · simp [Ne.symm hj]

theorem die_ready_iff {q : Table} {i pid j : Nat} (hi : (q i).state ≠ .ready) :
    (die q i pid j).state = .ready ↔ (q j).state = .ready := by
  rw [die_state]
  split_ifs with hj hw
  · simp [hj, hi]
  · simp [hw.2]
  · exact Iff.rfl

theorem wake_ready_iff {q : Table} {j : Nat} (enter : Bool) :
    ((if enter then wakeProcess q else q) j).state = .ready ↔ (q j).state = .ready := by
  split_ifs
  · obtain heq | ⟨hs, hr⟩ := wakeProcess_state q j
    · rw [heq]
    · simp [hs, hr]
  · exact Iff.rfl

theorem sweep_ready_iff {q : Table} {j : Nat} :
    (sweep q j).state = .ready ↔ (q j).state = .ready := by
  obtain heq | ⟨hs, hr⟩ := sweep_state q j
  · rw [heq]
  · simp [hs, hr]

/-- Which slots are free after a step. -/
theorem step_ready {s t : Sched} {e : Event} (h : Base s) (hok : KillsExisting s e)
    (hstep : s.step e = some t) (j : Nat) :
    (t.q j).state = .ready ↔
      ((s.q j).state = .ready ∧ forks s e ≠ some j) ∨ reaps s e = some j := by
  have hyield : ∀ {s' : Sched} {point : Ctl}, Base s' → s'.yield point = some t →
      t.q = s'.q := by
    intro s' point hb hy
    exact (yield_spec hb.cur_lt hb.cur_pid hy).1
  have hwaitpid : ∀ pid, ¬ ((s.q pid).ppid = (s.q s.r).pid ∧ (s.q pid).state = .zombie) →
      (if isZombieChild s.q s.r pid then some pid else none) = none := by
    intro pid hno
    exact if_neg (mt isZombieChild_iff.mp hno)
  have hread : ∀ {e}, (s.mode = .user ∧ e = Event.sys .readInput ∨
      s.mode = .kernel ∧ e = .resume ∧ s.ctl s.r = .readInput) →
      forks s e = none ∧ reaps s e = none := by
    rintro e (⟨-, rfl⟩ | ⟨-, rfl, hc⟩)
    · simp [forks, reaps]
    · simp [forks, reaps, hc]
  cases step_trans hstep with
  | fork hm =>
      simp only [Sched.fork, fork_state, forks, reaps]
      split_ifs with hn
      · simp [hn]
      · simp [hn]
  | exit hm hy =>
      rw [hyield (h.die s.r _ (h.ne_zero_of_mode (by simp [hm]))) hy]
      simpa [forks, reaps] using die_ready_iff h.cur_state
  | kill pid hm => simpa [forks, reaps, Sched.kill, Proc.kill] using die_ready_iff hok
  | noSleep hm => simp [forks, reaps]
  | sleep seconds hm hy =>
      have hb := h.setCur s.tty (fun t =>
        { t with time := seconds.toInt, state := .suspended }) (fun _ => ⟨rfl, rfl, trivial⟩)
      rw [hyield hb hy]
      by_cases hj : j = s.r
      · simp [forks, reaps, hj, h.cur_state]
      · simp [forks, reaps, Table.modify_ne _ _ hj]
  | readDone e tty hat =>
      obtain ⟨hf, hr⟩ := hread hat
      simpa [hf, hr, Sched.toUser] using setState_ready_iff (by simp) h.cur_state
  | readRetry e tty hat hy =>
      have hb : Base { s with tty := tty } := h.congr rfl rfl rfl rfl
      obtain ⟨hf, hr⟩ := hread hat
      rw [hyield hb hy]
      simp [hf, hr]
  | readSleep e hat hy =>
      obtain ⟨hf, hr⟩ := hread hat
      rw [hyield (h.setState s.tty .sleeping trivial) hy]
      simpa [hf, hr] using setState_ready_iff (by simp) h.cur_state
  | reapChild e pid hat hp hst =>
      have hz : isZombieChild s.q s.r pid = true := isZombieChild_iff.mpr ⟨hp, hst⟩
      have hevent : forks s e = none ∧ reaps s e = some pid := by
        obtain ⟨-, rfl⟩ | ⟨-, rfl, hc⟩ := hat
        · simp [forks, reaps, hz]
        · simp [forks, reaps, hc, hz]
      simpa [hevent, Sched.toUser, Sched.reap] using reap_ready_iff
  | waitChild pid hm hno hy =>
      rw [hyield (h.setState s.tty .wait trivial) hy]
      simpa [forks, reaps, hwaitpid pid hno] using setState_ready_iff (by simp) h.cur_state
  | poll pid hm hc hno hy =>
      rw [hyield h hy]
      simp [forks, reaps, hc, hwaitpid pid hno]
  | tick hm _ => simp [forks, reaps]
  | preempt hm _ hy =>
      have hb : Base { s with count := s.count + 1 } := h.congr rfl rfl rfl rfl
      rw [hyield hb hy]
      simp [forks, reaps]
  | key code x tty enter hm => simpa [forks, reaps] using wake_ready_iff enter
  | idleYield hm hy =>
      rw [hyield h hy]
      simp [forks, reaps]
  | back hm hc =>
      obtain hc | hc | hc := hc <;> simp [forks, reaps, hc, Sched.toUser]
  | timerTail back hm hc => simpa [forks, reaps, hc, Sched.timerTail] using sweep_ready_iff
  | initReap i hm hc _ hp hst hz =>
      have hevent : reaps s .resume = some i := by
        obtain hc | hc := hc <;> simp [reaps, hc, hz]
      simpa [forks, hevent, Sched.reap] using reap_ready_iff
  | initBlock hm hc _ hy hz =>
      rw [hyield (h.setState s.tty .wait trivial) hy]
      simpa [forks, reaps, hc, hz] using setState_ready_iff (by simp) h.cur_state
  | initLoop hm hc hz => simp [forks, reaps, hc, hz]
  | idle hm hc => simp [forks, reaps, hc]

end X86Kernel.Proc
