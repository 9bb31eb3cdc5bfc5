import X86Kernel.Proc.Slots

/-!
The life of a slot. Its state changes in ten ways only, each with its own kind of
event and its own cause; in particular nothing but being reaped by its parent comes
after death.
-/

namespace X86Kernel.Proc

open Lib

inductive Edge (s : Sched) (j : Nat) : Event → PState → PState → Prop
  | born : newPID s.q = some j → Edge s j (.sys .fork) .ready .running
  | exits : j = s.r → Edge s j (.sys .exit) .running .zombie
  | killed {st : PState} : j ≠ s.r → st ≠ .ready → Edge s j (.sys (.kill j)) st .zombie
  /-- the child `i` dies, or `i` dies and init gets its children -/
  | childDied {e : Event} (i : Nat) : e = .sys .exit ∧ i = s.r ∨ e = .sys (.kill i) →
      j = (s.q i).ppid ∨ j = 0 → Edge s j e .wait .running
  | waits {e : Event} : j = s.r →
      (∃ pid, e = .sys (.waitpid pid)) ∨ e = .resume ∧ s.ctl j = .inLoop →
      Edge s j e .running .wait
  | reads {e : Event} : j = s.r →
      e = .sys .readInput ∨ e = .resume ∧ s.ctl j = .readInput → Edge s j e .running .sleeping
  /-- Enter runs the first sleeper -/
  | lineTyped (code : Nat) (x : UInt8) : (∀ i < j, (s.q i).state ≠ .sleeping) →
      Edge s j (.key code x) .sleeping .running
  | sleeps (seconds : BitVec 32) : j = s.r → seconds ≠ 0 →
      Edge s j (.sys (.sleep seconds)) .running .suspended
  /-- in the sweep that counts the last second -/
  | timeUp (back : Mode) : s.ctl s.r = .timer back → (s.q j).time = 0 ∨ (s.q j).time = 1 →
      Edge s j .resume .suspended .running
  | reaped {e : Event} : reaps s e = some j → Edge s j e .zombie .ready

def KillsOther (s : Sched) (e : Event) : Prop := SparesCallerAndIdle s e ∧ KillsExisting s e

/-- Death, by `exit` or `kill`: of slot `i`, and perhaps of one that waits. -/
theorem die_edge {s : Sched} {i pid j : Nat} {e : Event}
    (he : e = .sys .exit ∧ i = s.r ∨ e = .sys (.kill i))
    (hvictim : Edge s i e (s.q i).state .zombie) :
    (die s.q i pid j).state = (s.q j).state ∨
      Edge s j e (s.q j).state (die s.q i pid j).state := by
  rw [die_state, die_ppid]
  by_cases hj : j = i
  · subst hj
    rw [if_pos rfl]
    exact Or.inr hvictim
  · rw [if_neg hj]
    split_ifs with hzero hwake hwake
    · rw [hwake.2]
      exact Or.inr (.childDied i he (Or.inr hwake.1))
    · exact Or.inl rfl
    · rw [hwake.2]
      exact Or.inr (.childDied i he (Or.inl hwake.1))
    · exact Or.inl rfl

/-- The current process changes its state. -/
theorem setState_edge {s : Sched} {j : Nat} {e : Event} {st : PState}
    (hcur : (s.q s.r).state = .running) (hedge : Edge s s.r e .running st) :
    (s.q.setState s.r st j).state = (s.q j).state ∨
      Edge s j e (s.q j).state (s.q.setState s.r st j).state := by
  rw [Table.setState_state]
  split_ifs with hj
  · rw [hj, hcur]
    exact Or.inr hedge
  · exact Or.inl rfl

theorem reap_edge {s : Sched} {i j : Nat} {e : Event} (hreap : reaps s e = some i) :
    (s.q.setState i .ready j).state = (s.q j).state ∨
      Edge s j e (s.q j).state (s.q.setState i .ready j).state := by
  rw [Table.setState_state]
  split_ifs with hj
  · rw [hj, (reaps_zombie hreap).2]
    exact Or.inr (.reaped hreap)
  · exact Or.inl rfl

theorem wake_edge {s : Sched} {j : Nat} (code : Nat) (x : UInt8) (enter : Bool) :
    ((if enter then wakeProcess s.q else s.q) j).state = (s.q j).state ∨
      Edge s j (.key code x) (s.q j).state
        ((if enter then wakeProcess s.q else s.q) j).state := by
  cases enter with
  | false => exact Or.inl rfl
  | true =>
      simp only [if_true]
      unfold wakeProcess
      cases hi : slots.find? fun i => (s.q i).state = .sleeping with
      | none => exact Or.inl rfl
      | some i =>
          dsimp only
          rw [Table.setState_state]
          split_ifs with hj
          · unfold slots at hi
            obtain ⟨hsleep, -, hfirst⟩ := List.find?_range_eq_some.mp hi
            rw [hj, show (s.q i).state = .sleeping by simpa using hsleep]
            exact Or.inr (.lineTyped code x fun k hk => by simpa using hfirst k hk)
          · exact Or.inl rfl

theorem sweep_edge {s : Sched} {j : Nat} {back : Mode} (hctl : s.ctl s.r = .timer back) :
    (sweep s.q j).state = (s.q j).state ∨
      Edge s j .resume (s.q j).state (sweep s.q j).state := by
  rw [sweep_apply]
  split_ifs with hj
  · unfold sweepTask
    dsimp only
    split_ifs with hcount hup hup
    · rw [hcount.1]
      exact Or.inr (.timeUp back hctl (Or.inr (by dsimp only at hup; omega)))
    · exact Or.inl rfl
    · rw [hup.2]
      exact Or.inr (.timeUp back hctl (Or.inl hup.1))
    · exact Or.inl rfl
  · exact Or.inl rfl

/-- One step moves every slot along an edge, or not at all. -/
theorem OnlyRunning.edge {s t : Sched} {e : Event} (h : OnlyRunning s) (hok : KillsOther s e)
    (hstep : s.step e = some t) (j : Nat) :
    (t.q j).state = (s.q j).state ∨ Edge s j e (s.q j).state (t.q j).state := by
  have hcur := h.cur_running
  have hyield : ∀ {s' : Sched} {point : Ctl}, Base s' → s'.yield point = some t →
      t.q = s'.q := by
    intro s' point hb hy
    exact (yield_spec hb.cur_lt hb.cur_pid hy).1
  cases step_trans hstep with
  | fork hm =>
      simp only [Sched.fork, fork_state]
      split_ifs with hn
      · rw [(newPID_some hn).2]
        exact Or.inr (.born hn)
      · exact Or.inl rfl
  | exit hm hy =>
      rw [hyield (h.die s.r _ (h.ne_zero_of_mode (by simp [hm]))) hy]
      refine die_edge (Or.inl ⟨rfl, rfl⟩) ?_
      rw [hcur]
      exact .exits rfl
  | kill pid hm =>
      obtain ⟨⟨-, -, hcaller, -⟩, hexists⟩ := hok
      rw [h.cur_pid] at hcaller
      exact die_edge (Or.inr rfl) (.killed hcaller hexists)
  | noSleep hm => exact Or.inl rfl
  | sleep seconds hm hy =>
      have hb := h.setCur s.tty (fun t =>
        { t with time := seconds.toInt, state := .suspended }) (fun _ => ⟨rfl, rfl, trivial⟩)
      have hne : seconds ≠ 0 := by
        rintro rfl
        have hsame : s.step (.sys (.sleep 0)) = some s := by
          simp [Sched.step, hm, Sched.syscall, Sched.sleep]
        rw [hsame] at hstep
        obtain rfl := Option.some.inj hstep
        have hsus := congrArg (fun q => (q s.r).state) (hyield hb hy)
        simp [hcur] at hsus
      rw [hyield hb hy]
      dsimp only
      by_cases hj : j = s.r
      · rw [hj, Table.modify_same, hcur]
        exact Or.inr (.sleeps seconds rfl hne)
      · rw [Table.modify_ne _ _ hj]
        exact Or.inl rfl
  | readDone e tty hat =>
      refine Or.inl ?_
      simp only [Sched.toUser, Table.setState_state]
      split_ifs with hj
      · rw [hj, hcur]
      · rfl
  | readRetry e tty hat hy =>
      have hb : Base { s with tty := tty } := h.congr rfl rfl rfl rfl
      rw [hyield hb hy]
      exact Or.inl rfl
  | readSleep e hat hy =>
      rw [hyield (h.setState s.tty .sleeping trivial) hy]
      refine setState_edge hcur (.reads rfl ?_)
      obtain ⟨-, rfl⟩ | ⟨-, rfl, hc⟩ := hat
      · exact Or.inl rfl
      · exact Or.inr ⟨rfl, hc⟩
  | reapChild e pid hat hp hst =>
      refine reap_edge ?_
      have hz : isZombieChild s.q s.r pid = true := isZombieChild_iff.mpr ⟨hp, hst⟩
      obtain ⟨-, rfl⟩ | ⟨-, rfl, hc⟩ := hat
      · simp [reaps, hz]
      · simp [reaps, hc, hz]
  | waitChild pid hm hno hy =>
      rw [hyield (h.setState s.tty .wait trivial) hy]
      exact setState_edge hcur (.waits rfl (Or.inl ⟨pid, rfl⟩))
  | poll pid hm hc hno hy =>
      rw [hyield h.toBase hy]
      exact Or.inl rfl
  | tick hm _ => exact Or.inl rfl
  | preempt hm _ hy =>
      have hb : Base { s with count := s.count + 1 } := h.congr rfl rfl rfl rfl
      rw [hyield hb hy]
      exact Or.inl rfl
  | key code x tty enter hm => exact wake_edge code x enter
  | idleYield hm hy =>
      rw [hyield h.toBase hy]
      exact Or.inl rfl
  | back hm hc => exact Or.inl rfl
  | timerTail back hm hc => exact sweep_edge hc
  | initReap i hm hc _ hp hst hz =>
      refine reap_edge ?_
      obtain hc | hc := hc <;> simp [reaps, hc, hz]
  | initBlock hm hc _ hy hz =>
      rw [hyield (h.setState s.tty .wait trivial) hy]
      exact setState_edge hcur (.waits rfl (Or.inr ⟨rfl, hc⟩))
  | initLoop hm hc hz => exact Or.inl rfl
  | idle hm hc => exact Or.inl rfl

theorem KillsOther.onlyRunning {s : Sched} (h : Reachable Sched.step KillsOther (· = boot) s) :
    OnlyRunning s := by
  refine h.invariant (P := OnlyRunning) ?_ (fun a e b ha hok hstep => ha.step hok.1 hstep)
  rintro s rfl
  exact OnlyRunning.boot

/-- A process that is dead does not get the CPU, and stays dead until it is reaped. -/
theorem OnlyRunning.stays_dead {s t : Sched} {j : Nat} {es : List Event} (h : OnlyRunning s)
    (hdead : (s.q j).state = .zombie)
    (hrun : Run Sched.step (fun s e => KillsOther s e ∧ reaps s e ≠ some j) s es t) :
    OnlyRunning t ∧ (t.q j).state = .zombie := by
  refine hrun.invariant (P := fun t => OnlyRunning t ∧ (t.q j).state = .zombie) ⟨h, hdead⟩ ?_
  rintro a e b ⟨ha, hz⟩ ⟨hok, hkeep⟩ hstep
  refine ⟨ha.step hok.1 hstep, ?_⟩
  obtain hsame | hedge := ha.edge hok hstep j
  · rw [hsame, hz]
  · rw [hz] at hedge
    generalize (b.q j).state = st at hedge ⊢
    cases hedge with
    | killed => rfl
    | reaped hreap => exact absurd hreap hkeep

/-- The life of a slot, in every run in which `kill` is aimed at other processes
that exist: each step moves it along one of the edges or leaves it where it is; and
death is final. From a state in which a slot is a zombie, as long as it is not
reaped, it stays one and is never the current process. -/
theorem life_cycle (s : Sched) (h : Reachable Sched.step KillsOther (· = boot) s) (j : Nat) :
    (∀ e t, KillsOther s e → s.step e = some t →
      (t.q j).state = (s.q j).state ∨ Edge s j e (s.q j).state (t.q j).state) ∧
    ∀ es t, (s.q j).state = .zombie →
      Run Sched.step (fun s e => KillsOther s e ∧ reaps s e ≠ some j) s es t →
      (t.q j).state = .zombie ∧ t.r ≠ j := by
  have honly := KillsOther.onlyRunning h
  refine ⟨fun e t hok hstep => honly.edge hok hstep j, ?_⟩
  intro es t hdead hrun
  obtain ⟨ht, hz⟩ := honly.stays_dead hdead hrun
  refine ⟨hz, ?_⟩
  rintro rfl
  rw [ht.cur_running] at hz
  cases hz

/-- The shell forks, kills its child and forks again; the first child stays dead. -/
theorem life_cycle_child :
    ∃ s t, Reachable Sched.step KillsOther (· = boot) s ∧ s.step (.sys .fork) = some t ∧
      (t.q 3).state = .zombie ∧ t.r ≠ 3 := by
  have hstart : Reachable Sched.step KillsOther (· = boot) boot := .start rfl
  have hfork : Reachable Sched.step KillsOther (· = boot) boot.fork :=
    hstart.next (e := .sys .fork) ⟨trivial, trivial⟩ rfl
  have hkill : Reachable Sched.step KillsOther (· = boot) (boot.fork.kill 3) := by
    refine hfork.next (e := .sys (.kill 3)) ⟨?_, ?_⟩ rfl
    · simp [SparesCallerAndIdle, MAX]
      decide +kernel
    · unfold KillsExisting
      decide +kernel
  have hagain : Run Sched.step (fun s e => KillsOther s e ∧ reaps s e ≠ some 3)
      (boot.fork.kill 3) ([] ++ [.sys .fork]) (boot.fork.kill 3).fork :=
    Run.nil.snoc ⟨⟨trivial, trivial⟩, by simp [reaps]⟩ rfl
  exact ⟨_, _, hkill, rfl, (life_cycle _ hkill 3).2 _ _ (by decide +kernel) hagain⟩

end X86Kernel.Proc
