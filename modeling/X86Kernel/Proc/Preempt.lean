import X86Kernel.Proc.Invariant

/-!
The preemption counter of `timer_handler`. The handler yields at count 18 and
resets the counter only after that `yield` returns, in whatever process the
scheduler then finds inside its own handler. The counter stays below its
trigger exactly as long as that process is the next one.
-/

namespace X86Kernel.Proc

open Lib

/-- On the tick that reaches the trigger, `yield` picks the interrupted process
itself or one that is suspended inside its own `timer_handler`. -/
def TriggerFindsHandler (s : Sched) : Event → Prop
  | .tick => s.count = 17 → ∀ i, nextSlot s.q (s.q s.r).pid = some i →
      i = s.r ∨ ∃ back, s.ctl i = .timer back
  | _ => True

/-- The counter is below the trigger, or at the trigger with the handler about
to reset it. -/
def CountBelow (s : Sched) : Prop :=
  (0 ≤ s.count ∧ s.count ≤ 17) ∨
    (s.count = 18 ∧ s.mode = .kernel ∧ ∃ back, s.ctl s.r = .timer back)

/-- The tick that reaches the trigger, under the side condition. -/
theorem trigger_spec {s t : Sched} (hb : Base s) (hok : TriggerFindsHandler s .tick)
    (hcount : s.count = 17)
    (hy : Sched.yield { s with count := s.count + 1 } (.timer s.mode) = some t) :
    t.q = s.q ∧ t.sec = s.sec ∧ t.count = 18 ∧ t.mode = .kernel ∧
      ∃ back, t.ctl t.r = .timer back := by
  have hnext : nextSlot s.q (s.q s.r).pid = some t.r := by
    unfold Sched.yield at hy
    obtain ⟨i, hi, rfl⟩ := Option.map_eq_some_iff.mp hy
    exact hi
  have hb' : Base { s with count := s.count + 1 } :=
    ⟨hb.cur_lt, hb.cur_pid, hb.cur_state, hb.live_pid, hb.init_ctl, hb.init_kernel,
      hb.init_slot, hb.no_self⟩
  obtain ⟨htq, htctl, htmode, htcount, htsec, -⟩ := yield_spec hb'.cur_lt hb'.cur_pid hy
  refine ⟨htq, htsec, by rw [htcount]; simp [hcount], htmode, ?_⟩
  rw [htctl]
  by_cases hr : t.r = s.r
  · exact ⟨s.mode, by simp [hr]⟩
  · rcases hok hcount t.r hnext with heq | ⟨back, hc⟩
    · exact absurd heq hr
    · exact ⟨back, by simpa [Function.update_of_ne hr] using hc⟩

/-- A step that leaves the counter alone, entered with the counter below the
trigger. -/
theorem CountBelow.of_count {s t : Sched} (h : 0 ≤ s.count ∧ s.count ≤ 17)
    (hcount : t.count = s.count) : CountBelow t :=
  Or.inl (hcount ▸ h)

theorem CountBelow.step {s t : Sched} {e : Event} (hb : Base s) (h : CountBelow s)
    (hok : TriggerFindsHandler s e) (hstep : s.step e = some t) : CountBelow t := by
  have hyield : ∀ {s' : Sched} {point : Ctl}, Base s' → s'.count = s.count →
      s'.yield point = some t → t.count = s.count := by
    intro s' point hb' hc hy
    obtain ⟨-, -, -, hcount, -⟩ := yield_spec hb'.cur_lt hb'.cur_pid hy
    exact hcount.trans hc
  rcases h with hlow | ⟨htop, hkernel, back, hctl⟩
  · cases step_trans hstep with
    | fork _ | kill _ _ | noSleep _ | readDone _ _ _ | reapChild _ _ _ _ _ | key _ _ _ _ _
    | back _ _ | initReap _ _ _ _ _ _ | initLoop _ _ | idle _ _ =>
        exact .of_count hlow rfl
    | exit hm hy =>
        exact .of_count hlow
          (hyield (hb.die s.r _ (hb.ne_zero_of_mode (by simp [hm]))) rfl hy)
    | sleep seconds hm hy =>
        exact .of_count hlow (hyield (hb.setCur s.tty (fun t =>
          { t with time := seconds.toInt, state := .suspended })
          (fun _ => ⟨rfl, rfl, trivial⟩)) rfl hy)
    | readRetry e tty hat hy =>
        have ht : Base { s with tty := tty } :=
          ⟨hb.cur_lt, hb.cur_pid, hb.cur_state, hb.live_pid, hb.init_ctl, hb.init_kernel,
            hb.init_slot, hb.no_self⟩
        exact .of_count hlow (hyield ht rfl hy)
    | readSleep e hat hy =>
        exact .of_count hlow (hyield (hb.setState s.tty .sleeping trivial) rfl hy)
    | waitChild pid hm _ hy =>
        exact .of_count hlow (hyield (hb.setState s.tty .wait trivial) rfl hy)
    | poll pid hm hc _ hy => exact .of_count hlow (hyield hb rfl hy)
    | tick hm hne =>
        refine Or.inl ⟨?_, ?_⟩ <;> dsimp only <;> omega
    | preempt hm heq hy =>
        obtain ⟨-, -, hcount, hmode, hhandler⟩ := trigger_spec hb hok (by omega) hy
        exact Or.inr ⟨hcount, hmode, hhandler⟩
    | idleYield hm hy => exact .of_count hlow (hyield hb rfl hy)
    | timerTail back hm hc => exact Or.inl ⟨Int.le_refl 0, by simp [Sched.timerTail]⟩
    | initBlock hm hc _ hy =>
        exact .of_count hlow (hyield (hb.setState s.tty .wait trivial) rfl hy)
  · -- at the trigger the only step is the rest of the handler
    cases step_trans hstep with
    | timerTail back' hm hc => exact Or.inl ⟨Int.le_refl 0, by simp [Sched.timerTail]⟩
    | fork hm | kill _ hm | exit hm _ | noSleep hm | sleep _ hm _ | waitChild _ hm _ _
    | idleYield hm _ => simp [hkernel] at hm
    | tick hm _ | preempt hm _ _ | key _ _ _ _ hm => exact absurd hkernel hm
    | readDone _ _ hat | readRetry _ _ hat _ | readSleep _ hat _ | reapChild _ _ hat _ _ =>
        simp [hkernel, hctl] at hat
    | poll _ _ hc _ _ | back _ hc | initReap _ _ hc _ _ _ | initBlock _ hc _ _
    | initLoop _ hc | idle _ hc => simp [hctl] at hc

/-- In every run in which the triggering tick always finds a process inside
its own handler, the counter is in `0..17` whenever user code or the idle loop
executes; the tick taken at 17 yields, and the process it resumes resets the
counter and sweeps the sleepers once. -/
theorem preemption_counter_below_trigger (s : Sched)
    (h : Reachable Sched.step TriggerFindsHandler (· = boot) s) (hmode : s.mode ≠ .kernel) :
    (0 ≤ s.count ∧ s.count ≤ 17) ∧
    (s.count = 17 → TriggerFindsHandler s .tick → ∃ t u, s.step .tick = some t ∧
      t.mode = .kernel ∧ t.step .resume = some u ∧ u.count = 0 ∧ u.sec = s.sec + 1 ∧
      u.q = sweep s.q) := by
  have hinv : Base s ∧ CountBelow s := by
    refine h.invariant (P := fun s => Base s ∧ CountBelow s) ?_ ?_
    · rintro s rfl
      exact ⟨Base.boot, Or.inl ⟨Int.le_refl 0, by simp [boot]⟩⟩
    · rintro a e b ⟨hb, hc⟩ hok hstep
      exact ⟨hb.step hstep, hc.step hb hok hstep⟩
  obtain ⟨hb, hc⟩ := hinv
  have hlow : 0 ≤ s.count ∧ s.count ≤ 17 := by
    rcases hc with hlow | ⟨-, hk, -⟩
    · exact hlow
    · exact absurd hk hmode
  refine ⟨hlow, ?_⟩
  intro hcount hok
  have hb' : Base { s with count := s.count + 1 } :=
    ⟨hb.cur_lt, hb.cur_pid, hb.cur_state, hb.live_pid, hb.init_ctl, hb.init_kernel,
      hb.init_slot, hb.no_self⟩
  obtain ⟨t, ht⟩ := yield_isSome (.timer s.mode) hb'.cur_lt hb'.cur_pid
  obtain ⟨htq, htsec, -, htmode, back, hctl⟩ := trigger_spec hb hok hcount ht
  refine ⟨t, t.timerTail back, ?_, htmode, ?_, rfl, ?_, ?_⟩
  · simpa [Sched.step, hmode, Sched.timerHandler, hcount] using ht
  · simp [Sched.step, htmode, Sched.resume, hctl]
  · simp [Sched.timerTail, htsec]
  · simp [Sched.timerTail, htq]

/-- The `yield` of the idle loop comes back when nobody else can run. -/
theorem Waiting.yields {s : Sched} (h : Waiting s) (n : Int) :
    exec Sched.step { s with count := n } [.idleYield, .resume] = some { s with count := n } := by
  obtain ⟨q, r, ctl, mode, count, sec, tty⟩ := s
  obtain ⟨rfl, rfl, hctl, hpid, hnext, -⟩ := h
  have hback : Function.update ctl 1 .idle = ctl := by
    rw [← hctl]
    exact Function.update_eq_self 1 ctl
  simp only at hctl hpid hnext
  simp [exec, Sched.step, Sched.yield, hpid, hnext, hback, Sched.resume, hctl]

/-- Seventeen ticks in the idle loop, with a `yield` after each. -/
theorem preemption_counter_below_trigger_idle :
    ∃ s, Reachable Sched.step TriggerFindsHandler (· = boot) s ∧ s.mode ≠ .kernel ∧
      s.count = 17 ∧ 0 ≤ s.count ∧ s.count ≤ 17 := by
  obtain ⟨s, hs, hwait⟩ := reachable_idle TriggerFindsHandler (fun _ => trivial)
    (fun _ => trivial)
  have hticks : ∀ n : Nat, n ≤ 17 →
      Reachable Sched.step TriggerFindsHandler (· = boot) { s with count := n } := by
    intro n hn
    induction n with
    | zero =>
        have hzero : { s with count := (0 : Nat) } = s := by
          cases s
          simpa using hwait.count.symm
        rwa [hzero]
    | succ n ih =>
        have hne : (n : Int) + 1 ≠ 18 := by omega
        have hlow : TriggerFindsHandler { s with count := (n : Int) } .tick := by
          intro (hc : (n : Int) = 17)
          omega
        have htick := (ih (by omega)).next (e := .tick) (t := { s with count := (n + 1 : Nat) })
          hlow (by simp [Sched.step, hwait.mode, Sched.timerHandler, hne])
        refine htick.exec ?_ (hwait.yields _)
        simp [TriggerFindsHandler]
  exact ⟨_, hticks 17 (by omega), by simp [hwait.mode], rfl,
    (preemption_counter_below_trigger _ (hticks 17 (by omega)) (by simp [hwait.mode])).1⟩

/-- The shell waits for a line, and after seventeen ticks in the idle loop Enter
and the eighteenth come before the loop yields again. The handler's `yield` finds
the shell, which is not inside a timer handler: it executes user code with the
counter at 18. -/
theorem preemption_counter_overshoots :
    ¬ ∀ s, Reachable Sched.step (fun _ _ => True) (· = boot) s → s.mode ≠ .kernel →
      0 ≤ s.count ∧ s.count ≤ 17 := by
  intro hclaim
  obtain ⟨s, hs, hp⟩ := reachable_of_exec Sched.step (fun _ _ => True) boot
    ([.sys .readInput, .resume, .resume] ++
      (List.replicate 17 [.tick, .idleYield, .resume]).flatten ++ [.key 28 0, .tick, .resume])
    (fun s => s.mode = .user ∧ s.r = 2 ∧ s.count = 18) (fun _ _ _ => trivial) (by decide +kernel)
  obtain ⟨hm, -, hc⟩ : s.mode = .user ∧ s.r = 2 ∧ s.count = 18 := by simpa using hp
  have hlow := hclaim s hs (by simp [hm])
  omega

end X86Kernel.Proc
