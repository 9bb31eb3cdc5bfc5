import X86Kernel.Proc.Running

/-!
Sleeping for a number of seconds. `sleep` stores the number and leaves the CPU
to others; every sweep of `timer_handler` takes one off, and the sweep that
takes the last one lets the process run again. Nothing else touches a suspended
slot but a `kill` aimed at it: a death wakes those in `WAIT`, Enter wakes those
in `SLEEPING`, and what a process writes about itself, it writes while it is on
the CPU.
-/

namespace X86Kernel.Proc

open Lib

/-- The step is the end of `timer_handler`, with its loop over the table. -/
def sweeps (s : Sched) (e : Event) : Bool :=
  match e, s.ctl s.r with
  | .resume, .timer _ => true
  | _, _ => false

structure Watched where
  sched : Sched
  swept : Nat

def Watched.step (w : Watched) (e : Event) : Option Watched :=
  (w.sched.step e).map fun t =>
    { sched := t, swept := w.swept + if sweeps w.sched e then 1 else 0 }

def Dozes (t : Task) (n : Nat) : Prop := t.state = .suspended ∧ t.time = n

structure Asleep (s : Sched) (i n : Nat) : Prop where
  lt : i < MAX
  off : s.r ≠ i
  dozes : Dozes (s.q i) n

section Table

variable {q : Table} {i j n : Nat}

theorem Dozes.modify (h : Dozes (q j) n) (hj : j ≠ i) (f : Task → Task) :
    Dozes (q.modify i f j) n := by
  rwa [Table.modify_ne q f hj]

theorem Dozes.setState (h : Dozes (q j) n) (hj : j ≠ i) (st : PState) :
    Dozes (q.setState i st j) n :=
  h.modify hj _

/-- A death is not felt by those who sleep. -/
theorem Dozes.die (h : Dozes (q j) n) (hj : j ≠ i) (pid : Nat) : Dozes (die q i pid j) n := by
  have hfirst : Dozes (reparent (q.setState i .zombie) pid j) n := by
    rw [reparent_apply]
    split_ifs
    · exact h.setState hj _
    · exact h.setState hj _
  unfold Proc.die wakeParent
  split_ifs with hwait
  · refine hfirst.setState ?_ _
    rintro rfl
    rw [hfirst.1] at hwait
    cases hwait
  · exact hfirst

theorem Dozes.fork (h : Dozes (q j) n) {r : Nat} (hj : j ≠ r) : Dozes (fork q r j) n := by
  unfold Proc.fork
  refine Dozes.modify ?_ hj _
  cases hpid : newPID q with
  | none => exact h
  | some pid =>
      refine h.modify ?_ _
      rintro rfl
      have hready := (newPID_some hpid).2
      rw [h.1] at hready
      cases hready

theorem Dozes.wake (h : Dozes (q j) n) (enter : Bool) :
    Dozes ((if enter then wakeProcess q else q) j) n := by
  split_ifs
  · obtain heq | ⟨i, hi, heq⟩ := wakeProcess_cases q
    · rwa [heq]
    · rw [heq]
      refine h.setState ?_ _
      rintro rfl
      rw [h.1] at hi
      cases hi
  · exact h

/-- A reaped slot was a zombie. -/
theorem Dozes.reap (h : Dozes (q j) n) (hi : (q i).state = .zombie) :
    Dozes (q.setState i .ready j) n := by
  refine h.setState ?_ _
  rintro rfl
  rw [h.1] at hi
  cases hi

/-- A sweep that is not the last one. -/
theorem Dozes.sweep (h : Dozes (q j) (n + 1)) (hj : j < MAX) (hn : 0 < n) :
    Dozes (sweep q j) n := by
  obtain ⟨hstate, htime⟩ := h
  have hpos : 0 < (q j).time := by omega
  have hmore : (q j).time - 1 ≠ 0 := by omega
  rw [sweep_apply, if_pos hj]
  simp only [sweepTask, hstate, hpos, and_self, if_true, hmore, false_and, if_false]
  exact ⟨rfl, by simp only; omega⟩

/-- The last sweep. -/
theorem Dozes.sweep_last (h : Dozes (q j) 1) (hj : j < MAX) :
    (Proc.sweep q j).state = .running := by
  obtain ⟨hstate, htime⟩ := h
  rw [sweep_apply, if_pos hj]
  simp [sweepTask, hstate, htime]

end Table

section Step

variable {s t : Sched} {e : Event} {i n : Nat}

/-- The CPU goes to a process that runs, so never to one that is asleep. -/
theorem Asleep.of_yield {s' : Sched} {point : Ctl} (h : Asleep s i n) (hb : Base s')
    (hr : s'.r = s.r) (hq : Dozes (s'.q i) n) (hy : s'.yield point = some t) : Asleep t i n := by
  obtain ⟨htq, -, -, -, -, -, -, hcase⟩ := yield_spec hb.cur_lt hb.cur_pid hy
  refine ⟨h.lt, ?_, by rwa [htq]⟩
  obtain ⟨-, hrun⟩ | ⟨heq, -⟩ := hcase
  · rintro rfl
    rw [hq.1] at hrun
    cases hrun
  · rw [heq, hr]
    exact h.off

/-- A step that is not a sweep leaves a sleeping process as it is, and a sweep
does nothing but to sweep. -/
theorem Asleep.step (h : Asleep s i n) (hb : Base s) (hkill : e ≠ .sys (.kill i))
    (hstep : s.step e = some t) :
    (sweeps s e = false → Asleep t i n) ∧
      (sweeps s e = true → t.q = sweep s.q ∧ t.r = s.r) := by
  have hoff : i ≠ s.r := Ne.symm h.off
  have hother : sweeps s e = false → Asleep t i n → (sweeps s e = false → Asleep t i n) ∧
      (sweeps s e = true → t.q = sweep s.q ∧ t.r = s.r) := by
    intro hno hasleep
    exact ⟨fun _ => hasleep, fun hyes => by rw [hno] at hyes; cases hyes⟩
  have hread : ∀ {e}, (s.mode = .user ∧ e = Event.sys .readInput ∨
      s.mode = .kernel ∧ e = .resume ∧ s.ctl s.r = .readInput) → sweeps s e = false := by
    rintro e (⟨-, rfl⟩ | ⟨-, rfl, hc⟩)
    · rfl
    · simp [sweeps, hc]
  cases step_trans hstep with
  | fork hm => exact hother rfl ⟨h.lt, h.off, h.dozes.fork hoff⟩
  | exit hm hy =>
      have hb' := hb.die s.r (s.q s.r).pid (hb.ne_zero_of_mode (by simp [hm]))
      exact hother rfl (h.of_yield hb' rfl (h.dozes.die hoff _) hy)
  | kill pid hm =>
      have hne : i ≠ pid := by
        rintro rfl
        exact hkill rfl
      exact hother rfl ⟨h.lt, h.off, h.dozes.die hne _⟩
  | noSleep hm => exact hother rfl h
  | sleep seconds hm hy =>
      have hb' := hb.setCur s.tty (fun t =>
        { t with time := seconds.toInt, state := .suspended }) (fun _ => ⟨rfl, rfl, trivial⟩)
      exact hother rfl (h.of_yield hb' rfl (h.dozes.modify hoff _) hy)
  | readDone e tty hat => exact hother (hread hat) ⟨h.lt, h.off, h.dozes.setState hoff _⟩
  | readRetry e tty hat hy =>
      have hb' : Base { s with tty := tty } := hb.congr rfl rfl rfl rfl
      exact hother (hread hat) (h.of_yield hb' rfl h.dozes hy)
  | readSleep e hat hy =>
      have hb' := hb.setState s.tty .sleeping trivial
      exact hother (hread hat) (h.of_yield hb' rfl (h.dozes.setState hoff _) hy)
  | reapChild e pid hat hp hst =>
      have hno : sweeps s e = false := by
        obtain ⟨-, rfl⟩ | ⟨-, rfl, hc⟩ := hat
        · rfl
        · simp [sweeps, hc]
      exact hother hno ⟨h.lt, h.off, h.dozes.reap hst⟩
  | waitChild pid hm hno hy =>
      have hb' := hb.setState s.tty .wait trivial
      exact hother rfl (h.of_yield hb' rfl (h.dozes.setState hoff _) hy)
  | poll pid hm hc hno hy => exact hother (by simp [sweeps, hc]) (h.of_yield hb rfl h.dozes hy)
  | tick hm hcount => exact hother rfl ⟨h.lt, h.off, h.dozes⟩
  | preempt hm hcount hy =>
      have hb' : Base { s with count := s.count + 1 } := hb.congr rfl rfl rfl rfl
      exact hother rfl (h.of_yield hb' rfl h.dozes hy)
  | key code x tty enter hm => exact hother rfl ⟨h.lt, h.off, h.dozes.wake enter⟩
  | idleYield hm hy => exact hother rfl (h.of_yield hb rfl h.dozes hy)
  | back hm hc =>
      have hno : sweeps s .resume = false := by
        obtain hc | hc | hc := hc <;> simp [sweeps, hc]
      exact hother hno ⟨h.lt, h.off, h.dozes⟩
  | timerTail back hm hc =>
      refine ⟨fun hno => ?_, fun _ => ⟨rfl, rfl⟩⟩
      simp [sweeps, hc] at hno
  | initReap j hm hc _ hp hst hz =>
      have hno : sweeps s .resume = false := by
        obtain hc | hc := hc <;> simp [sweeps, hc]
      exact hother hno ⟨h.lt, h.off, h.dozes.reap hst⟩
  | initBlock hm hc _ hy hz =>
      have hb' := hb.setState s.tty .wait trivial
      exact hother (by simp [sweeps, hc]) (h.of_yield hb' rfl (h.dozes.setState hoff _) hy)
  | initLoop hm hc hz => exact hother (by simp [sweeps, hc]) ⟨h.lt, h.off, h.dozes⟩
  | idle hm hc => exact hother (by simp [sweeps, hc]) ⟨h.lt, h.off, h.dozes⟩

/-- `sleep` puts its caller to sleep, as there is always idle to run instead. -/
theorem Awake.sleep {seconds : BitVec 32} (h : Awake s) (hpos : 0 < seconds.toNat)
    (hlt : seconds.toNat < 2 ^ 31) (hstep : s.step (.sys (.sleep seconds)) = some t) :
    Asleep t s.r seconds.toNat := by
  cases step_trans hstep with
  | noSleep hm => simp at hpos
  | readDone e tty hat => simp at hat
  | readRetry e tty hat hy => simp at hat
  | readSleep e hat hy => simp at hat
  | reapChild e pid hat hp hst => simp at hat
  | sleep seconds hm hy =>
      have hb := h.setCur s.tty (fun t =>
        { t with time := seconds.toInt, state := .suspended }) (fun _ => ⟨rfl, rfl, trivial⟩)
      have hone := h.ne_one_of_user hm
      have hidle : ((s.q.modify s.r fun t =>
          { t with time := seconds.toInt, state := .suspended }) 1).state = .running := by
        rw [Table.modify_ne _ _ (Ne.symm hone)]
        exact h.idle_running
      have hrun := yield_running hb hidle hy
      obtain ⟨htq, -⟩ := yield_spec hb.cur_lt hb.cur_pid hy
      have hint : seconds.toInt = seconds.toNat := BitVec.toInt_eq_toNat_of_lt (by omega)
      have hdozes : Dozes (t.q s.r) seconds.toNat := by
        rw [htq]
        exact ⟨by simp, by simp [hint]⟩
      refine ⟨h.cur_lt, ?_, hdozes⟩
      intro hr
      rw [hr, hdozes.1] at hrun
      cases hrun

end Step

theorem eq_resume_of_swept {w w' : Watched} {e : Event} (hstep : w.step e = some w')
    (h : w'.swept ≠ w.swept) : e = .resume := by
  obtain ⟨t, -, rfl⟩ := Option.map_eq_some_iff.mp hstep
  cases e with
  | resume => rfl
  | _ => exact absurd rfl h

structure Sleeper (i n : Nat) (w : Watched) : Prop where
  awake : Awake w.sched
  asleep : w.swept < n → Asleep w.sched i (n - w.swept)

/-- One step later; the sweep that is the last one lets the process run. -/
theorem Sleeper.step {i n : Nat} {w w' : Watched} {e : Event} (h : Sleeper i n w)
    (hok : SparesIdle e ∧ e ≠ .sys (.kill i)) (hstep : w.step e = some w') :
    Sleeper i n w' ∧
      (w.swept < n → w'.swept = n → (w'.sched.q i).state = .running) := by
  obtain ⟨t, ht, rfl⟩ := Option.map_eq_some_iff.mp hstep
  have hawake := h.awake.step hok.1 ht
  cases hsweeps : sweeps w.sched e with
  | false =>
      simp only [Bool.false_eq_true, if_false, Nat.add_zero]
      refine ⟨⟨hawake, fun hlt => ?_⟩, fun hlt heq => by omega⟩
      exact ((h.asleep hlt).step h.awake.toBase hok.2 ht).1 hsweeps
  | true =>
      simp only [if_true]
      have hswept : w.swept < n → t.q = sweep w.sched.q ∧ t.r = w.sched.r := fun hlt =>
        ((h.asleep hlt).step h.awake.toBase hok.2 ht).2 hsweeps
      refine ⟨⟨hawake, fun hlt => ?_⟩, fun hlt heq => ?_⟩
      · have hasleep := h.asleep (by simp only at hlt; omega)
        obtain ⟨hq, hr⟩ := hswept (by simp only at hlt; omega)
        have hdozes := hasleep.dozes
        simp only at hlt ⊢
        rw [show n - w.swept = n - (w.swept + 1) + 1 by omega] at hdozes
        exact ⟨hasleep.lt, by rw [hr]; exact hasleep.off,
          by rw [hq]; exact hdozes.sweep hasleep.lt (by omega)⟩
      · have hasleep := h.asleep hlt
        have hdozes := hasleep.dozes
        rw [show n - w.swept = 1 by omega] at hdozes
        rw [(hswept hlt).1]
        exact hdozes.sweep_last hasleep.lt

/-- A process that sleeps wakes at the right sweep. As long as it is not killed,
and fewer than `seconds` sweeps have followed its call, it is suspended, with the
number of those that are left in its field `time`; when the last one has come, it
runs. -/
theorem sleeper_wakes (s₀ s₁ : Sched) (seconds : BitVec 32) (hpos : 0 < seconds.toNat)
    (hlt : seconds.toNat < 2 ^ 31)
    (h₀ : Reachable Sched.step (fun _ e => SparesIdle e) (· = boot) s₀)
    (hsleep : s₀.step (.sys (.sleep seconds)) = some s₁) (w : Watched)
    (hw : Reachable Watched.step (fun _ e => SparesIdle e ∧ e ≠ .sys (.kill s₀.r))
      (· = { sched := s₁, swept := 0 }) w) :
    (w.swept < seconds.toNat → (w.sched.q s₀.r).state = .suspended ∧
        (w.sched.q s₀.r).time = (seconds.toNat - w.swept : Nat)) ∧
      ∀ e w', w.step e = some w' → w.swept + 1 = seconds.toNat → w'.swept = seconds.toNat →
        (w'.sched.q s₀.r).state = .running := by
  have hawake : Awake s₀ := h₀.invariant (P := Awake)
    (fun s hs => by rw [hs]; exact Awake.boot) (fun _ _ _ ha hok hs => ha.step hok hs)
  have hsleeper : Sleeper s₀.r seconds.toNat w := by
    refine hw.invariant (P := Sleeper s₀.r seconds.toNat) ?_
      (fun _ _ _ ha hok hs => (ha.step hok hs).1)
    rintro w rfl
    have hok : SparesIdle (.sys (.sleep seconds)) := trivial
    exact ⟨hawake.step hok hsleep, fun _ => hawake.sleep hpos hlt hsleep⟩
  refine ⟨fun hmore => (hsleeper.asleep hmore).dozes, fun e w' hstep hlast hdone => ?_⟩
  obtain rfl : e = .resume := eq_resume_of_swept hstep (by omega)
  have hok : SparesIdle .resume ∧ Event.resume ≠ .sys (.kill s₀.r) := ⟨trivial, by simp⟩
  exact (hsleeper.step hok hstep).2 (by omega) hdone

/-- The shell sleeps for a second: init goes on to wait, idle halts, and the
eighteenth tick leads to the sweep. -/
theorem sleeper_wakes_shell :
    ∃ s₁ w w', boot.step (.sys (.sleep 1)) = some s₁ ∧
      Reachable Watched.step (fun _ e => SparesIdle e ∧ e ≠ .sys (.kill boot.r))
        (· = { sched := s₁, swept := 0 }) w ∧
      (w.sched.q 2).state = .suspended ∧ w.step .resume = some w' ∧
      (w'.sched.q 2).state = .running := by
  have hrun : (boot.step (.sys (.sleep 1))).any (fun s₁ =>
      (exec Watched.step { sched := s₁, swept := 0 }
        ([.resume, .resume] ++ List.replicate 18 .tick)).any fun w =>
          decide (w.swept = 0) && (w.step .resume).any fun w' => w'.swept = 1) := by
    decide +kernel
  obtain ⟨s₁, hsleep, hrun⟩ := (Option.any_eq_true _ _).mp hrun
  obtain ⟨w, hw, hends⟩ := reachable_of_exec Watched.step
    (fun _ e => SparesIdle e ∧ e ≠ .sys (.kill boot.r)) _ _ _
    (by
      intro _ e he
      obtain he | he := List.mem_append.mp he
      · obtain rfl : e = .resume := by simpa using he
        exact ⟨trivial, by simp⟩
      · rw [List.eq_of_mem_replicate he]
        exact ⟨trivial, by simp⟩) hrun
  simp only [Bool.and_eq_true, decide_eq_true_eq] at hends
  obtain ⟨hzero, hlast⟩ := hends
  obtain ⟨w', hw', hone⟩ := (Option.any_eq_true _ _).mp hlast
  have hone : w'.swept = 1 := of_decide_eq_true hone
  obtain ⟨hbefore, hafter⟩ := sleeper_wakes boot s₁ 1 (by decide) (by decide) (.start rfl) hsleep
    w hw
  refine ⟨s₁, w, w', hsleep, hw, (hbefore (by rw [hzero]; decide)).1, hw', ?_⟩
  exact hafter .resume w' hw' (by rw [hzero]; decide) hone

end X86Kernel.Proc
