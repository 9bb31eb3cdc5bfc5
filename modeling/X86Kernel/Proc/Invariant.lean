import X86Kernel.Proc.Sched

/-!
What every run keeps, whoever is killed: the current slot is in use and carries
its own pid, live slots carry theirs, and init never leaves the kernel, so slot
0 is never reaped and never reused.
-/

namespace X86Kernel.Proc

open Lib

/-- Everything a step can do, with the guard of each case. The invariants
below are proved from this list and never from the functions themselves. -/
inductive Trans (s : Sched) : Event → Sched → Prop
  | fork : s.mode = .user → Trans s (.sys .fork) s.fork
  | exit {t : Sched} : s.mode = .user →
      Sched.yield { s with q := Proc.exit s.q s.r } .exit = some t →
      Trans s (.sys .exit) t
  | kill (pid : Nat) : s.mode = .user → Trans s (.sys (.kill pid)) (s.kill pid)
  | noSleep : s.mode = .user → Trans s (.sys (.sleep 0)) s
  | sleep {t : Sched} (seconds : BitVec 32) : s.mode = .user →
      Sched.yield { s with q := s.q.modify s.r fun t =>
        { t with time := seconds.toInt, state := .suspended } } .sleep = some t →
      Trans s (.sys (.sleep seconds)) t
  | readDone (e : Event) (tty : Tty) :
      (s.mode = .user ∧ e = .sys .readInput ∨
        s.mode = .kernel ∧ e = .resume ∧ s.ctl s.r = .readInput) →
      Trans s e (Sched.toUser { s with tty := tty, q := s.q.setState s.r .running })
  | readRetry {t : Sched} (e : Event) (tty : Tty) :
      (s.mode = .user ∧ e = .sys .readInput ∨
        s.mode = .kernel ∧ e = .resume ∧ s.ctl s.r = .readInput) →
      Sched.yield { s with tty := tty } .readInput = some t → Trans s e t
  | readSleep {t : Sched} (e : Event) :
      (s.mode = .user ∧ e = .sys .readInput ∨
        s.mode = .kernel ∧ e = .resume ∧ s.ctl s.r = .readInput) →
      Sched.yield { s with q := s.q.setState s.r .sleeping } .readInput = some t →
      Trans s e t
  | reapChild (e : Event) (pid : Nat) :
      (s.mode = .user ∧ e = .sys (.waitpid pid) ∨
        s.mode = .kernel ∧ e = .resume ∧ s.ctl s.r = .waitpid pid) →
      (s.q pid).ppid = (s.q s.r).pid → (s.q pid).state = .zombie →
      Trans s e (s.reap pid).toUser
  | waitChild {t : Sched} (pid : Nat) : s.mode = .user →
      ¬ ((s.q pid).ppid = (s.q s.r).pid ∧ (s.q pid).state = .zombie) →
      Sched.yield { s with q := s.q.setState s.r .wait } (.waitpid pid) = some t →
      Trans s (.sys (.waitpid pid)) t
  | poll {t : Sched} (pid : Nat) : s.mode = .kernel → s.ctl s.r = .waitpid pid →
      ¬ ((s.q pid).ppid = (s.q s.r).pid ∧ (s.q pid).state = .zombie) →
      s.yield (.waitpid pid) = some t → Trans s .resume t
  | tick : s.mode ≠ .kernel → s.count + 1 ≠ 18 →
      Trans s .tick { s with count := s.count + 1 }
  | preempt {t : Sched} : s.mode ≠ .kernel → s.count + 1 = 18 →
      Sched.yield { s with count := s.count + 1 } (.timer s.mode) = some t →
      Trans s .tick t
  | key (code : Nat) (x : UInt8) (tty : Tty) (enter : Bool) : s.mode ≠ .kernel →
      Trans s (.key code x)
        { s with tty := tty, q := if enter then wakeProcess s.q else s.q }
  | idleYield {t : Sched} : s.mode = .idle → s.yield .idle = some t →
      Trans s .idleYield t
  | back : s.mode = .kernel →
      s.ctl s.r = .user ∨ s.ctl s.r = .sleep ∨ s.ctl s.r = .exit →
      Trans s .resume s.toUser
  | timerTail (back : Mode) : s.mode = .kernel → s.ctl s.r = .timer back →
      Trans s .resume (s.timerTail back)
  | initReap (i : Nat) : s.mode = .kernel →
      s.ctl s.r = .inLoop ∨ s.ctl s.r = .wait → i < MAX →
      (s.q i).ppid = (s.q s.r).pid → (s.q i).state = .zombie →
      zombieChild s.q s.r = some i →
      Trans s .resume { s.reap i with ctl := Function.update s.ctl s.r .inLoop }
  | initBlock {t : Sched} : s.mode = .kernel → s.ctl s.r = .inLoop →
      (∀ i < MAX, (s.q i).ppid = (s.q s.r).pid → (s.q i).state ≠ .zombie) →
      Sched.yield { s with q := s.q.setState s.r .wait } .wait = some t →
      zombieChild s.q s.r = none → Trans s .resume t
  | initLoop : s.mode = .kernel → s.ctl s.r = .wait → zombieChild s.q s.r = none →
      Trans s .resume { s with ctl := Function.update s.ctl s.r .inLoop }
  | idle : s.mode = .kernel → s.ctl s.r = .idle →
      Trans s .resume { s with mode := .idle }

theorem readInput_trans {s t : Sched} (e : Event)
    (hat : s.mode = .user ∧ e = .sys .readInput ∨
      s.mode = .kernel ∧ e = .resume ∧ s.ctl s.r = .readInput)
    (h : s.readInput = some t) : Trans s e t := by
  unfold Sched.readInput at h
  split_ifs at h with hlines
  · rcases hread : readLine s.tty with ⟨tty, line, found⟩
    simp only [hread] at h
    cases found with
    | true =>
        obtain rfl : _ = t := by simpa using h
        exact .readDone e tty hat
    | false => exact .readRetry e tty hat (by simpa using h)
  · exact .readSleep e hat h

theorem resume_trans {s t : Sched} (hmode : s.mode = .kernel)
    (h : s.resume = some t) : Trans s .resume t := by
  unfold Sched.resume at h
  split at h
  · rename_i hc
    obtain rfl : _ = t := by simpa using h
    exact .back hmode (Or.inl hc)
  · rename_i hc
    obtain rfl : _ = t := by simpa using h
    exact .back hmode (Or.inr (Or.inl hc))
  · rename_i hc
    obtain rfl : _ = t := by simpa using h
    exact .back hmode (Or.inr (Or.inr hc))
  · rename_i back hc
    obtain rfl : _ = t := by simpa using h
    exact .timerTail back hmode hc
  · rename_i hc
    unfold Sched.waitTop at h
    cases hz : zombieChild s.q s.r with
    | some i =>
        obtain ⟨hi, hp, hst⟩ := zombieChild_some hz
        simp only [hz] at h
        obtain rfl : _ = t := by simpa using h
        exact .initReap i hmode (Or.inl hc) hi hp hst hz
    | none =>
        simp only [hz] at h
        exact .initBlock hmode hc (fun i hi hp => zombieChild_none hz hi hp) h hz
  · rename_i hc
    unfold Sched.waitAgain at h
    cases hz : zombieChild s.q s.r with
    | some i =>
        obtain ⟨hi, hp, hst⟩ := zombieChild_some hz
        simp only [hz] at h
        obtain rfl : _ = t := by simpa using h
        exact .initReap i hmode (Or.inr hc) hi hp hst hz
    | none =>
        simp only [hz] at h
        obtain rfl : _ = t := by simpa using h
        exact .initLoop hmode hc hz
  · rename_i pid hc
    unfold Sched.pollChild at h
    split_ifs at h with hz
    · obtain ⟨hp, hst⟩ := isZombieChild_iff.mp hz
      obtain rfl : _ = t := Option.some.inj h
      exact .reapChild _ pid (Or.inr ⟨hmode, rfl, hc⟩) hp hst
    · exact .poll pid hmode hc (mt isZombieChild_iff.mpr hz) h
  · rename_i hc
    exact readInput_trans .resume (Or.inr ⟨hmode, rfl, hc⟩) h
  · rename_i hc
    obtain rfl : _ = t := by simpa using h
    exact .idle hmode hc

theorem syscall_trans {s t : Sched} {call : Syscall} (hmode : s.mode = .user)
    (h : s.syscall call = some t) : Trans s (.sys call) t := by
  cases call with
  | fork =>
      obtain rfl : s.fork = t := Option.some.inj h
      exact .fork hmode
  | exit => exact .exit hmode h
  | kill pid =>
      obtain rfl : s.kill pid = t := Option.some.inj h
      exact .kill pid hmode
  | sleep seconds =>
      simp only [Sched.syscall, Sched.sleep] at h
      split_ifs at h with hz
      · obtain rfl : s = t := Option.some.inj h
        subst hz
        exact .noSleep hmode
      · exact .sleep seconds hmode h
  | readInput => exact readInput_trans _ (Or.inl ⟨hmode, rfl⟩) h
  | waitpid pid =>
      simp only [Sched.syscall, Sched.waitpid] at h
      split_ifs at h with hz
      · obtain ⟨hp, hst⟩ := isZombieChild_iff.mp hz
        obtain rfl : _ = t := Option.some.inj h
        exact .reapChild _ pid (Or.inl ⟨hmode, rfl⟩) hp hst
      · exact .waitChild pid hmode (mt isZombieChild_iff.mpr hz) h

theorem step_trans {s t : Sched} {e : Event} (h : s.step e = some t) : Trans s e t := by
  cases e with
  | resume =>
      simp only [Sched.step] at h
      split_ifs at h with hmode
      exact resume_trans hmode h
  | sys call =>
      simp only [Sched.step] at h
      split_ifs at h with hmode
      exact syscall_trans hmode h
  | idleYield =>
      simp only [Sched.step] at h
      split_ifs at h with hmode
      exact .idleYield hmode h
  | tick =>
      simp only [Sched.step, Sched.timerHandler] at h
      split_ifs at h with hmode hc
      · exact .preempt hmode hc h
      · obtain rfl : _ = t := Option.some.inj h
        exact .tick hmode hc
  | key code x =>
      simp only [Sched.step] at h
      split_ifs at h with hmode
      rcases hw : writeTerminal s.tty code x with ⟨tty, enter⟩
      obtain rfl : _ = t := Option.some.inj h
      simp only [Sched.keyPressed, hw]
      exact .key code x tty enter hmode

theorem yield_spec {s t : Sched} {point : Ctl} (hr : s.r < MAX)
    (hpid : (s.q s.r).pid = s.r) (h : s.yield point = some t) :
    t.q = s.q ∧ t.ctl = Function.update s.ctl s.r point ∧ t.mode = .kernel ∧
      t.count = s.count ∧ t.sec = s.sec ∧ t.tty = s.tty ∧ t.r < MAX ∧
      ((t.r ≠ s.r ∧ (s.q t.r).state = .running) ∨
        (t.r = s.r ∧ ∀ j < MAX, j ≠ s.r → (s.q j).state ≠ .running)) := by
  obtain ⟨i, hi, hlt, hcase⟩ := nextSlot_spec s.q s.r hr
  unfold Sched.yield at h
  rw [hpid, hi] at h
  obtain rfl : _ = t := by simpa using h
  exact ⟨rfl, rfl, rfl, rfl, rfl, rfl, hlt, hcase⟩

theorem yield_isSome {s : Sched} (point : Ctl) (hr : s.r < MAX)
    (hpid : (s.q s.r).pid = s.r) : ∃ t, s.yield point = some t := by
  obtain ⟨i, hi, -⟩ := nextSlot_spec s.q s.r hr
  simp [Sched.yield, hpid, hi]

structure Base (s : Sched) : Prop where
  cur_lt : s.r < MAX
  cur_pid : (s.q s.r).pid = s.r
  cur_state : (s.q s.r).state ≠ .ready
  live_pid : ∀ i < MAX, (s.q i).state.live → (s.q i).pid = i
  init_ctl : s.ctl 0 = .inLoop ∨ s.ctl 0 = .wait
  init_kernel : s.r = 0 → s.mode = .kernel ∧ (s.q 0).state.live
  init_slot : (s.q 0).state ≠ .ready ∧ (s.q 0).pid = 0 ∧ (s.q 0).ppid = 0
  no_self : ∀ i, i ≠ 0 → (s.q i).ppid ≠ i

/-- Only the table, the current slot, the control points and the mode matter. -/
theorem Base.congr {s t : Sched} (h : Base s) (hq : t.q = s.q) (hr : t.r = s.r)
    (hctl : t.ctl = s.ctl) (hmode : t.mode = s.mode) : Base t := by
  refine ⟨?_, ?_, ?_, ?_, ?_, ?_, ?_, ?_⟩ <;> simp only [hq, hr, hctl, hmode]
  · exact h.cur_lt
  · exact h.cur_pid
  · exact h.cur_state
  · exact h.live_pid
  · exact h.init_ctl
  · exact h.init_kernel
  · exact h.init_slot
  · exact h.no_self

/-- A change of the table alone keeps `Base` when it keeps every pid, brings
no dead slot but the current one to life and leaves init's slot in place. -/
theorem Base.table {s t : Sched} (h : Base s)
    (ht : t.r = s.r ∧ t.ctl = s.ctl ∧ t.mode = s.mode)
    (hpid : ∀ i, (t.q i).pid = (s.q i).pid)
    (hlive : ∀ i, (t.q i).state.live → (s.q i).state.live ∨ i = s.r)
    (hppid : ∀ i, (t.q i).ppid = (s.q i).ppid ∨ (t.q i).ppid = 0)
    (hcur : (t.q s.r).state ≠ .ready)
    (hinit : (t.q 0).state ≠ .ready)
    (hzero : s.r = 0 → (t.q 0).state.live) : Base t := by
  obtain ⟨hr, hctl, hmode⟩ := ht
  refine ⟨hr ▸ h.cur_lt, ?_, hr ▸ hcur, ?_, ?_, ?_, ⟨hinit, ?_, ?_⟩, ?_⟩
  · rw [hr, hpid, h.cur_pid]
  · intro i hi hl
    rw [hpid]
    rcases hlive i hl with hold | rfl
    · exact h.live_pid i hi hold
    · exact h.cur_pid
  · rw [hctl]
    exact h.init_ctl
  · intro h0
    rw [hr] at h0
    exact ⟨hmode.trans (h.init_kernel h0).1, hzero h0⟩
  · rw [hpid, h.init_slot.2.1]
  · rcases hppid 0 with heq | heq
    · rw [heq, h.init_slot.2.2]
    · exact heq
  · intro i hi
    rcases hppid i with heq | heq
    · rw [heq]
      exact h.no_self i hi
    · rw [heq]
      exact Ne.symm hi

/-- The current process changes its own state, as before a `yield`. -/
theorem Base.setCur {s : Sched} (h : Base s) (tty : Tty) (f : Task → Task)
    (hf : ∀ x, (f x).pid = x.pid ∧ (f x).ppid = x.ppid ∧ (f x).state.live) :
    Base { s with tty := tty, q := s.q.modify s.r f } := by
  have hready : (f (s.q s.r)).state ≠ .ready := by
    intro hst
    have hl := (hf (s.q s.r)).2.2
    simp [hst, PState.live] at hl
  refine h.table ⟨rfl, rfl, rfl⟩ ?_ ?_ ?_ (by simpa using hready) ?_ ?_
  · intro i
    by_cases hi : i = s.r
    · subst hi
      simp [(hf _).1]
    · simp [Table.modify_ne _ _ hi]
  · intro i hl
    by_cases hi : i = s.r
    · exact Or.inr hi
    · exact Or.inl (by simpa [Table.modify_ne _ _ hi] using hl)
  · intro i
    by_cases hi : i = s.r
    · subst hi
      simp [(hf _).2.1]
    · simp [Table.modify_ne _ _ hi]
  · by_cases h0 : 0 = s.r
    · simpa [h0] using hready
    · simpa [Table.modify_ne _ _ h0] using h.init_slot.1
  · intro h0
    simp only [h0, Table.modify_same]
    exact (hf _).2.2

theorem Base.setState {s : Sched} (h : Base s) (tty : Tty) (st : PState) (hl : st.live) :
    Base { s with tty := tty, q := s.q.setState s.r st } :=
  h.setCur tty (fun x => { x with state := st }) (fun _ => ⟨rfl, rfl, hl⟩)

theorem Base.die {s : Sched} (h : Base s) (i pid : Nat) (hr : s.r ≠ 0) :
    Base { s with q := die s.q i pid } := by
  have hstate : ∀ j, (s.q j).state ≠ .ready → (Proc.die s.q i pid j).state ≠ .ready := by
    intro j hj
    rw [die_state]
    split_ifs
    · simp
    · simp
    · exact hj
  refine h.table ⟨rfl, rfl, rfl⟩ (fun j => die_pid _ _ _ _) ?_ ?_ (hstate _ h.cur_state)
    (hstate _ h.init_slot.1) (fun h0 => absurd h0 hr)
  · intro j hl
    rw [die_state] at hl
    split_ifs at hl with h1 h2
    · simp [PState.live] at hl
    · exact Or.inl (by simp [h2.2, PState.live])
    · exact Or.inl hl
  · intro j
    rw [die_ppid]
    split_ifs
    · exact Or.inr rfl
    · exact Or.inl rfl

/-- A slot that a process finds to be its zombie child is not init's, and not
the process itself. -/
theorem Base.child_ne {s : Sched} (h : Base s) {i : Nat}
    (hp : (s.q i).ppid = (s.q s.r).pid) (hst : (s.q i).state = .zombie) :
    i ≠ 0 ∧ i ≠ s.r := by
  rw [h.cur_pid] at hp
  have hi : i ≠ 0 := by
    rintro rfl
    have h0 : s.r = 0 := by rw [← hp, h.init_slot.2.2]
    have hl := (h.init_kernel h0).2
    simp [hst, PState.live] at hl
  refine ⟨hi, ?_⟩
  intro hr
  exact h.no_self i hi (hp.trans hr.symm)

theorem Base.reap {s : Sched} (h : Base s) {i : Nat} (hi : i ≠ 0 ∧ i ≠ s.r) :
    Base (s.reap i) := by
  refine h.table ⟨rfl, rfl, rfl⟩ (fun j => Table.setState_pid _ _ _ _) ?_
    (fun j => Or.inl (Table.setState_ppid _ _ _ _)) ?_ ?_ ?_
  · intro j hl
    simp only [Sched.reap, Table.setState_state] at hl
    split_ifs at hl with hj
    · simp [PState.live] at hl
    · exact Or.inl hl
  · simpa [Sched.reap, Table.setState_state, Ne.symm hi.2] using h.cur_state
  · simpa [Sched.reap, Table.setState_state, Ne.symm hi.1] using h.init_slot.1
  · intro h0
    simpa [Sched.reap, Table.setState_state, Ne.symm hi.1] using (h.init_kernel h0).2

theorem Base.toUser {s : Sched} (h : Base s) (hr : s.r ≠ 0) : Base s.toUser where
  cur_lt := h.cur_lt
  cur_pid := h.cur_pid
  cur_state := h.cur_state
  live_pid := h.live_pid
  init_ctl := by
    simp only [Sched.toUser, Function.update_of_ne (Ne.symm hr)]
    exact h.init_ctl
  init_kernel := fun h0 => absurd h0 hr
  init_slot := h.init_slot
  no_self := h.no_self

/-- `yield` keeps `Base` when init calls it only from `wait` and with a live
state. -/
theorem Base.yield {s t : Sched} {point : Ctl} (h : Base s)
    (hinit : s.r = 0 → point = .wait)
    (hy : s.yield point = some t) : Base t := by
  obtain ⟨hq, hctl, hmode, -, -, -, hlt, hcase⟩ := yield_spec h.cur_lt h.cur_pid hy
  have hcur : t.r ≠ s.r → (s.q t.r).state = .running := by
    rcases hcase with hc | hc
    · exact fun _ => hc.2
    · exact fun hne => absurd hc.1 hne
  refine ⟨hlt, ?_, ?_, ?_, ?_, ?_, ?_, ?_⟩
  · rw [hq]
    by_cases he : t.r = s.r
    · rw [he, h.cur_pid]
    · exact h.live_pid _ hlt (by simp [hcur he, PState.live])
  · rw [hq]
    by_cases he : t.r = s.r
    · rw [he]
      exact h.cur_state
    · simp [hcur he]
  · intro i hi hl
    rw [hq] at hl ⊢
    exact h.live_pid i hi hl
  · rw [hctl]
    by_cases h0 : s.r = 0
    · rw [hinit h0, h0]
      simp
    · rw [Function.update_of_ne (Ne.symm h0)]
      exact h.init_ctl
  · intro h0
    refine ⟨hmode, ?_⟩
    rw [hq]
    by_cases he : t.r = s.r
    · exact (h.init_kernel (he ▸ h0)).2
    · have hrun := hcur he
      rw [h0] at hrun
      simp [hrun, PState.live]
  · rw [hq]
    exact h.init_slot
  · rw [hq]
    exact h.no_self

theorem Base.ne_zero_of_mode {s : Sched} (h : Base s) (hmode : s.mode ≠ .kernel) :
    s.r ≠ 0 :=
  fun h0 => hmode (h.init_kernel h0).1

theorem Base.ne_zero_of_ctl {s : Sched} (h : Base s) (h1 : s.ctl s.r ≠ .inLoop)
    (h2 : s.ctl s.r ≠ .wait) : s.r ≠ 0 := by
  intro h0
  rw [h0] at h1 h2
  rcases h.init_ctl with hc | hc
  · exact h1 hc
  · exact h2 hc

theorem Base.fork {s : Sched} (h : Base s) (hr : s.r ≠ 0) : Base s.fork := by
  have hnew : newPID s.q ≠ some 0 := fun h0 => h.init_slot.1 (newPID_some h0).2
  refine ⟨h.cur_lt, ?_, ?_, ?_, ?_, fun h0 => absurd h0 hr, ?_, ?_⟩
  · simp only [Sched.fork, fork_pid]
    split_ifs
    · rfl
    · exact h.cur_pid
  · simp only [Sched.fork, fork_state]
    split_ifs
    · simp
    · exact h.cur_state
  · intro i hi hl
    simp only [Sched.fork, fork_pid, fork_state] at hl ⊢
    split_ifs at hl ⊢
    · rfl
    · exact h.live_pid i hi hl
  · simp only [Sched.fork]
    cases hn : newPID s.q with
    | none => exact h.init_ctl
    | some pid =>
        have hne : (0 : Nat) ≠ pid := by
          rintro rfl
          exact hnew hn
        simpa [Function.update_of_ne hne] using h.init_ctl
  · simpa [Sched.fork, fork_pid, fork_state, fork_ppid, hnew] using h.init_slot
  · intro i hi
    simp only [Sched.fork, fork_ppid]
    split_ifs with hn
    · -- the child's slot was free, the parent's was not
      rw [h.cur_pid]
      rintro rfl
      exact h.cur_state (newPID_some hn).2
    · exact h.no_self i hi

/-- `Base` is kept by every step, without any condition on what is killed. -/
theorem Base.step {s t : Sched} {e : Event} (h : Base s) (hstep : s.step e = some t) :
    Base t := by
  have hreadAt : ∀ {e}, (s.mode = .user ∧ e = Event.sys .readInput ∨
      s.mode = .kernel ∧ e = .resume ∧ s.ctl s.r = .readInput) → s.r ≠ 0 := by
    rintro e (⟨hm, -⟩ | ⟨-, -, hc⟩)
    · exact h.ne_zero_of_mode (by simp [hm])
    · exact h.ne_zero_of_ctl (by simp [hc]) (by simp [hc])
  cases step_trans hstep with
  | fork hm => exact h.fork (h.ne_zero_of_mode (by simp [hm]))
  | exit hm hy =>
      have hr := h.ne_zero_of_mode (by simp [hm])
      exact (h.die s.r _ hr).yield (fun h0 => absurd h0 hr) hy
  | kill pid hm => exact h.die pid pid (h.ne_zero_of_mode (by simp [hm]))
  | noSleep hm => exact h
  | sleep seconds hm hy =>
      have hr := h.ne_zero_of_mode (by simp [hm])
      exact (h.setCur s.tty (fun t => { t with time := seconds.toInt, state := .suspended })
        (fun _ => ⟨rfl, rfl, trivial⟩)).yield (fun h0 => absurd h0 hr) hy
  | readDone e tty hat =>
      exact (h.setState tty .running trivial).toUser (hreadAt hat)
  | readRetry e tty hat hy =>
      have ht : Base { s with tty := tty } := h.congr rfl rfl rfl rfl
      exact ht.yield (fun h0 => absurd h0 (hreadAt hat)) hy
  | readSleep e hat hy =>
      exact (h.setState s.tty .sleeping trivial).yield (fun h0 => absurd h0 (hreadAt hat)) hy
  | reapChild e pid hat hp hst =>
      have hr : s.r ≠ 0 := by
        rcases hat with ⟨hm, -⟩ | ⟨-, -, hc⟩
        · exact h.ne_zero_of_mode (by simp [hm])
        · exact h.ne_zero_of_ctl (by simp [hc]) (by simp [hc])
      exact (h.reap (h.child_ne hp hst)).toUser hr
  | waitChild pid hm _ hy =>
      have hr := h.ne_zero_of_mode (by simp [hm])
      exact (h.setState s.tty .wait trivial).yield (fun h0 => absurd h0 hr) hy
  | poll pid hm hc _ hy =>
      exact h.yield (fun h0 => absurd h0 (h.ne_zero_of_ctl (by simp [hc]) (by simp [hc]))) hy
  | tick hm _ => exact h.congr rfl rfl rfl rfl
  | preempt hm _ hy =>
      have ht : Base { s with count := s.count + 1 } := h.congr rfl rfl rfl rfl
      exact ht.yield (fun h0 => absurd h0 (h.ne_zero_of_mode hm)) hy
  | key code x tty enter hm =>
      have hready : ∀ i, (s.q i).state ≠ .ready →
          ((if enter then wakeProcess s.q else s.q) i).state ≠ .ready := by
        intro i hi
        split_ifs
        · rcases wakeProcess_state s.q i with heq | ⟨-, hs⟩
          · exact heq ▸ hi
          · simp [hs]
        · exact hi
      refine h.table ⟨rfl, rfl, rfl⟩ ?_ ?_ ?_ (hready _ h.cur_state) (hready _ h.init_slot.1)
        (fun h0 => absurd h0 (h.ne_zero_of_mode hm))
      · intro i
        dsimp only
        split_ifs <;> simp
      · intro i hl
        dsimp only at hl
        split_ifs at hl
        · rcases wakeProcess_state s.q i with heq | ⟨hs, -⟩
          · exact Or.inl (heq ▸ hl)
          · exact Or.inl (by simp [hs, PState.live])
        · exact Or.inl hl
      · intro i
        dsimp only
        split_ifs <;> simp
  | idleYield hm hy =>
      exact h.yield (fun h0 => absurd h0 (h.ne_zero_of_mode (by simp [hm]))) hy
  | back hm hc =>
      exact h.toUser (h.ne_zero_of_ctl (by rcases hc with h | h | h <;> simp [h])
        (by rcases hc with h | h | h <;> simp [h]))
  | timerTail back hm hc =>
      have hr := h.ne_zero_of_ctl (by simp [hc]) (by simp [hc])
      have ht : Base { s with q := sweep s.q } := by
        have hready : ∀ i, (s.q i).state ≠ .ready → (sweep s.q i).state ≠ .ready := by
          intro i hi
          rcases sweep_state s.q i with heq | ⟨-, hs⟩
          · exact heq ▸ hi
          · simp [hs]
        refine h.table ⟨rfl, rfl, rfl⟩ (fun i => sweep_pid _ _) ?_
          (fun i => Or.inl (sweep_ppid _ _)) (hready _ h.cur_state) (hready _ h.init_slot.1)
          (fun h0 => absurd h0 hr)
        intro i hl
        rcases sweep_state s.q i with heq | ⟨hs, -⟩
        · exact Or.inl (heq ▸ hl)
        · exact Or.inl (by simp [hs, PState.live])
      exact ⟨ht.cur_lt, ht.cur_pid, ht.cur_state, ht.live_pid, ht.init_ctl,
        fun h0 => absurd h0 hr, ht.init_slot, ht.no_self⟩
  | initReap i hm hc _ hp hst =>
      have ht := h.reap (h.child_ne hp hst)
      refine ⟨ht.cur_lt, ht.cur_pid, ht.cur_state, ht.live_pid, ?_, ht.init_kernel,
        ht.init_slot, ht.no_self⟩
      by_cases h0 : s.r = 0
      · simp [h0]
      · simpa [Function.update_of_ne (Ne.symm h0)] using h.init_ctl
  | initBlock hm hc _ hy =>
      exact (h.setState s.tty .wait trivial).yield (fun _ => rfl) hy
  | initLoop hm hc =>
      refine ⟨h.cur_lt, h.cur_pid, h.cur_state, h.live_pid, ?_, h.init_kernel,
        h.init_slot, h.no_self⟩
      by_cases h0 : s.r = 0
      · simp [h0]
      · simpa [Function.update_of_ne (Ne.symm h0)] using h.init_ctl
  | idle hm hc =>
      have hr := h.ne_zero_of_ctl (by simp [hc]) (by simp [hc])
      exact ⟨h.cur_lt, h.cur_pid, h.cur_state, h.live_pid, h.init_ctl,
        fun h0 => absurd h0 hr, h.init_slot, h.no_self⟩

theorem Base.boot : Base boot where
  cur_lt := by simp [Proc.boot, MAX]
  cur_pid := by simp [Proc.boot, bootTable]
  cur_state := by simp [Proc.boot, bootTable]
  live_pid := by
    intro i _ hl
    by_cases hi : i ≤ 2
    · simp [Proc.boot, bootTable, hi]
    · simp [Proc.boot, bootTable, hi, PState.live] at hl
  init_ctl := by simp [Proc.boot]
  init_kernel := by simp [Proc.boot]
  init_slot := by simp [Proc.boot, bootTable]
  no_self := fun i hi => by simpa [Proc.boot, bootTable] using Ne.symm hi

/-- Nobody but the idle loop can run: the shell waits for its first line, init for
a child. -/
structure Waiting (s : Sched) : Prop where
  mode : s.mode = .idle
  cur : s.r = 1
  ctl : s.ctl 1 = .idle
  pid : (s.q 1).pid = 1
  next : nextSlot s.q 1 = some 1
  shell : (s.q 2).state = .sleeping ∧ s.ctl 2 = .readInput
  count : s.count = 0
  i : s.tty.i = 0

/-- What the shell does first; interrupts come in the idle loop. -/
theorem reachable_idle (ok : Sched → Event → Prop) (hread : ∀ s, ok s (.sys .readInput))
    (hresume : ∀ s, ok s .resume) :
    ∃ s, Reachable Sched.step ok (· = boot) s ∧ Waiting s := by
  obtain ⟨s, hs, hp⟩ := reachable_of_exec Sched.step ok boot [.sys .readInput, .resume, .resume]
    (fun s => s.mode = .idle ∧ s.r = 1 ∧ s.ctl 1 = .idle ∧ (s.q 1).pid = 1 ∧
      nextSlot s.q 1 = some 1 ∧ ((s.q 2).state = .sleeping ∧ s.ctl 2 = .readInput) ∧
      s.count = 0 ∧ s.tty.i = 0)
    (by simp [hread, hresume]) (by decide +kernel)
  obtain ⟨hmode, hcur, hctl, hpid, hnext, hshell, hcount, hi⟩ := of_decide_eq_true hp
  exact ⟨s, hs, hmode, hcur, hctl, hpid, hnext, hshell, hcount, hi⟩

end X86Kernel.Proc
