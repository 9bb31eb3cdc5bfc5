import X86Kernel.Proc.Invariant

/-!
Waking up those who wait for a child. `waitpid` and `wait` block in state
`WAIT`; `exit` and `kill` wake the parent of the process that dies. For
`waitpid` no death is missed. For init one is: children that die before their
parent are handed to init as zombies without waking it.
-/

namespace X86Kernel.Proc

open Lib

/-- No slot is a new zombie or starts to wait, and zombies keep their parent. -/
def Settled (q q' : Table) : Prop :=
  ∀ j, ((q' j).state = .zombie → (q j).state = .zombie ∧ (q' j).ppid = (q j).ppid) ∧
    ((q' j).state = .wait → (q j).state = .wait)

theorem Settled.refl (q : Table) : Settled q q :=
  fun _ => ⟨fun hz => ⟨hz, rfl⟩, id⟩

theorem settled_setState (q : Table) (i : Nat) {st : PState} (hz : st ≠ .zombie)
    (hw : st ≠ .wait) : Settled q (q.setState i st) := by
  intro j
  rw [Table.setState_state, Table.setState_ppid]
  split_ifs with hj
  · exact ⟨fun h => absurd h hz, fun h => absurd h hw⟩
  · exact ⟨fun h => ⟨h, rfl⟩, id⟩

/-- The caller of `sleep` becomes `SUSPENDED`. -/
theorem settled_sleep (q : Table) (r : Nat) (time : Int) :
    Settled q (q.modify r fun t => { t with time := time, state := .suspended }) := by
  intro j
  by_cases hj : j = r
  · subst hj
    simp
  · rw [Table.modify_ne _ _ hj]
    exact Settled.refl q j

/-- The child of `fork` is `RUNNING`. -/
theorem settled_fork (q : Table) (r : Nat) : Settled q (fork q r) := by
  intro j
  rw [fork_state, fork_ppid]
  split_ifs with hj
  · exact ⟨by simp, by simp⟩
  · exact Settled.refl q j

theorem settled_wakeProcess (q : Table) : Settled q (wakeProcess q) := by
  intro j
  rcases wakeProcess_state q j with heq | ⟨-, hrun⟩
  · rw [heq, wakeProcess_ppid]
    exact Settled.refl q j
  · rw [hrun]
    exact ⟨by simp, by simp⟩

theorem settled_sweep (q : Table) : Settled q (sweep q) := by
  intro j
  rcases sweep_state q j with heq | ⟨-, hrun⟩
  · rw [heq, sweep_ppid]
    exact Settled.refl q j
  · rw [hrun]
    exact ⟨by simp, by simp⟩

/-- A control point outside of `waitpid` and `wait`. -/
def Ctl.Unblocked (point : Ctl) : Prop :=
  point ≠ .wait ∧ ∀ c, point ≠ .waitpid c

/-- A step that makes no zombie and puts nobody to wait: the table is settled, and
a control point that changes leaves `waitpid` and `wait`. -/
structure Quiet (s t : Sched) : Prop where
  table : Settled s.q t.q
  ctl (j : Nat) : t.ctl j = s.ctl j ∨ (t.ctl j).Unblocked

theorem update_unblocked {ctl : Nat → Ctl} {i : Nat} {point : Ctl}
    (h : point = ctl i ∨ point.Unblocked) (j : Nat) :
    Function.update ctl i point j = ctl j ∨ (Function.update ctl i point j).Unblocked := by
  by_cases hj : j = i
  · subst hj
    simpa using h
  · exact Or.inl (Function.update_of_ne hj _ _)

theorem Quiet.of_yield {s s' t : Sched} {point : Ctl} (h : Base s')
    (hq : Settled s.q s'.q) (hctl : s'.ctl = s.ctl)
    (hpoint : point = s.ctl s'.r ∨ point.Unblocked)
    (hy : s'.yield point = some t) : Quiet s t := by
  obtain ⟨htq, htctl, -⟩ := yield_spec h.cur_lt h.cur_pid hy
  refine ⟨htq ▸ hq, fun j => ?_⟩
  rw [htctl, hctl]
  exact update_unblocked hpoint j

theorem Quiet.toUser {s s' : Sched} (hq : Settled s.q s'.q) (hctl : s'.ctl = s.ctl) :
    Quiet s s'.toUser := by
  refine ⟨hq, fun j => ?_⟩
  simp only [Sched.toUser, hctl]
  exact update_unblocked (Or.inr (by simp [Ctl.Unblocked])) j

theorem Quiet.fork (s : Sched) : Quiet s s.fork := by
  refine ⟨settled_fork s.q s.r, fun j => ?_⟩
  simp only [Sched.fork]
  cases newPID s.q with
  | none => exact Or.inl rfl
  | some pid => exact update_unblocked (Or.inr (by simp [Ctl.Unblocked])) j

/-- `exit` lets the current process die, and yields. -/
theorem exit_dies {s t : Sched} (h : Base s) (hr : s.r ≠ 0)
    (hy : { s with q := Proc.exit s.q s.r }.yield .exit = some t) :
    t.q = die s.q s.r s.r ∧ ∀ j, t.ctl j = s.ctl j ∨ t.ctl j = .exit := by
  have hb : Base { s with q := Proc.exit s.q s.r } := h.die s.r _ hr
  obtain ⟨htq, htctl, -⟩ := yield_spec hb.cur_lt hb.cur_pid hy
  refine ⟨?_, fun j => ?_⟩
  · rw [htq]
    simp [Proc.exit, h.cur_pid]
  · rw [htctl]
    by_cases hj : j = s.r
    · exact Or.inr (by simp [hj])
    · exact Or.inl (Function.update_of_ne hj _ _)

/-- The current process blocks in state `WAIT`. -/
theorem wait_blocks {s t : Sched} {point : Ctl} (h : Base s)
    (hy : { s with q := s.q.setState s.r .wait }.yield point = some t) :
    t.q = s.q.setState s.r .wait ∧ t.ctl = Function.update s.ctl s.r point := by
  have hb := h.setState s.tty .wait trivial
  obtain ⟨htq, htctl, -⟩ := yield_spec hb.cur_lt hb.cur_pid hy
  exact ⟨htq, htctl⟩

/-- The steps that matter for waking: a death, a `waitpid` that blocks, init's
`wait` that blocks. All others are quiet. -/
theorem step_wakeup {s t : Sched} {e : Event} (h : Base s) (hstep : s.step e = some t) :
    Quiet s t ∨
    (∃ i, (e = .sys .exit ∧ i = s.r ∨ e = .sys (.kill i)) ∧ t.q = die s.q i i ∧
      ∀ j, t.ctl j = s.ctl j ∨ t.ctl j = .exit) ∨
    (∃ c, ¬ ((s.q c).ppid = s.r ∧ (s.q c).state = .zombie) ∧ s.r ≠ 0 ∧
      t.q = s.q.setState s.r .wait ∧ t.ctl = Function.update s.ctl s.r (.waitpid c)) ∨
    ((∀ i < MAX, (s.q i).ppid = s.r → (s.q i).state ≠ .zombie) ∧
      t.q = s.q.setState s.r .wait ∧ t.ctl = Function.update s.ctl s.r .wait) := by
  have hsame : Settled s.q s.q := Settled.refl s.q
  have hkept : ∀ j, s.ctl j = s.ctl j ∨ (s.ctl j).Unblocked := fun _ => Or.inl rfl
  cases step_trans hstep with
  | fork hm => exact Or.inl (Quiet.fork s)
  | exit hm hy =>
      exact Or.inr (Or.inl ⟨s.r, Or.inl ⟨rfl, rfl⟩,
        exit_dies h (h.ne_zero_of_mode (by simp [hm])) hy⟩)
  | kill pid hm =>
      exact Or.inr (Or.inl ⟨pid, Or.inr rfl, rfl, fun j => Or.inl rfl⟩)
  | noSleep hm => exact Or.inl ⟨hsame, hkept⟩
  | sleep seconds hm hy =>
      have hb := h.setCur s.tty (fun t => { t with time := seconds.toInt, state := .suspended })
        (fun _ => ⟨rfl, rfl, trivial⟩)
      exact Or.inl (Quiet.of_yield hb (settled_sleep s.q s.r seconds.toInt) rfl
        (Or.inr (by simp [Ctl.Unblocked])) hy)
  | readDone e tty hat =>
      exact Or.inl (Quiet.toUser (settled_setState s.q s.r (by simp) (by simp)) rfl)
  | readRetry e tty hat hy =>
      have hb : Base { s with tty := tty } := h.congr rfl rfl rfl rfl
      exact Or.inl (Quiet.of_yield hb hsame rfl (Or.inr (by simp [Ctl.Unblocked])) hy)
  | readSleep e hat hy =>
      exact Or.inl (Quiet.of_yield (h.setState s.tty .sleeping trivial)
        (settled_setState s.q s.r (by simp) (by simp)) rfl
        (Or.inr (by simp [Ctl.Unblocked])) hy)
  | reapChild e pid hat hp hst =>
      exact Or.inl (Quiet.toUser (settled_setState s.q pid (by simp) (by simp)) rfl)
  | waitChild pid hm hno hy =>
      rw [h.cur_pid] at hno
      exact Or.inr (Or.inr (Or.inl
        ⟨pid, hno, h.ne_zero_of_mode (by simp [hm]), wait_blocks h hy⟩))
  | poll pid hm hc _ hy =>
      exact Or.inl (Quiet.of_yield h hsame rfl (Or.inl hc.symm) hy)
  | tick hm _ => exact Or.inl ⟨hsame, hkept⟩
  | preempt hm _ hy =>
      have hb : Base { s with count := s.count + 1 } := h.congr rfl rfl rfl rfl
      exact Or.inl (Quiet.of_yield hb hsame rfl (Or.inr (by simp [Ctl.Unblocked])) hy)
  | key code x tty enter hm =>
      refine Or.inl ⟨?_, hkept⟩
      cases enter with
      | true => exact settled_wakeProcess s.q
      | false => exact hsame
  | idleYield hm hy =>
      exact Or.inl (Quiet.of_yield h hsame rfl (Or.inr (by simp [Ctl.Unblocked])) hy)
  | back hm hc => exact Or.inl (Quiet.toUser hsame rfl)
  | timerTail back hm hc => exact Or.inl ⟨settled_sweep s.q, hkept⟩
  | initReap i hm hc _ hp hst =>
      exact Or.inl ⟨settled_setState s.q i (by simp) (by simp),
        update_unblocked (Or.inr (by simp [Ctl.Unblocked]))⟩
  | initBlock hm hc hno hy =>
      rw [h.cur_pid] at hno
      exact Or.inr (Or.inr (Or.inr ⟨hno, wait_blocks h hy⟩))
  | initLoop hm hc =>
      exact Or.inl ⟨hsame, update_unblocked (Or.inr (by simp [Ctl.Unblocked]))⟩
  | idle hm hc => exact Or.inl ⟨hsame, hkept⟩

/-- Process `p` is blocked in `waitpid(c)` and `c` is its child. -/
def Awaits (s : Sched) (p c : Nat) : Prop :=
  (s.q p).state = .wait ∧ s.ctl p = .waitpid c ∧ (s.q c).ppid = p

/-- No awaited child is a zombie. -/
def NoLostWakeup (s : Sched) : Prop :=
  ∀ p c, Awaits s p c → (s.q c).state ≠ .zombie

/-- Whoever is waiting after a death was waiting before it and is not the
parent of the dead. -/
theorem wait_of_die {q : Table} {i pid p : Nat} (h : (die q i pid p).state = .wait) :
    (q p).state = .wait ∧ p ≠ (die q i pid i).ppid ∧ p ≠ i := by
  rw [die_state] at h
  split_ifs at h with h1 h2
  exact ⟨h, fun hp => h2 ⟨hp, h⟩, h1⟩

theorem zombie_of_die {q : Table} {i pid c : Nat} (h : (die q i pid c).state = .zombie) :
    c = i ∨ (q c).state = .zombie := by
  rw [die_state] at h
  split_ifs at h with h1 h2
  · exact Or.inl h1
  · exact Or.inr h

theorem NoLostWakeup.step {s t : Sched} {e : Event} (hb : Base s) (h : NoLostWakeup s)
    (hstep : s.step e = some t) : NoLostWakeup t := by
  rintro p c ⟨hwait, hctl, hpp⟩ hz
  rcases step_wakeup hb hstep with hquiet | ⟨i, -, htq, htctl⟩ | ⟨c', hno, hr, htq, htctl⟩ |
    ⟨-, htq, htctl⟩
  · obtain ⟨hzc, hpc⟩ := (hquiet.table c).1 hz
    rcases hquiet.ctl p with heq | ⟨-, hne⟩
    · exact h p c ⟨(hquiet.table p).2 hwait, heq ▸ hctl, hpc ▸ hpp⟩ hzc
    · exact hne c hctl
  · rw [htq] at hwait hpp hz
    obtain ⟨hw, hnp, -⟩ := wait_of_die hwait
    have hctl' : s.ctl p = .waitpid c := by
      rcases htctl p with heq | heq
      · exact heq ▸ hctl
      · simp [heq] at hctl
    rcases zombie_of_die hz with rfl | hzc
    · exact hnp hpp.symm
    · rw [die_ppid] at hpp
      split_ifs at hpp with hchild
      · -- the children of the dead go to init, which is never in `waitpid`
        rw [← hpp] at hctl'
        rcases hb.init_ctl with h0 | h0 <;> simp [h0] at hctl'
      · exact h p c ⟨hw, hctl', hpp⟩ hzc
  · rw [htq, Table.setState_state] at hz
    rw [htq, Table.setState_ppid] at hpp
    rw [htq, Table.setState_state] at hwait
    rw [htctl] at hctl
    split_ifs at hz with hc
    by_cases hp : p = s.r
    · subst hp
      obtain rfl : c' = c := by simpa using hctl
      exact hno ⟨hpp, hz⟩
    · rw [Function.update_of_ne hp] at hctl
      exact h p c ⟨by simpa [hp] using hwait, hctl, hpp⟩ hz
  · rw [htq, Table.setState_state] at hz
    rw [htq, Table.setState_ppid] at hpp
    rw [htq, Table.setState_state] at hwait
    rw [htctl] at hctl
    split_ifs at hz with hc
    by_cases hp : p = s.r
    · subst hp
      simp at hctl
    · rw [Function.update_of_ne hp] at hctl
      exact h p c ⟨by simpa [hp] using hwait, hctl, hpp⟩ hz

/-- The death of an awaited child runs its parent. -/
theorem die_wakes {q : Table} {i p : Nat} (hp : (q i).ppid = p) (hself : p ≠ i)
    (hwait : (q p).state = .wait) : (die q i i p).state = .running := by
  have hpp : (die q i i i).ppid = p := by
    rw [die_ppid, if_neg]
    · exact hp
    · rintro ⟨-, h⟩
      exact hself (hp.symm.trans h)
  rw [die_state, hpp]
  simp [hself, hwait]

/-- In every reachable state no awaited child is a zombie, and the exit or
kill of an awaited child sets the waiting parent running. -/
theorem waitpid_never_misses_child (s : Sched)
    (h : Reachable Sched.step (fun _ _ => True) (· = boot) s) :
    (∀ p c, Awaits s p c → (s.q c).state ≠ .zombie) ∧
    ∀ p c t, Awaits s p c →
      (s.r = c ∧ s.step (.sys .exit) = some t ∨ s.step (.sys (.kill c)) = some t) →
      (t.q p).state = .running := by
  have hinv : Base s ∧ NoLostWakeup s := by
    refine h.invariant (P := fun s => Base s ∧ NoLostWakeup s) ?_ ?_
    · rintro s rfl
      refine ⟨Base.boot, ?_⟩
      rintro p c ⟨-, -, -⟩ hz
      by_cases hc : c ≤ 2 <;> simp [boot, bootTable, hc] at hz
    · rintro a e b ⟨hb, hn⟩ - hstep
      exact ⟨hb.step hstep, hn.step hb hstep⟩
  obtain ⟨hb, hn⟩ := hinv
  refine ⟨hn, ?_⟩
  rintro p c t ⟨hwait, hctl, hpp⟩ hdeath
  have hp0 : p ≠ 0 := by
    rintro rfl
    rcases hb.init_ctl with h0 | h0 <;> simp [h0] at hctl
  have hpc : p ≠ c := by
    rintro rfl
    exact hb.no_self p hp0 hpp
  have htq : t.q = die s.q c c := by
    rcases hdeath with ⟨rfl, hstep⟩ | hstep
    · cases step_trans hstep with
      | exit hm hy =>
          have hbd : Base { s with q := Proc.exit s.q s.r } :=
            hb.die s.r _ (hb.ne_zero_of_mode (by simp [hm]))
          rw [(yield_spec hbd.cur_lt hbd.cur_pid hy).1]
          simp [Proc.exit, hb.cur_pid]
      | readDone _ _ hat | readRetry _ _ hat | readSleep _ hat | reapChild _ _ hat =>
          simp at hat
    · cases step_trans hstep with
      | kill pid hm => rfl
      | readDone _ _ hat | readRetry _ _ hat | readSleep _ hat | reapChild _ _ hat =>
          simp at hat
  rw [htq]
  exact die_wakes hpp hpc hwait

/-- The shell forks slot 3 and waits for it. -/
theorem waitpid_never_misses_child_shell :
    ∃ s, Reachable Sched.step (fun _ _ => True) (· = boot) s ∧ Awaits s 2 3 ∧
      (s.q 3).state ≠ .zombie := by
  obtain ⟨s, hs, hp⟩ := reachable_of_exec Sched.step (fun _ _ => True) boot
    [.sys .fork, .sys (.waitpid 3)]
    (fun s => (s.q 2).state = .wait ∧ s.ctl 2 = .waitpid 3 ∧ (s.q 3).ppid = 2)
    (fun _ _ _ => trivial) (by decide +kernel)
  have hawaits : Awaits s 2 3 := by simpa [Awaits] using hp
  exact ⟨s, hs, hawaits, (waitpid_never_misses_child s hs).1 2 3 hawaits⟩

/-- Init is blocked in `wait` only while it has no zombie child. -/
def InitAwake (s : Sched) : Prop :=
  (s.q 0).state = .wait → s.ctl 0 = .wait →
    ∀ i < MAX, (s.q i).ppid = 0 → (s.q i).state ≠ .zombie

/-- The process that dies in this step, if one does, is a child of init or has
no zombie child itself. -/
def NoOrphanZombie (s : Sched) : Event → Prop
  | .sys .exit => (s.q s.r).ppid = 0 ∨
      ∀ i < MAX, (s.q i).ppid = (s.q s.r).pid → (s.q i).state ≠ .zombie
  | .sys (.kill pid) => (s.q pid).ppid = 0 ∨
      ∀ i < MAX, (s.q i).ppid = pid → (s.q i).state ≠ .zombie
  | _ => True

theorem InitAwake.die {s : Sched} (h : InitAwake s) {i : Nat}
    (hok : (s.q i).ppid = 0 ∨ ∀ j < MAX, (s.q j).ppid = i → (s.q j).state ≠ .zombie)
    {t : Sched} (htq : t.q = die s.q i i)
    (hctl : t.ctl 0 = .wait → s.ctl 0 = .wait) : InitAwake t := by
  intro hwait hc j hj hpp hz
  rw [htq] at hwait hpp hz
  obtain ⟨hw, hnp, -⟩ := wait_of_die hwait
  have hdead : (Proc.die s.q i i i).ppid ≠ 0 := Ne.symm hnp
  rcases zombie_of_die hz with rfl | hzj
  · exact hdead hpp
  rw [die_ppid] at hpp
  split_ifs at hpp with hchild
  · rcases hok with h0 | hno
    · -- init is the parent of the dead, so it was woken
      rw [die_ppid] at hdead
      split_ifs at hdead
      · exact hdead rfl
      · exact hdead h0
    · exact hno j hj hchild.2 hzj
  · exact h hw (hctl hc) j hj hpp hzj

theorem InitAwake.step {s t : Sched} {e : Event} (hb : Base s) (h : InitAwake s)
    (hok : NoOrphanZombie s e) (hstep : s.step e = some t) : InitAwake t := by
  rcases step_wakeup hb hstep with hquiet | ⟨i, he, htq, htctl⟩ | ⟨c, -, hr, htq, htctl⟩ |
    ⟨hno, htq, htctl⟩
  · intro hwait hc j hj hpp hz
    obtain ⟨hzj, hpj⟩ := (hquiet.table j).1 hz
    rcases hquiet.ctl 0 with heq | ⟨hne, -⟩
    · exact h ((hquiet.table 0).2 hwait) (heq ▸ hc) j hj (hpj ▸ hpp) hzj
    · exact hne hc
  · refine h.die ?_ htq ?_
    · rcases he with ⟨rfl, rfl⟩ | rfl
      · simpa [NoOrphanZombie, hb.cur_pid] using hok
      · simpa [NoOrphanZombie] using hok
    · intro hc
      rcases htctl 0 with heq | heq
      · exact heq ▸ hc
      · simp [heq] at hc
  · intro hwait hc j hj hpp hz
    rw [htctl, Function.update_of_ne (Ne.symm hr)] at hc
    rw [htq, Table.setState_state] at hwait hz
    rw [htq, Table.setState_ppid] at hpp
    split_ifs at hz
    exact h (by simpa [Ne.symm hr] using hwait) hc j hj hpp hz
  · intro hwait hc j hj hpp hz
    rw [htq, Table.setState_state] at hwait hz
    rw [htq, Table.setState_ppid] at hpp
    split_ifs at hz with hjr
    by_cases hr : s.r = 0
    · exact hno j hj (hr ▸ hpp) hz
    · rw [htctl, Function.update_of_ne (Ne.symm hr)] at hc
      exact h (by simpa [Ne.symm hr] using hwait) hc j hj hpp hz

/-- In every run in which no process other than a child of init dies with
zombie children, init never sleeps on a zombie child. -/
theorem init_never_sleeps_on_zombie (s : Sched)
    (h : Reachable Sched.step NoOrphanZombie (· = boot) s)
    (hwait : (s.q 0).state = .wait) (hctl : s.ctl 0 = .wait) (i : Nat) (hi : i < MAX)
    (hp : (s.q i).ppid = 0) : (s.q i).state ≠ .zombie := by
  have hinv : Base s ∧ InitAwake s := by
    refine h.invariant (P := fun s => Base s ∧ InitAwake s) ?_ ?_
    · rintro s rfl
      exact ⟨Base.boot, fun hw => by simp [boot, bootTable] at hw⟩
    · rintro a e b ⟨hb, ha⟩ hok hstep
      exact ⟨hb.step hstep, ha.step hb hok hstep⟩
  exact hinv.2 hwait hctl i hi hp

/-- The shell blocks in `read_input`, init runs and blocks in `wait`. -/
theorem init_never_sleeps_on_zombie_idle :
    ∃ s, Reachable Sched.step NoOrphanZombie (· = boot) s ∧ (s.q 0).state = .wait ∧
      s.ctl 0 = .wait ∧ (s.q 2).ppid = 0 ∧ (s.q 2).state ≠ .zombie := by
  obtain ⟨s, hs, hp⟩ := reachable_of_exec Sched.step NoOrphanZombie boot
    [.sys .readInput, .resume]
    (fun s => (s.q 0).state = .wait ∧ s.ctl 0 = .wait ∧ (s.q 2).ppid = 0)
    (by simp [NoOrphanZombie]) (by decide +kernel)
  obtain ⟨hw, hc, hpp⟩ : (s.q 0).state = .wait ∧ s.ctl 0 = .wait ∧ (s.q 2).ppid = 0 := by
    simpa using hp
  exact ⟨s, hs, hw, hc, hpp,
    init_never_sleeps_on_zombie s hs hw hc 2 (by decide) hpp⟩

/-- Slot 3, a child of the shell, kills its own child 4, and dies while init
sleeps: slot 4 becomes a zombie child of init and init is not woken. -/
theorem init_sleeps_on_orphan_zombie :
    ¬ ∀ s, Reachable Sched.step (fun _ _ => True) (· = boot) s → InitAwake s := by
  intro hclaim
  obtain ⟨s, hs, hp⟩ := reachable_of_exec Sched.step (fun _ _ => True) boot
    [.sys .fork, .sys (.waitpid 3), .resume, .sys .fork, .sys (.kill 4),
      .sys .readInput, .resume, .resume, .key 28 0, .idleYield, .resume, .sys .exit]
    (fun s => (s.q 0).state = .wait ∧ s.ctl 0 = .wait ∧ (s.q 4).ppid = 0 ∧
      (s.q 4).state = .zombie)
    (fun _ _ _ => trivial) (by decide +kernel)
  obtain ⟨hw, hc, hpp, hz⟩ : (s.q 0).state = .wait ∧ s.ctl 0 = .wait ∧
      (s.q 4).ppid = 0 ∧ (s.q 4).state = .zombie := by simpa using hp
  exact hclaim s hs hw hc 4 (by decide) hpp hz

end X86Kernel.Proc
