import X86Kernel.Proc.Lines
import X86Kernel.Proc.Running

/-!
Readers and pending lines. `wake_process` wakes one sleeper for every newline,
while other readers may take the line first; as long as somebody sleeps there
are at least as many woken readers as lines.
-/

namespace X86Kernel.Proc

open Lib

/-- The runnable processes that are suspended inside `read_input`. -/
def Sched.waitingReaders (s : Sched) : Finset Nat :=
  (Finset.range MAX).filter fun i => (s.q i).state = .running ∧ s.ctl i = .readInput

theorem mem_waitingReaders {s : Sched} {i : Nat} : i ∈ s.waitingReaders ↔
    i < MAX ∧ (s.q i).state = .running ∧ s.ctl i = .readInput := by
  simp [Sched.waitingReaders]

def Sched.Sleeps (s : Sched) : Prop := ∃ i < MAX, (s.q i).state = .sleeping

/-- Nobody is killed. -/
def NoKill (_ : Sched) : Event → Prop
  | .sys (.kill _) => False
  | _ => True

theorem NoKill.spares {s : Sched} {e : Event} (h : NoKill s e) : SparesCallerAndIdle s e := by
  unfold NoKill at h
  unfold SparesCallerAndIdle
  split
  · exact h.elim
  · trivial

/-- Sleepers are inside `read_input`, a process outside the kernel is not, and
while somebody sleeps there is a woken reader for every line. -/
structure Attended (s : Sched) : Prop extends OnlyRunning s where
  sleeper : ∀ i < MAX, (s.q i).state = .sleeping → s.ctl i = .readInput
  outside : s.mode ≠ .kernel → s.ctl s.r ≠ .readInput
  enough : s.Sleeps → s.tty.noLines ≤ s.waitingReaders.card

/-- No process falls asleep, and no woken reader but the current process
changes. -/
structure Undisturbed (s t : Sched) : Prop where
  sleeping : ∀ i, (t.q i).state = .sleeping → (s.q i).state = .sleeping ∧ t.ctl i = s.ctl i
  waiting : ∀ i, i ≠ s.r → (s.q i).state = .running → s.ctl i = .readInput →
    (t.q i).state = .running ∧ t.ctl i = .readInput

theorem Undisturbed.sleeps {s t : Sched} (h : Undisturbed s t) (ht : t.Sleeps) : s.Sleeps := by
  obtain ⟨i, hi, hst⟩ := ht
  exact ⟨i, hi, (h.sleeping i hst).1⟩

theorem Undisturbed.sleeper {s t : Sched} (h : Undisturbed s t) (hs : Attended s) (i : Nat)
    (hi : i < MAX) (hst : (t.q i).state = .sleeping) : t.ctl i = .readInput := by
  obtain ⟨hold, hctl⟩ := h.sleeping i hst
  rw [hctl]
  exact hs.sleeper i hi hold

/-- The woken readers other than the current process stay. -/
theorem Undisturbed.erase_subset {s t : Sched} (h : Undisturbed s t) :
    s.waitingReaders.erase s.r ⊆ t.waitingReaders := by
  intro i hi
  obtain ⟨hne, hi⟩ := Finset.mem_erase.mp hi
  obtain ⟨hlt, hrun, hctl⟩ := mem_waitingReaders.mp hi
  exact mem_waitingReaders.mpr ⟨hlt, h.waiting i hne hrun hctl⟩

/-- A change of states and control points that disturbs nobody: sleepers and
woken readers keep theirs, but for the current process. -/
theorem Undisturbed.of_states {s t : Sched} (hcur : (s.q s.r).state = .running)
    (hstate : ∀ i, (t.q i).state = (s.q i).state ∨
      ((t.q i).state ≠ .sleeping ∧ ((s.q i).state ≠ .running ∨ i = s.r)))
    (hctl : ∀ i, i ≠ s.r → t.ctl i = s.ctl i ∨ (s.q i).state = .ready) : Undisturbed s t := by
  refine ⟨?_, ?_⟩
  · intro i hst
    obtain heq | ⟨hcon, -⟩ := hstate i
    · rw [heq] at hst
      have hne : i ≠ s.r := by
        rintro rfl
        simp [hcur] at hst
      obtain hsame | hready := hctl i hne
      · exact ⟨hst, hsame⟩
      · simp [hready] at hst
    · exact absurd hst hcon
  · intro i hne hrun hread
    obtain heq | ⟨-, hcon | hcon⟩ := hstate i
    · obtain hsame | hready := hctl i hne
      · exact ⟨heq.trans hrun, hsame.trans hread⟩
      · simp [hready] at hrun
    · exact absurd hrun hcon
    · exact absurd hcon hne

/-- The same before a `yield`. -/
theorem Undisturbed.of_yield {s s' t : Sched} {point : Ctl} (hcur : (s.q s.r).state = .running)
    (hbase : Base s') (hr : s'.r = s.r) (hctl : s'.ctl = s.ctl)
    (hstate : ∀ i, (s'.q i).state = (s.q i).state ∨
      ((s'.q i).state ≠ .sleeping ∧ ((s.q i).state ≠ .running ∨ i = s.r)))
    (hy : s'.yield point = some t) : Undisturbed s t := by
  obtain ⟨htq, htctl, -⟩ := yield_spec hbase.cur_lt hbase.cur_pid hy
  refine .of_states hcur (by rw [htq]; exact hstate) ?_
  intro i hne
  rw [htctl, hctl, hr, Function.update_of_ne hne]
  exact Or.inl rfl

/-- A step of a process that is not inside `read_input` and leaves the lines
alone. -/
theorem Attended.quiet {s t : Sched} (h : Attended s) (hrun : OnlyRunning t)
    (hu : Undisturbed s t) (hctl : s.ctl s.r ≠ .readInput)
    (hlines : t.tty.noLines = s.tty.noLines)
    (hout : t.mode ≠ .kernel → t.ctl t.r ≠ .readInput) : Attended t := by
  refine ⟨hrun, hu.sleeper h, hout, ?_⟩
  intro hsleeps
  have hnot : s.r ∉ s.waitingReaders := fun hin => hctl (mem_waitingReaders.mp hin).2.2
  have hsub := hu.erase_subset
  rw [Finset.erase_eq_of_notMem hnot] at hsub
  have hcard := Finset.card_le_card hsub
  have henough := h.enough (hu.sleeps hsleeps)
  rw [hlines]
  omega

theorem setState_cur {q : Table} {r : Nat} {st : PState} (hst : st ≠ .sleeping) (i : Nat) :
    (q.setState r st i).state = (q i).state ∨
      ((q.setState r st i).state ≠ .sleeping ∧ ((q i).state ≠ .running ∨ i = r)) := by
  rw [Table.setState_state]
  split_ifs with hi
  · exact Or.inr ⟨hst, Or.inr hi⟩
  · exact Or.inl rfl

theorem setState_zombie {q : Table} {r pid : Nat} (hst : (q pid).state = .zombie) (i : Nat) :
    (q.setState pid .ready i).state = (q i).state ∨
      ((q.setState pid .ready i).state ≠ .sleeping ∧ ((q i).state ≠ .running ∨ i = r)) := by
  rw [Table.setState_state]
  split_ifs with hi
  · exact Or.inr ⟨by decide, Or.inl (by simp [hi, hst])⟩
  · exact Or.inl rfl

/-- What the steps outside of `read_input` do to sleepers and readers. -/
theorem Undisturbed.step {s t : Sched} {e : Event} (h : OnlyRunning s) (hok : NoKill s e)
    (hread : s.reads e = false) (hkey : ∀ c x, e ≠ .key c x) (hstep : Trans s e t) :
    Undisturbed s t := by
  have hcur := h.cur_running
  cases hstep with
  | fork hm =>
      refine .of_states hcur ?_ ?_
      · intro i
        simp only [Sched.fork, fork_state]
        split_ifs with hn
        · exact Or.inr ⟨by decide, Or.inl (by simp [(newPID_some hn).2])⟩
        · exact Or.inl rfl
      · intro i _
        simp only [Sched.fork]
        cases hn : newPID s.q with
        | none => exact Or.inl rfl
        | some pid =>
            by_cases hi : i = pid
            · exact Or.inr (hi ▸ (newPID_some hn).2)
            · exact Or.inl (Function.update_of_ne hi _ _)
  | exit hm hy =>
      refine .of_yield hcur (h.die s.r _ (h.ne_zero_of_mode (by simp [hm]))) rfl rfl ?_ hy
      intro i
      rw [die_state]
      split_ifs with hi hw
      · exact Or.inr ⟨by decide, Or.inr hi⟩
      · exact Or.inr ⟨by decide, Or.inl (by simp [hw.2])⟩
      · exact Or.inl rfl
  | kill pid => exact hok.elim
  | noSleep => exact .of_states hcur (fun _ => Or.inl rfl) (fun _ _ => Or.inl rfl)
  | sleep seconds hm hy =>
      refine .of_yield hcur (h.setCur s.tty (fun t =>
        { t with time := seconds.toInt, state := .suspended }) (fun _ => ⟨rfl, rfl, trivial⟩))
        rfl rfl ?_ hy
      intro i
      by_cases hi : i = s.r
      · exact Or.inr ⟨by simp [hi], Or.inr hi⟩
      · exact Or.inl (by simp [Table.modify_ne _ _ hi])
  | readDone _ _ hat => simp [reads_of_at hat] at hread
  | readRetry _ _ hat => simp [reads_of_at hat] at hread
  | readSleep _ hat => simp [reads_of_at hat] at hread
  | reapChild _ pid _ _ hst =>
      refine .of_states hcur (setState_zombie hst) ?_
      intro i hi
      exact Or.inl (Function.update_of_ne hi _ _)
  | waitChild pid _ _ hy =>
      exact .of_yield hcur (h.setState s.tty .wait trivial) rfl rfl (setState_cur (by decide)) hy
  | poll pid _ _ _ hy => exact .of_yield hcur h.toBase rfl rfl (fun _ => Or.inl rfl) hy
  | tick => exact .of_states hcur (fun _ => Or.inl rfl) (fun _ _ => Or.inl rfl)
  | preempt _ _ hy =>
      have ht : Base { s with count := s.count + 1 } := h.congr rfl rfl rfl rfl
      exact .of_yield hcur ht rfl rfl (fun _ => Or.inl rfl) hy
  | key code x => exact absurd rfl (hkey code x)
  | idleYield _ hy => exact .of_yield hcur h.toBase rfl rfl (fun _ => Or.inl rfl) hy
  | back =>
      exact .of_states hcur (fun _ => Or.inl rfl)
        (fun i hi => Or.inl (Function.update_of_ne hi _ _))
  | timerTail back =>
      refine .of_states hcur ?_ (fun _ _ => Or.inl rfl)
      intro i
      obtain heq | ⟨hs, hr⟩ := sweep_state s.q i
      · exact Or.inl heq
      · exact Or.inr ⟨by rw [show (s.timerTail back).q = sweep s.q from rfl, hr]; decide,
          Or.inl (by simp [hs])⟩
  | initReap i _ _ _ _ hst =>
      exact .of_states hcur (setState_zombie hst)
        (fun j hj => Or.inl (Function.update_of_ne hj _ _))
  | initBlock _ _ _ hy =>
      exact .of_yield hcur (h.setState s.tty .wait trivial) rfl rfl (setState_cur (by decide)) hy
  | initLoop =>
      exact .of_states hcur (fun _ => Or.inl rfl)
        (fun i hi => Or.inl (Function.update_of_ne hi _ _))
  | idle => exact .of_states hcur (fun _ => Or.inl rfl) (fun _ _ => Or.inl rfl)

/-- Outside of `read_input`, a process that leaves the kernel is not at its
`yield`. -/
theorem outside_step {s t : Sched} {e : Event} (h : Attended s) (hok : NoKill s e)
    (hread : s.reads e = false) (hkey : ∀ c x, e ≠ .key c x) (hstep : Trans s e t)
    (hmode : t.mode ≠ .kernel) : t.ctl t.r ≠ .readInput := by
  have hyield : ∀ {s' : Sched} {point : Ctl}, s'.yield point = some t → t.mode = .kernel := by
    intro s' point hy
    obtain ⟨i, -, rfl⟩ := Option.map_eq_some_iff.mp hy
    rfl
  cases hstep with
  | fork hm =>
      have hout := h.outside (by simp [hm])
      simp only [Sched.fork]
      cases hn : newPID s.q with
      | none => exact hout
      | some pid =>
          have hne : s.r ≠ pid := by
            rintro rfl
            have hready := (newPID_some hn).2
            simp [h.cur_running] at hready
          simpa [Function.update_of_ne hne] using hout
  | kill pid => exact hok.elim
  | readDone _ _ hat => simp [reads_of_at hat] at hread
  | readRetry _ _ hat => simp [reads_of_at hat] at hread
  | readSleep _ hat => simp [reads_of_at hat] at hread
  | exit _ hy | sleep _ _ hy | waitChild _ _ _ hy | poll _ _ _ _ hy | preempt _ _ hy
  | idleYield _ hy | initBlock _ _ _ hy => exact absurd (hyield hy) hmode
  | noSleep hm => exact h.outside hmode
  | reapChild => simp [Sched.toUser]
  | tick hm => exact h.outside hmode
  | key code x => exact absurd rfl (hkey code x)
  | back => simp [Sched.toUser]
  | timerTail back hm hc => simp [Sched.timerTail, hc]
  | initReap _ hm | initLoop hm => exact absurd hm hmode
  | idle hm hc => simp [hc]

/-- An iteration of `read_input` returns with a line, tries again, or goes to
sleep because there is none. -/
theorem readInput_cases {s t : Sched} (h : s.readInput = some t) :
    (∃ tty : Tty, tty.noLines = s.tty.noLines - 1 ∧
      t = Sched.toUser { s with tty := tty, q := s.q.setState s.r .running }) ∨
    (∃ tty : Tty, tty.noLines = s.tty.noLines ∧
      Sched.yield { s with tty := tty } .readInput = some t) ∨
    (s.tty.noLines ≤ 0 ∧
      Sched.yield { s with q := s.q.setState s.r .sleeping } .readInput = some t) := by
  unfold Sched.readInput at h
  split_ifs at h with hlines
  · rcases hread : readLine s.tty with ⟨tty, line, found⟩
    simp only [hread] at h
    have hloop := readLoop_cases (4096 - s.tty.offset).toNat s.tty s.tty.offset
    rw [show readLoop (4096 - s.tty.offset).toNat s.tty s.tty.offset [] = (tty, line, found)
      from hread] at hloop
    obtain ⟨k, -, -, hfound, htty⟩ | ⟨hfound, htty⟩ := hloop
    · obtain rfl : found = true := hfound
      refine Or.inl ⟨tty, ?_, (by simpa using h.symm)⟩
      rw [show tty = _ from htty]
    · obtain rfl : found = false := hfound
      refine Or.inr (Or.inl ⟨tty, ?_, by simpa using h⟩)
      rw [show tty = _ from htty]
  · exact Or.inr (Or.inr ⟨by omega, h⟩)

/-- A reader with a line leaves, and one line is gone. -/
theorem Attended.readDone {s : Sched} (h : Attended s) {tty : Tty}
    (hlines : tty.noLines = s.tty.noLines - 1)
    (hrun : OnlyRunning (Sched.toUser { s with tty := tty, q := s.q.setState s.r .running })) :
    Attended (Sched.toUser { s with tty := tty, q := s.q.setState s.r .running }) := by
  have hu : Undisturbed s (Sched.toUser { s with tty := tty, q := s.q.setState s.r .running }) := by
    refine .of_states h.cur_running (setState_cur (by decide)) ?_
    intro i hi
    exact Or.inl (Function.update_of_ne hi _ _)
  refine ⟨hrun, hu.sleeper h, fun _ => by simp [Sched.toUser], ?_⟩
  intro hsleeps
  have henough := h.enough (hu.sleeps hsleeps)
  have hcard := Finset.card_le_card hu.erase_subset
  have herase := Finset.pred_card_le_card_erase (s := s.waitingReaders) (a := s.r)
  have hafter : (Sched.toUser { s with tty := tty, q := s.q.setState s.r .running }).tty.noLines =
      s.tty.noLines - 1 := hlines
  rw [hafter]
  omega

/-- A reader that found no newline stays a woken reader. -/
theorem Attended.readRetry {s t : Sched} (h : Attended s) {tty : Tty}
    (hlines : tty.noLines = s.tty.noLines)
    (hy : Sched.yield { s with tty := tty } .readInput = some t) (hrun : OnlyRunning t) :
    Attended t := by
  have hbase : Base { s with tty := tty } := h.congr rfl rfl rfl rfl
  obtain ⟨htq, htctl, htmode, -, -, htty, -⟩ := yield_spec hbase.cur_lt hbase.cur_pid hy
  have hu : Undisturbed s t := .of_yield h.cur_running hbase rfl rfl (fun _ => Or.inl rfl) hy
  refine ⟨hrun, hu.sleeper h, fun hcon => absurd htmode hcon, ?_⟩
  intro hsleeps
  have henough := h.enough (hu.sleeps hsleeps)
  have hsub : s.waitingReaders ⊆ t.waitingReaders := by
    intro i hi
    obtain ⟨hlt, hst, hctl⟩ := mem_waitingReaders.mp hi
    refine mem_waitingReaders.mpr ⟨hlt, by rw [htq]; exact hst, ?_⟩
    rw [htctl]
    by_cases hir : i = s.r
    · simp [hir]
    · rw [Function.update_of_ne hir]
      exact hctl
  have hcard := Finset.card_le_card hsub
  rw [htty]
  simp only [hlines]
  omega

/-- A reader goes to sleep only when there is no line. -/
theorem Attended.readSleep {s t : Sched} (h : Attended s) (hnone : s.tty.noLines ≤ 0)
    (hy : Sched.yield { s with q := s.q.setState s.r .sleeping } .readInput = some t)
    (hrun : OnlyRunning t) : Attended t := by
  have hbase : Base { s with q := s.q.setState s.r .sleeping } := h.setState s.tty .sleeping trivial
  obtain ⟨htq, htctl, htmode, -, -, htty, -⟩ := yield_spec hbase.cur_lt hbase.cur_pid hy
  refine ⟨hrun, ?_, fun hcon => absurd htmode hcon, ?_⟩
  · intro i hi hst
    rw [htctl]
    by_cases hir : i = s.r
    · simp [hir]
    · rw [Function.update_of_ne hir]
      rw [htq, Table.setState_state, if_neg hir] at hst
      exact h.sleeper i hi hst
  · intro _
    rw [htty]
    simp only
    omega

theorem Attended.readInput {s t : Sched} (h : Attended s) (hrun : OnlyRunning t)
    (hread : s.readInput = some t) : Attended t := by
  obtain ⟨tty, hlines, rfl⟩ | ⟨tty, hlines, hy⟩ | ⟨hnone, hy⟩ := readInput_cases hread
  · exact h.readDone hlines hrun
  · exact h.readRetry hlines hy hrun
  · exact h.readSleep hnone hy hrun

/-- `wake_process` finds a sleeper when there is one. -/
theorem wakeProcess_sleeps {s : Sched} (h : s.Sleeps) :
    ∃ i < MAX, (s.q i).state = .sleeping ∧ wakeProcess s.q = s.q.setState i .running := by
  obtain ⟨j, hj, hst⟩ := h
  unfold wakeProcess
  cases hfind : slots.find? fun i => (s.q i).state = .sleeping with
  | none =>
      have hnone := List.find?_eq_none.mp hfind j ((mem_slots j).mpr hj)
      simp [hst] at hnone
  | some i =>
      have hmem := List.mem_of_find?_eq_some hfind
      exact ⟨i, (mem_slots i).mp hmem, by simpa using List.find?_some hfind, rfl⟩

/-- Enter brings one line and wakes one sleeper. -/
theorem Attended.enter {s t : Sched} (h : Attended s) (hrun : OnlyRunning t)
    (ht : t.q = wakeProcess s.q ∧ t.ctl = s.ctl ∧ t.mode = s.mode ∧ t.r = s.r)
    (hlines : t.tty.noLines = s.tty.noLines + 1) : Attended t := by
  obtain ⟨hq, hctl, hmode, hr⟩ := ht
  have hsleeping : ∀ i, (t.q i).state = .sleeping → (s.q i).state = .sleeping := by
    intro i hst
    rw [hq] at hst
    obtain heq | ⟨hs, -⟩ := wakeProcess_state s.q i
    · rwa [heq] at hst
    · exact hs
  refine ⟨hrun, ?_, ?_, ?_⟩
  · intro i hi hst
    rw [hctl]
    exact h.sleeper i hi (hsleeping i hst)
  · rw [hmode, hctl, hr]
    exact h.outside
  · rintro ⟨j, hj, hst⟩
    have hsleeps : s.Sleeps := ⟨j, hj, hsleeping j hst⟩
    have henough := h.enough hsleeps
    obtain ⟨i, hi, hsi, hwake⟩ := wakeProcess_sleeps hsleeps
    have hnot : i ∉ s.waitingReaders := by
      intro hin
      have hst := (mem_waitingReaders.mp hin).2.1
      simp [hsi] at hst
    have hsub : insert i s.waitingReaders ⊆ t.waitingReaders := by
      intro x hx
      rw [mem_waitingReaders, hq, hwake, hctl, Table.setState_state]
      obtain rfl | hx := Finset.mem_insert.mp hx
      · simp [hi, h.sleeper x hi hsi]
      · obtain ⟨hlt, hst, hread⟩ := mem_waitingReaders.mp hx
        split_ifs with hxi
        · exact ⟨hlt, rfl, hread⟩
        · exact ⟨hlt, hst, hread⟩
    have hcard := Finset.card_le_card hsub
    rw [Finset.card_insert_of_notMem hnot] at hcard
    rw [hlines]
    omega

/-- One key: only Enter touches the lines and the table. -/
theorem writeTerminal_lines (t : Tty) (c : Nat) (x : UInt8) :
    ((writeTerminal t c x).2 = true ∧ (writeTerminal t c x).1.noLines = t.noLines + 1) ∨
      ((writeTerminal t c x).2 = false ∧ (writeTerminal t c x).1.noLines = t.noLines) := by
  unfold writeTerminal
  split_ifs <;> simp [Tty.push]

theorem Attended.key {s : Sched} (h : Attended s) (c : Nat) (x : UInt8)
    (hrun : OnlyRunning (s.keyPressed c x)) : Attended (s.keyPressed c x) := by
  obtain ⟨henter, hlines⟩ | ⟨henter, hlines⟩ := writeTerminal_lines s.tty c x
  · refine h.enter hrun ⟨?_, rfl, rfl, rfl⟩ hlines
    simp [Sched.keyPressed, henter]
  · have hq : (s.keyPressed c x).q = s.q := by simp [Sched.keyPressed, henter]
    refine ⟨hrun, ?_, h.outside, ?_⟩
    · intro i hi hst
      rw [hq] at hst
      exact h.sleeper i hi hst
    · rintro ⟨i, hi, hst⟩
      rw [hq] at hst
      have henough := h.enough ⟨i, hi, hst⟩
      have hsame : (s.keyPressed c x).waitingReaders = s.waitingReaders := by
        ext j
        rw [mem_waitingReaders, mem_waitingReaders, hq]
        exact Iff.rfl
      rw [hsame]
      exact hlines.le.trans henough

/-- A step of a process that is not inside `read_input`. -/
theorem Attended.ctl_ne {s t : Sched} {e : Event} (h : Attended s) (hread : s.reads e = false)
    (hstep : s.step e = some t) : s.ctl s.r ≠ .readInput := by
  by_cases hmode : s.mode = .kernel
  · cases e with
    | resume => simpa [Sched.reads] using hread
    | _ => simp [Sched.step, hmode] at hstep
  · exact h.outside hmode

theorem Attended.step {s t : Sched} {e : Event} (h : Attended s) (hok : NoKill s e)
    (hstep : s.step e = some t) : Attended t := by
  have hrun := h.toOnlyRunning.step hok.spares hstep
  by_cases hread : s.reads e = true
  · exact h.readInput hrun (reads_readInput hread hstep)
  · have hread' : s.reads e = false := by simpa using hread
    by_cases hkey : ∃ c x, e = .key c x
    · obtain ⟨c, x, rfl⟩ := hkey
      simp only [Sched.step] at hstep
      split_ifs at hstep
      obtain rfl := Option.some.inj hstep
      exact h.key c x hrun
    · have hkey' : ∀ c x, e ≠ .key c x := fun c x hc => hkey ⟨c, x, hc⟩
      have htrans := step_trans hstep
      exact h.quiet hrun (.step h.toOnlyRunning hok hread' hkey' htrans) (h.ctl_ne hread' hstep)
        (by rw [htrans.tty_eq hkey' hread']) (outside_step h hok hread' hkey' htrans)

/-- A pending line never waits on sleepers only: while somebody sleeps, at
least as many readers are runnable as there are lines, so a line with a sleeping
reader has a runnable one. -/
theorem pending_line_has_runnable_reader (s : Sched)
    (h : Reachable Sched.step NoKill (· = boot) s) :
    (s.Sleeps → s.tty.noLines ≤ s.waitingReaders.card) ∧
      ¬ (0 < s.tty.noLines ∧ s.Sleeps ∧
        ∀ i < MAX, s.ctl i = .readInput → (s.q i).state ≠ .running) := by
  have hatt : Attended s := by
    refine h.invariant (P := Attended) ?_ (fun a e b ha hok hstep => ha.step hok hstep)
    rintro s rfl
    refine ⟨OnlyRunning.boot, ?_, ?_, ?_⟩
    · intro i _ hst
      simp only [boot, bootTable] at hst
      split_ifs at hst
    · intro _
      simp [boot]
    · intro _
      rw [show boot.tty.noLines = 0 from rfl]
      exact Int.natCast_nonneg _
  refine ⟨hatt.enough, ?_⟩
  rintro ⟨hlines, hsleeps, hnone⟩
  have henough := hatt.enough hsleeps
  have hempty : s.waitingReaders = ∅ := by
    rw [Finset.eq_empty_iff_forall_notMem]
    intro i hi
    obtain ⟨hlt, hst, hctl⟩ := mem_waitingReaders.mp hi
    exact hnone i hlt hctl hst
  rw [hempty] at henough
  simp at henough
  omega

/-- The shell and its child both read and sleep; Enter wakes the shell, and the
child sleeps on. -/
theorem pending_line_has_runnable_reader_child :
    ∃ s, Reachable Sched.step NoKill (· = boot) s ∧ s.tty.noLines = 1 ∧
      (s.q 3).state = .sleeping ∧ s.tty.noLines ≤ s.waitingReaders.card := by
  obtain ⟨s, hs, hprop⟩ := reachable_of_exec Sched.step NoKill boot
    [.sys .fork, .sys .readInput, .resume, .sys .readInput, .resume, .resume, .key 28 0]
    (fun s => decide (s.tty.noLines = 1 ∧ (s.q 3).state = .sleeping))
    (by simp [NoKill]) (by decide +kernel)
  obtain ⟨hlines, hsleep⟩ : s.tty.noLines = 1 ∧ (s.q 3).state = .sleeping := by
    simpa using hprop
  exact ⟨s, hs, hlines, hsleep,
    (pending_line_has_runnable_reader s hs).1 ⟨3, by decide, hsleep⟩⟩

end X86Kernel.Proc
