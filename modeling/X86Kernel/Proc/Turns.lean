import X86Kernel.Proc.Invariant

/-!
The order in which `yield` gives out the CPU. The slots are searched in a
circle from behind the current one, so that a slot that stays `RUNNING` is
picked before any other slot has its second turn, whatever happens to the
others between the calls. The runs of the machine are such sequences of calls.
-/

namespace X86Kernel.Proc

open Lib

/-- What may happen between two calls of `yield`: anything, as long as the
current process stays the same one, with its slot for its pid, and slot `p` is
`RUNNING`. -/
structure Between (p : Nat) (s t : Sched) : Prop where
  cur : t.r = s.r
  cur_pid : (t.q t.r).pid = t.r
  running : (t.q p).state = .running

/-- From `s` a sequence of calls of `yield` leads to `t`; they pick the slots in
`l`, and slot `p` is `RUNNING` at each of them. -/
inductive Turns (p : Nat) (s : Sched) : List Nat → Sched → Prop
  | nil : Turns p s [] s
  | snoc {l : List Nat} {t u v : Sched} {point : Ctl} : Turns p s l t → Between p t u →
      u.yield point = some v → Turns p s (l ++ [v.r]) v

theorem yield_first {s : Sched} (point : Ctl) (hpid : (s.q s.r).pid < MAX) :
    ∃ t, s.yield point = some t ∧ t.q = s.q ∧ FirstRunning s.q (s.q s.r).pid t.r := by
  obtain ⟨i, hi, hfirst⟩ := nextSlot_first s.q _ hpid
  exact ⟨{ s with ctl := Function.update s.ctl s.r point, r := i, mode := .kernel },
    by rw [Sched.yield, hi]; rfl, rfl, hfirst⟩

section Circle

variable {r c i j p : Nat}

theorem behind_inj (hr : r < MAX) (hi : i < MAX) (hj : j < MAX) (h : behind r i = behind r j) :
    i = j := by
  simp only [behind, MAX] at *
  omega

/-- A slot on the way from `c` to `p` is also on the way there from `r`, farther
than `c` if `c` is. -/
theorem behind_trans (hr : r < MAX) (hc : c < MAX) (hi : i < MAX)
    (hcp : behind r c < behind r p) (hip : behind c i < behind c p) :
    behind r c < behind r i ∧ behind r i < behind r p := by
  simp only [behind, MAX] at *
  omega

/-- A running slot is not passed over. -/
theorem FirstRunning.behind_lt {q : Table} (h : FirstRunning q c i) (hc : c < MAX) (hp : p < MAX)
    (hrun : (q p).state = .running) (hne : i ≠ p) : behind c i < behind c p := by
  have hle : ¬ behind c p < behind c i := fun hlt => h.first p hp hlt hrun
  have hneq : behind c i ≠ behind c p := fun heq => hne (behind_inj hc h.lt hp heq)
  omega

end Circle

/-- The turns before that of `p`, with `c` the slot that had the last one. -/
structure Rising (p r : Nat) (l : List Nat) (c : Nat) : Prop where
  ascending : (l.map (behind r)).Pairwise (· < ·)
  lt : ∀ i ∈ l, i < MAX ∧ behind r i < behind r p
  last : (l = [] ∧ c = r) ∨ (c ∈ l ∧ ∀ i ∈ l, behind r i ≤ behind r c)

theorem Rising.snoc {p r c i : Nat} {l : List Nat} {q : Table} (h : Rising p r l c) (hr : r < MAX)
    (hp : p < MAX) (hfirst : FirstRunning q c i) (hrun : (q p).state = .running) (hne : i ≠ p) :
    Rising p r (l ++ [i]) i := by
  have hstep : behind r i < behind r p ∧ ∀ j ∈ l, behind r j < behind r i := by
    obtain ⟨rfl, rfl⟩ | ⟨hmem, hmax⟩ := h.last
    · exact ⟨hfirst.behind_lt hr hp hrun hne, by simp⟩
    · obtain ⟨hc, hcp⟩ := h.lt c hmem
      obtain ⟨hci, hip⟩ := behind_trans hr hc hfirst.lt hcp (hfirst.behind_lt hc hp hrun hne)
      refine ⟨hip, fun j hj => ?_⟩
      have := hmax j hj
      omega
  refine ⟨?_, ?_, .inr ⟨by simp, ?_⟩⟩
  · rw [List.map_append, List.pairwise_append]
    refine ⟨h.ascending, by simp, ?_⟩
    intro a ha b hb
    obtain ⟨j, hj, rfl⟩ := List.mem_map.mp ha
    obtain rfl : b = behind r i := by simpa using hb
    exact hstep.2 j hj
  · intro j hj
    obtain hj | hj := List.mem_append.mp hj
    · exact h.lt j hj
    · obtain rfl := List.mem_singleton.mp hj
      exact ⟨hfirst.lt, hstep.1⟩
  · intro j hj
    obtain hj | hj := List.mem_append.mp hj
    · exact Nat.le_of_lt (hstep.2 j hj)
    · obtain rfl := List.mem_singleton.mp hj
      exact Nat.le_refl _

theorem Turns.rising {p : Nat} {s t : Sched} {l : List Nat} (h : Turns p s l t) (hr : s.r < MAX)
    (hp : p < MAX) (hl : p ∉ l) : Rising p s.r l t.r := by
  induction h with
  | nil => exact ⟨by simp, by simp, .inl ⟨rfl, rfl⟩⟩
  | snoc _ hbetween hyield ih =>
      rename_i l t u v point _
      simp only [List.mem_append, List.mem_singleton, not_or] at hl
      have hrise := ih hl.1
      have hcur : u.r < MAX := by
        rw [hbetween.cur]
        obtain ⟨-, heq⟩ | ⟨hmem, -⟩ := hrise.last
        · rw [heq]
          exact hr
        · exact (hrise.lt _ hmem).1
      obtain ⟨v', hv, -, hfirst⟩ := yield_first point (by rw [hbetween.cur_pid]; exact hcur)
      obtain rfl : v' = v := Option.some.inj (hv.symm.trans hyield)
      rw [hbetween.cur_pid, hbetween.cur] at hfirst
      exact hrise.snoc hr hp hfirst hbetween.running (Ne.symm hl.2)

/-- Round robin without bypass. `yield` returns, and picks the first running slot
behind the current one, or the current one when no other is running. Of the
slots picked before a slot `p` that stays running, each is farther along the
circle from the start to `p` than the one before; so none is picked twice, nor
is the slot of the start, and there are only as many as lie on that way. -/
theorem yield_round_robin :
    (∀ (s : Sched) (point : Ctl), (s.q s.r).pid < MAX →
      ∃ t, s.yield point = some t ∧ t.q = s.q ∧ FirstRunning s.q (s.q s.r).pid t.r) ∧
    ∀ (p : Nat) (s t : Sched) (l : List Nat), p < MAX → s.r < MAX → Turns p s l t → p ∉ l →
      (l.map (behind s.r)).Pairwise (· < ·) ∧ (∀ i ∈ l, behind s.r i < behind s.r p) ∧
        (s.r :: l).Nodup ∧ l.length ≤ behind s.r p := by
  refine ⟨fun s point => yield_first point, ?_⟩
  intro p s t l hp hr hturns hl
  have hrise := hturns.rising hr hp hl
  refine ⟨hrise.ascending, fun i hi => (hrise.lt i hi).2, ?_, ?_⟩
  · refine List.nodup_cons.mpr ⟨fun hmem => ?_, ?_⟩
    · have hlt := (hrise.lt _ hmem).2
      simp only [behind, MAX] at *
      omega
    · refine (List.pairwise_map.mp hrise.ascending).imp ?_
      rintro a b hab rfl
      exact Nat.lt_irrefl _ hab
  · have hsub : l.map (behind s.r) ⊆ List.range (behind s.r p) := by
      intro x hx
      obtain ⟨i, hi, rfl⟩ := List.mem_map.mp hx
      exact List.mem_range.mpr (hrise.lt i hi).2
    have hnodup : (l.map (behind s.r)).Nodup := hrise.ascending.imp Nat.ne_of_lt
    simpa using (hnodup.subperm hsub).length_le

/-- After boot the shell yields to init; idle is next. -/
theorem yield_round_robin_boot :
    ∃ t, Turns 1 boot [0] t ∧ ([2, 0] : List Nat).Nodup ∧ behind 2 0 < behind 2 1 := by
  obtain ⟨t, ht⟩ := @yield_isSome boot .idle (by decide) rfl
  have hr : t.r = 0 := by
    have hnext : nextSlot bootTable 2 = some 0 := by decide +kernel
    obtain ⟨i, hi, rfl⟩ := Option.map_eq_some_iff.mp ht
    exact Option.some.inj (hi.symm.trans hnext)
  have hturns : Turns 1 boot [0] t := by
    rw [← hr]
    exact Turns.nil.snoc ⟨rfl, rfl, rfl⟩ ht
  obtain ⟨-, hlt, hnodup, -⟩ := yield_round_robin.2 1 boot t [0] (by decide) (by decide) hturns
    (by decide)
  exact ⟨t, hturns, hnodup, hlt 0 (by simp)⟩

/-- A step of the machine keeps the current process, or ends with a call of
`yield`. -/
theorem Trans.turn {s t : Sched} {e : Event} (h : Trans s e t) (hb : Base s) :
    t.r = s.r ∨ ∃ (u : Sched) (point : Ctl), u.r = s.r ∧ (u.q u.r).pid = u.r ∧
      u.yield point = some t := by
  have hcur := hb.cur_pid
  have hyield : ∀ {u : Sched} {point : Ctl}, u.yield point = some t → u.r = s.r →
      (u.q s.r).pid = s.r → t.r = s.r ∨ ∃ (u : Sched) (point : Ctl), u.r = s.r ∧
        (u.q u.r).pid = u.r ∧ u.yield point = some t :=
    fun hy hr hpid => .inr ⟨_, _, hr, by rw [hr, hpid], hy⟩
  cases h with
  | exit _ hy => exact hyield hy rfl (by simpa [Proc.exit] using hcur)
  | sleep _ _ hy => exact hyield hy rfl (by simpa using hcur)
  | readRetry _ _ _ hy => exact hyield hy rfl hcur
  | readSleep _ _ hy => exact hyield hy rfl (by simpa using hcur)
  | waitChild _ _ _ hy => exact hyield hy rfl (by simpa using hcur)
  | poll _ _ _ _ hy => exact hyield hy rfl hcur
  | preempt _ _ hy => exact hyield hy rfl hcur
  | idleYield _ hy => exact hyield hy rfl hcur
  | initBlock _ _ _ hy => exact hyield hy rfl (by simpa using hcur)
  | _ => exact .inl rfl

/-- The runs of the machine in which slot `p` stays `RUNNING` are such sequences
of turns. -/
theorem run_turns {p : Nat} {s t : Sched} {es : List Event} (hb : Base s)
    (hrun : Run Sched.step (fun a e => ∀ b, a.step e = some b → (b.q p).state = .running) s es t) :
    ∃ l u, Turns p s l u ∧ u.r = t.r ∧ Base t := by
  induction hrun with
  | nil => exact ⟨[], s, .nil, rfl, hb⟩
  | snoc _ hok hstep ih =>
      obtain ⟨l, u, hturns, hr, hbase⟩ := ih
      have hnext := hbase.step hstep
      obtain hsame | ⟨v, point, hv, hpid, hy⟩ := (step_trans hstep).turn hbase
      · exact ⟨l, u, hturns, by rw [hr, hsame], hnext⟩
      · have hq : _ = v.q := (yield_spec (by rw [hv]; exact hbase.cur_lt) hpid hy).1
        have hrunning := hok _ hstep
        rw [hq] at hrunning
        exact ⟨_, _, hturns.snoc ⟨by rw [hv, hr], hpid, hrunning⟩ hy, rfl, hnext⟩

end X86Kernel.Proc
