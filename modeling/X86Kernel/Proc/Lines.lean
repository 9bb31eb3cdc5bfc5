import X86Kernel.Proc.Invariant

/-!
The line buffer over whole sessions. The keyboard fills it and any number of
readers empty it; `i` never goes back when lines are consumed, so what a session
may do depends on everything that was typed before.
-/

namespace X86Kernel.Proc

open Lib

/-- The step executes an iteration of the loop in `read_input`. -/
def Sched.reads (s : Sched) : Event → Bool
  | .sys .readInput => true
  | .resume => s.ctl s.r = .readInput
  | _ => false

def Sched.ttyAfter (s : Sched) (e : Event) : Tty :=
  match e with
  | .key code x => (writeTerminal s.tty code x).1
  | e => if s.reads e = true ∧ 0 < s.tty.noLines then (readLine s.tty).1 else s.tty

theorem yield_tty {s t : Sched} {point : Ctl} (h : s.yield point = some t) : t.tty = s.tty := by
  obtain ⟨i, -, rfl⟩ := Option.map_eq_some_iff.mp h
  rfl

theorem readInput_tty {s t : Sched} (h : s.readInput = some t) :
    t.tty = if 0 < s.tty.noLines then (readLine s.tty).1 else s.tty := by
  unfold Sched.readInput at h
  split_ifs at h with hlines
  · rw [if_pos hlines]
    rcases hread : readLine s.tty with ⟨tty, line, found⟩
    simp only [hread] at h
    cases found with
    | true =>
        obtain rfl := Option.some.inj (by simpa using h)
        rfl
    | false => exact yield_tty (by simpa using h)
  · rw [if_neg hlines]
    have hsame := yield_tty h
    exact hsame

theorem reads_of_at {s : Sched} {e : Event} (hat : s.mode = .user ∧ e = .sys .readInput ∨
    s.mode = .kernel ∧ e = .resume ∧ s.ctl s.r = .readInput) : s.reads e = true := by
  obtain ⟨-, rfl⟩ | ⟨-, rfl, hctl⟩ := hat
  · rfl
  · simp [Sched.reads, hctl]

/-- Everything else leaves the line buffer alone. -/
theorem Trans.tty_eq {s t : Sched} {e : Event} (h : Trans s e t) (hkey : ∀ c x, e ≠ .key c x)
    (hread : s.reads e = false) : t.tty = s.tty := by
  cases h with
  | exit _ hy | sleep _ _ hy | waitChild _ _ _ hy | poll _ _ _ _ hy | preempt _ _ hy
  | idleYield _ hy | initBlock _ _ _ hy => exact (yield_tty hy).trans rfl
  | readDone _ _ hat => simp [reads_of_at hat] at hread
  | readRetry _ _ hat => simp [reads_of_at hat] at hread
  | readSleep _ hat => simp [reads_of_at hat] at hread
  | key code x => exact absurd rfl (hkey code x)
  | _ => rfl

/-- A step that reads is an iteration of `read_input`. -/
theorem reads_readInput {s t : Sched} {e : Event} (hread : s.reads e = true)
    (h : s.step e = some t) : s.readInput = some t := by
  cases e with
  | resume =>
      have hctl : s.ctl s.r = .readInput := by simpa [Sched.reads] using hread
      simp only [Sched.step, Sched.resume, hctl] at h
      split_ifs at h
      exact h
  | sys call =>
      cases call with
      | readInput =>
          simp only [Sched.step, Sched.syscall] at h
          split_ifs at h
          exact h
      | _ => simp [Sched.reads] at hread
  | _ => simp [Sched.reads] at hread

/-- Only the keyboard and the readers touch the line buffer. -/
theorem step_tty {s t : Sched} {e : Event} (h : s.step e = some t) : t.tty = s.ttyAfter e := by
  by_cases hread : s.reads e = true
  · have hrun := reads_readInput hread h
    have hafter : s.ttyAfter e = if 0 < s.tty.noLines then (readLine s.tty).1 else s.tty := by
      cases e with
      | key => simp [Sched.reads] at hread
      | _ => simp [Sched.ttyAfter, hread]
    rw [hafter]
    exact readInput_tty hrun
  · cases e with
    | key =>
        simp only [Sched.step] at h
        split_ifs at h
        obtain rfl := Option.some.inj h
        rfl
    | _ =>
        simp only [Sched.ttyAfter, hread]
        exact (step_trans h).tty_eq (by simp) (by simpa using hread)

/-- The cells from `a` on, below `b`, set to zero. -/
def clear (buf : Int → UInt8) (a b : Int) : Int → UInt8 :=
  fun j => if a ≤ j ∧ j < b then 0 else buf j

theorem clear_update (buf : Int → UInt8) (a b : Int) (h : a < b) :
    clear (Function.update buf a 0) (a + 1) b = clear buf a b := by
  funext j
  unfold clear
  by_cases hj : j = a
  · subst hj
    simp [h]
  · rw [Function.update_of_ne hj]
    by_cases hin : a ≤ j ∧ j < b
    · rw [if_pos hin, if_pos (by omega)]
    · rw [if_neg hin, if_neg (by omega)]

theorem clear_self (buf : Int → UInt8) (a : Int) : clear buf a a = buf := by
  funext j
  exact if_neg (by omega)

/-- The cells behind the one that is set. -/
theorem update_behind (buf : Int → UInt8) (i : Int) (j : Nat) :
    Function.update buf i 0 (i + 1 + j) = buf (i + (j + 1 : Nat)) := by
  rw [Function.update_of_ne (by omega)]
  congr 1
  push_cast
  ring

/-- The loop of `read_input` stops at the first newline, and hands out and
clears what is before it. -/
theorem readLoop_found (n : Nat) (t : Tty) (i : Int) (acc : List UInt8) (k : Nat) (hk : k < n)
    (hnl : t.buf (i + k) = 10) (hbefore : ∀ j < k, t.buf (i + (j : Nat)) ≠ 10) :
    readLoop n t i acc =
      ({ t with buf := clear t.buf i (i + k), offset := i + k + 1, noLines := t.noLines - 1 },
        acc.reverse ++ (List.range k).map (fun j => t.buf (i + (j : Nat))), true) := by
  induction n generalizing t i acc k with
  | zero => omega
  | succ n ih =>
      unfold readLoop
      cases k with
      | zero =>
          simp only [Int.natCast_zero, Int.add_zero] at hnl
          simp [hnl, clear_self]
      | succ k =>
          have hi : t.buf i ≠ 10 := by simpa using hbefore 0 (by omega)
          rw [if_neg hi, ih _ (i + 1) _ k (by omega) (by simp only [update_behind]; exact hnl)
            (by intro j hj; simp only [update_behind]; exact hbefore (j + 1) (by omega))]
          simp only [update_behind]
          refine Prod.ext ?_ (Prod.ext ?_ rfl)
          · have hend : i + 1 + (k : Int) = i + (k + 1 : Nat) := by push_cast; ring
            simp only [hend, clear_update t.buf i (i + (k + 1 : Nat)) (by omega)]
          · simp [List.range_succ_eq_map, Function.comp_def]

/-- Without a newline the loop runs to its end. -/
theorem readLoop_missing (n : Nat) (t : Tty) (i : Int) (acc : List UInt8)
    (hnone : ∀ j < n, t.buf (i + (j : Nat)) ≠ 10) :
    (readLoop n t i acc).1 = { t with buf := clear t.buf i (i + n) } ∧
      (readLoop n t i acc).2.2 = false := by
  induction n generalizing t i acc with
  | zero =>
      simp [readLoop, clear_self]
  | succ n ih =>
      have hi : t.buf i ≠ 10 := by simpa using hnone 0 (by omega)
      unfold readLoop
      rw [if_neg hi]
      obtain ⟨htty, hfound⟩ := ih { t with buf := Function.update t.buf i 0 } (i + 1)
        (t.buf i :: acc)
        (by intro j hj; simp only [update_behind]; exact hnone (j + 1) (by omega))
      have hend : i + 1 + (n : Int) = i + (n + 1 : Nat) := by push_cast; ring
      refine ⟨?_, hfound⟩
      rw [htty]
      simp only [hend, clear_update t.buf i (i + (n + 1 : Nat)) (by omega)]

/-- Either case of the loop. -/
theorem readLoop_cases (n : Nat) (t : Tty) (i : Int) :
    (∃ k : Nat, k < n ∧ t.buf (i + k) = 10 ∧ (readLoop n t i []).2.2 = true ∧
      (readLoop n t i []).1 =
        { t with buf := clear t.buf i (i + k), offset := i + k + 1, noLines := t.noLines - 1 }) ∨
      ((readLoop n t i []).2.2 = false ∧
        (readLoop n t i []).1 = { t with buf := clear t.buf i (i + n) }) := by
  by_cases hex : ∃ k : Nat, k < n ∧ t.buf (i + k) = 10
  · obtain ⟨k, ⟨hk, hnl⟩, hmin⟩ : ∃ k : Nat, (k < n ∧ t.buf (i + k) = 10) ∧
        ∀ j < k, ¬ (j < n ∧ t.buf (i + (j : Nat)) = 10) :=
      ⟨Nat.find hex, Nat.find_spec hex, fun j hj => Nat.find_min hex hj⟩
    refine Or.inl ⟨k, hk, hnl, ?_⟩
    rw [readLoop_found n t i [] k hk hnl (fun j hj hcon => hmin j hj ⟨by omega, hcon⟩)]
    exact ⟨rfl, rfl⟩
  · exact Or.inr (readLoop_missing n t i [] (fun j hj hcon => hex ⟨j, hj, hcon⟩)).symm

/-- The key stores a character. -/
def storesKey (c : Nat) : Bool := 0 < c ∧ c ≤ 58 ∧ c ≠ 14 ∧ c ≠ 42 ∧ c ≠ 54

def writeIndices (t : Tty) (c : Nat) : List Int :=
  if storesKey c then [t.i] else if c = 14 ∧ t.offset ≠ t.i then [t.i - 1] else []

/-- The rows `write_terminal` uses of `code_map`. -/
def mapIndices (c : Nat) : List Nat := if storesKey c ∧ c ≠ 28 then [c] else []

/-- The indices the loop of `read_input` uses on `buf`. -/
def scanIndices : Nat → Tty → Int → List Int
  | 0, _, _ => []
  | n + 1, t, i => i :: if t.buf i = 10 then [] else scanIndices n t (i + 1)

/-- The indices a step uses on `buf`. -/
def Sched.bufIndices (s : Sched) (e : Event) : List Int :=
  match e with
  | .key c _ => writeIndices s.tty c
  | e => if s.reads e = true ∧ 0 < s.tty.noLines then
      scanIndices (4096 - s.tty.offset).toNat s.tty s.tty.offset else []

/-- Every index a step uses is inside its array. -/
def Sched.InBounds (s : Sched) (e : Event) : Prop :=
  (∀ j ∈ s.bufIndices e, 0 ≤ j ∧ j ≤ 4095) ∧ ∀ c x, e = .key c x → ∀ j ∈ mapIndices c, j ≤ 57

/-- No Caps Lock, and no character once 4096 of them are in the buffer. -/
def KeyFits (s : Sched) : Event → Prop
  | .key c _ => c ≠ 58 ∧ (storesKey c → s.tty.i < 4096)
  | _ => True

structure Tty.Sane (t : Tty) : Prop where
  offset : 0 ≤ t.offset
  behind : t.offset ≤ t.i
  fits : t.i ≤ 4096
  blank : ∀ j, t.i ≤ j → t.buf j ≠ 10

theorem scanIndices_mem {n : Nat} {t : Tty} {i j : Int} (h : j ∈ scanIndices n t i) :
    i ≤ j ∧ j < i + n := by
  induction n generalizing i with
  | zero => simp [scanIndices] at h
  | succ n ih =>
      rw [scanIndices, List.mem_cons] at h
      obtain rfl | h := h
      · omega
      · split_ifs at h
        · simp at h
        · have hrest := ih h
          omega

/-- What `write_terminal` does to the buffer, by kind of key. -/
theorem writeTerminal_cases (t : Tty) (c : Nat) (x : UInt8) :
    (storesKey c = true ∧ ∃ y, (writeTerminal t c x).1.buf = Function.update t.buf t.i y ∧
      (writeTerminal t c x).1.i = t.i + 1 ∧ (writeTerminal t c x).1.offset = t.offset) ∨
    (storesKey c = false ∧ c = 14 ∧ t.offset ≠ t.i ∧
      (writeTerminal t c x).1.buf = Function.update t.buf (t.i - 1) 0 ∧
      (writeTerminal t c x).1.i = t.i - 1 ∧ (writeTerminal t c x).1.offset = t.offset) ∨
    (storesKey c = false ∧ (c = 14 → t.offset = t.i) ∧ (writeTerminal t c x).1.buf = t.buf ∧
      (writeTerminal t c x).1.i = t.i ∧ (writeTerminal t c x).1.offset = t.offset) := by
  have hstore : storesKey c = true ↔ 0 < c ∧ c ≤ 58 ∧ c ≠ 14 ∧ c ≠ 42 ∧ c ≠ 54 := by
    simp [storesKey]
  rw [← Bool.not_eq_true, hstore]
  unfold writeTerminal
  split_ifs with h0 h14 hoff h28 h29 hshift
  · exact Or.inr (Or.inr ⟨by omega, by omega, rfl, rfl, rfl⟩)
  · exact Or.inr (Or.inl ⟨by omega, h14, hoff, rfl, rfl, rfl⟩)
  · exact Or.inr (Or.inr ⟨by omega, fun _ => by omega, rfl, rfl, rfl⟩)
  · exact Or.inl ⟨by omega, _, rfl, rfl, rfl⟩
  · exact Or.inl ⟨by omega, _, rfl, rfl, rfl⟩
  · exact Or.inr (Or.inr ⟨by omega, by omega, rfl, rfl, rfl⟩)
  · exact Or.inl ⟨by omega, _, rfl, rfl, rfl⟩

/-- A key keeps the buffer sane while there is room. -/
theorem Tty.Sane.write {t : Tty} (h : t.Sane) {c : Nat} {x : UInt8}
    (hfit : storesKey c → t.i < 4096) :
    (writeTerminal t c x).1.Sane := by
  obtain ⟨hst, y, hbuf, hi, hoff⟩ | ⟨-, -, hne, hbuf, hi, hoff⟩ | ⟨-, -, hbuf, hi, hoff⟩ :=
    writeTerminal_cases t c x
  · have hlt := hfit hst
    refine ⟨by rw [hoff]; exact h.offset, ?_, ?_, ?_⟩
    · have hbehind := h.behind
      omega
    · omega
    · intro j hj
      rw [hi] at hj
      rw [hbuf, Function.update_of_ne (by omega)]
      exact h.blank j (by omega)
  · have hbehind := h.behind
    have hfits := h.fits
    refine ⟨by rw [hoff]; exact h.offset, by omega, by omega, ?_⟩
    intro j hj
    rw [hi] at hj
    rw [hbuf]
    by_cases hj' : j = t.i - 1
    · simp [hj']
    · rw [Function.update_of_ne hj']
      exact h.blank j (by omega)
  · refine ⟨by rw [hoff]; exact h.offset, ?_, ?_, ?_⟩
    · rw [hoff, hi]
      exact h.behind
    · rw [hi]
      exact h.fits
    · intro j hj
      rw [hi] at hj
      rw [hbuf]
      exact h.blank j hj

theorem clear_ne_newline {buf : Int → UInt8} {a b j : Int} (h : buf j ≠ 10) :
    clear buf a b j ≠ 10 := by
  unfold clear
  split_ifs
  · decide
  · exact h

/-- A reader keeps the buffer sane. -/
theorem Tty.Sane.read {t : Tty} (h : t.Sane) : (readLine t).1.Sane := by
  unfold readLine
  obtain ⟨k, -, hnl, -, htty⟩ | ⟨-, htty⟩ := readLoop_cases (4096 - t.offset).toNat t t.offset
  · have hlt : t.offset + k < t.i := by
      by_contra hcon
      exact h.blank _ (by omega) hnl
    have hoff := h.offset
    rw [htty]
    refine ⟨?_, ?_, h.fits, fun j hj => clear_ne_newline (h.blank j hj)⟩
    · simp only
      omega
    · simp only
      omega
  · rw [htty]
    exact ⟨h.offset, h.behind, h.fits, fun j hj => clear_ne_newline (h.blank j hj)⟩

theorem Tty.Sane.step {s t : Sched} {e : Event} (h : s.tty.Sane) (hok : KeyFits s e)
    (hstep : s.step e = some t) : t.tty.Sane := by
  rw [step_tty hstep]
  unfold Sched.ttyAfter
  split
  · exact h.write hok.2
  · split_ifs
    · exact h.read
    · exact h

/-- In a sane buffer the indices of a step are in bounds exactly when the key
fits. -/
theorem Tty.Sane.inBounds_iff {s : Sched} (h : s.tty.Sane) (e : Event) :
    s.InBounds e ↔ KeyFits s e := by
  have hoff := h.offset
  have hbehind := h.behind
  have hfits := h.fits
  cases e with
  | key c x =>
      have hstore : storesKey c = true ↔ 0 < c ∧ c ≤ 58 ∧ c ≠ 14 ∧ c ≠ 42 ∧ c ≠ 54 := by
        simp [storesKey]
      have hmap : (∀ d y, Event.key c x = .key d y → ∀ j ∈ mapIndices d, j ≤ 57) ↔
          ∀ j ∈ mapIndices c, j ≤ 57 :=
        ⟨fun h => h c x rfl, fun h d y he => by cases he; exact h⟩
      rw [Sched.InBounds, hmap]
      simp only [Sched.bufIndices, KeyFits, writeIndices, mapIndices]
      by_cases hst : storesKey c = true
      · have hc := hstore.mp hst
        simp only [hst, if_true, List.mem_singleton, forall_eq, true_and, forall_true_left]
        constructor
        · rintro ⟨hi, hmap⟩
          refine ⟨?_, by omega⟩
          rintro rfl
          simp at hmap
        · rintro ⟨hne, hi⟩
          refine ⟨by omega, ?_⟩
          split_ifs with h28
          · simp only [List.mem_singleton, forall_eq]
            omega
          · simp
      · have hne : c ≠ 58 := by
          rintro rfl
          exact hst (by decide)
        simp only [hst, Bool.false_eq_true, if_false, false_and, List.not_mem_nil, false_imp_iff,
          implies_true, and_true, hne, ne_eq, not_false_eq_true, iff_true]
        split_ifs with hback
        · simp only [List.mem_singleton, forall_eq]
          omega
        · simp
  | _ =>
      simp only [KeyFits, iff_true]
      refine ⟨?_, by simp⟩
      intro j hj
      simp only [Sched.bufIndices] at hj
      split_ifs at hj with hread
      · have hin := scanIndices_mem hj
        omega
      · simp at hj

/-- The terminal's arrays are not overrun as long as nobody presses Caps Lock
or types into a full buffer: in every state such a session reaches, a step uses
indices inside the arrays exactly when it is of that kind itself. -/
theorem terminal_in_bounds (s : Sched) (h : Reachable Sched.step KeyFits (· = boot) s)
    (e : Event) : s.InBounds e ↔ KeyFits s e := by
  have hsane : s.tty.Sane := by
    refine h.invariant (P := fun s => s.tty.Sane) ?_ (fun a e b ha hok hstep => ha.step hok hstep)
    rintro s rfl
    exact ⟨by decide, by decide, by decide, fun j _ => by simp [boot]⟩
  exact hsane.inBounds_iff e

/-- An `a` typed while the idle loop runs. -/
theorem terminal_in_bounds_letter :
    ∃ s, Reachable Sched.step KeyFits (· = boot) s ∧ s.mode = .idle ∧ s.tty.i = 1 ∧
      s.InBounds (.key 28 0) := by
  obtain ⟨s, hs, hidle⟩ := reachable_idle KeyFits (fun _ => trivial) (fun _ => trivial)
  have hkey := hs.next (e := Event.key 30 0) (t := s.keyPressed 30 0)
    ⟨by decide, fun _ => by simp [hidle.i]⟩ (by simp [Sched.step, hidle.mode])
  have hi : (s.keyPressed 30 0).tty.i = 1 := by
    simp [Sched.keyPressed, writeTerminal, Tty.push, hidle.i]
  exact ⟨_, hkey, hidle.mode, hi, (terminal_in_bounds _ hkey (Event.key 28 0)).mpr
    ⟨by decide, fun _ => by rw [hi]; decide⟩⟩

/-- Typing `a` over and over, in the idle loop. -/
theorem reachable_letters (n : Nat) :
    ∃ s, Reachable Sched.step (fun _ _ => True) (· = boot) s ∧ s.mode = .idle ∧ s.tty.i = n := by
  induction n with
  | zero =>
      obtain ⟨s, hs, hidle⟩ := reachable_idle (fun _ _ => True) (fun _ => trivial)
        (fun _ => trivial)
      exact ⟨s, hs, hidle.mode, hidle.i⟩
  | succ n ih =>
      obtain ⟨s, hs, hmode, hi⟩ := ih
      refine ⟨s.keyPressed 30 0, hs.next (e := Event.key 30 0) trivial ?_, hmode, ?_⟩
      · simp [Sched.step, hmode]
      · change s.tty.i + 1 = _
        rw [hi]
        push_cast
        rfl

/-- The 4097th letter goes behind `buf`, and Caps Lock reads behind
`code_map`. -/
theorem terminal_overrun :
    (¬ ∀ s, Reachable Sched.step (fun _ _ => True) (· = boot) s → ∀ e t, s.step e = some t →
      ∀ j ∈ s.bufIndices e, 0 ≤ j ∧ j ≤ 4095) ∧
    ¬ ∀ s, Reachable Sched.step (fun _ _ => True) (· = boot) s → ∀ c x t,
      s.step (.key c x) = some t → ∀ j ∈ mapIndices c, j ≤ 57 := by
  refine ⟨?_, ?_⟩
  · intro hall
    obtain ⟨s, hs, hmode, hi⟩ := reachable_letters 4096
    have hbound := hall s hs (.key 30 0) (s.keyPressed 30 0) (by simp [Sched.step, hmode]) s.tty.i
      (by simp [Sched.bufIndices, writeIndices, storesKey])
    omega
  · intro hall
    obtain ⟨s, hs, hmode, -⟩ := reachable_letters 0
    have hbound := hall s hs 58 0 (s.keyPressed 58 0) (by simp [Sched.step, hmode]) 58 (by decide)
    omega

end X86Kernel.Proc
