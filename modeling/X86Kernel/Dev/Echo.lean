import X86Kernel.Lib.Lines
import X86Kernel.Proc.Delivery
import X86Kernel.Dev.Render

/-!
The echo of `terminal.c`. What somebody types goes to the line buffer and to the
screen, and Backspace takes it back from both. The two stay the same as long as
Backspace does not have to go back over the beginning of a row, where the screen
does not follow.
-/

namespace X86Kernel.Dev

open Lib Proc

/-- What `write_terminal` does to the screen on the scan code `c`, with `x` behind
`code_map`. -/
def echo (t : Tty) (c : Nat) (x : UInt8) : Option Output :=
  if c = 0 ∨ 58 < c then none
  else if c = 14 then
    if t.offset ≠ t.i then some .backspace else none
  else if c = 28 then some (.put 10)
  else if c = 29 then some (.put (codeMapAt x c true))
  else if c = 42 ∨ c = 54 then none
  else some (.put (codeMapAt x c (t.ctrl || t.caps)))

structure Desk where
  session : Session
  screen : Screen

inductive Act where
  | run (e : Event)
  | print (o : Output)
  deriving DecidableEq

namespace Desk

/-- The echo of a step; only a key has one. -/
def echoes (d : Desk) : Event → Option Output
  | .key c x => echo d.session.sched.tty c x
  | _ => none

def shown (d : Desk) : Option Output → Option Screen
  | some o => d.screen.step o
  | none => some d.screen

def step (d : Desk) : Act → Option Desk
  | .run e => do
      let session ← d.session.step e
      let screen ← d.shown (d.echoes e)
      some { session := session, screen := screen }
  | .print o => (d.screen.step o).map fun s => { d with screen := s }

end Desk

/-- Keys as they may be pressed, output that keeps the cursor coherent, no Backspace
in the first column, and nothing printed into a line that is being typed. -/
def DeskSafe (d : Desk) : Act → Prop
  | .run e => ErasesOpenLine d.session e ∧
      ∀ o, d.echoes e = some o → CursorSafe d.screen o ∧ (o = .backspace → d.screen.hOffset ≠ 0)
  | .print o => CursorSafe d.screen o ∧ d.session.sched.tty.offset = d.session.sched.tty.i

instance (d : Desk) (a : Act) : Decidable (DeskSafe d a) :=
  match a with
  | .run e => inferInstanceAs (Decidable (ErasesOpenLine d.session e ∧ ∀ o ∈ d.echoes e,
      CursorSafe d.screen o ∧ (o = .backspace → d.screen.hOffset ≠ 0)))
  | .print _ => inferInstanceAs (Decidable (_ ∧ _))

def unread (s : Session) : List UInt8 :=
  (s.done.drop s.delivered.length).flatMap ended ++ s.cur

def Desk.Echoed (d : Desk) : Prop :=
  (∃ pending, Buffered d.session pending) ∧
    ∃ base : Text UInt8, d.screen.Shows (base.print 80 10 (unread d.session))

/-- The echo, by the meaning of the key. -/
theorem echo_keyOf (t : Tty) (c : Nat) (x : UInt8) :
    echo t c x = match keyOf t c x with
      | .none => none
      | .backspace => if t.offset ≠ t.i then some .backspace else none
      | .enter => some (.put 10)
      | .char x => some (.put x) := by
  unfold echo keyOf
  split_ifs <;> rfl

section Unread

variable {s : Session} {pending : List (List UInt8)}

theorem unread_eq (h : Buffered s pending) :
    unread s = pending.flatMap ended ++ s.cur := by
  rw [unread, h.done, List.drop_left]

/-- The buffer is empty when everything was read. -/
theorem unread_nil_iff (h : Buffered s pending) :
    s.sched.tty.offset = s.sched.tty.i ↔ unread s = [] := by
  have hindex := h.index
  rw [← unread_eq h] at hindex
  rw [← List.length_eq_zero_iff]
  omega

/-- Enter ends the line. -/
theorem unread_enter (h : Buffered s pending) (sched : Sched) :
    unread { s.edit .enter with sched := sched } = unread s ++ [10] := by
  have hdrop : (s.done ++ [s.cur]).drop s.delivered.length = pending ++ [s.cur] := by
    rw [h.done, List.append_assoc, List.drop_left]
  rw [unread_eq h]
  simp only [unread, Session.edit, hdrop, List.flatMap_append, List.flatMap_singleton, ended,
    List.append_nil, List.append_assoc]

theorem unread_char (s : Session) (x : UInt8) (sched : Sched) :
    unread { s.edit (.char x) with sched := sched } = unread s ++ [x] := by
  simp only [unread, Session.edit, List.append_assoc]

theorem unread_backspace (hcur : s.cur ≠ []) (sched : Sched) :
    unread { s.edit .backspace with sched := sched } = (unread s).dropLast := by
  simp only [unread, Session.edit, List.dropLast_append_of_ne_nil hcur]

/-- A reader takes a line from the front. -/
theorem unread_read (h : Buffered s pending) {e : Event} {sched : Sched}
    {pending' : List (List UInt8)}
    (h' : Buffered
      { s with sched := sched, delivered := s.delivered ++ (s.sched.delivers e).toList } pending') :
    unread s = (s.sched.delivers e).toList.flatMap ended ++
      unread { s with sched := sched,
                      delivered := s.delivered ++ (s.sched.delivers e).toList } := by
  have hdone := h'.done
  dsimp only at hdone
  rw [h.done, List.append_assoc, List.append_cancel_left_eq] at hdone
  rw [unread_eq h, unread_eq h', hdone, List.flatMap_append, List.append_assoc]

end Unread

section Print

variable {t : Text UInt8} {l : List UInt8}

theorem print_snoc (l : List UInt8) (x : UInt8) :
    t.print 80 10 (l ++ [x]) = (t.print 80 10 l).put 80 10 x := by
  simp [Text.print]

theorem print_append (l r : List UInt8) :
    t.print 80 10 (l ++ r) = (t.print 80 10 l).print 80 10 r := by
  simp [Text.print]

/-- The last character is taken back, if the cursor is behind it. -/
theorem print_erase (hl : l ≠ []) (hcur : (t.print 80 10 l).cur ≠ []) :
    (t.print 80 10 l).erase = t.print 80 10 l.dropLast := by
  rw [← List.dropLast_append_getLast hl, print_snoc] at hcur ⊢
  rw [Text.erase_put hcur, List.dropLast_concat]

end Print

namespace Desk.Echoed

variable {d : Desk}

/-- A key. -/
theorem key (h : d.Echoed) {c : Nat} {x : UInt8} (hsafe : DeskSafe d (.run (.key c x)))
    {s : Session} {screen : Screen} (hs : d.session.step (.key c x) = some s)
    (hscreen : d.shown (echo d.session.sched.tty c x) = some screen) :
    Desk.Echoed { session := s, screen := screen } := by
  obtain ⟨⟨pending, hb⟩, base, hshows⟩ := h
  obtain ⟨hok, hcursor⟩ := hsafe
  refine ⟨hb.step hok hs, base, ?_⟩
  obtain ⟨t, -, rfl⟩ := Option.map_eq_some_iff.mp hs
  change ∀ o, echo d.session.sched.tty c x = some o → _ at hcursor
  rw [echo_keyOf] at hscreen hcursor
  change d.screen.Shows _ at hshows
  dsimp only
  cases hkey : keyOf d.session.sched.tty c x with
  | none =>
      simp only [hkey] at hscreen
      obtain rfl := Option.some.inj hscreen
      exact hshows
  | backspace =>
      simp only [hkey] at hscreen hcursor
      by_cases hempty : d.session.sched.tty.offset = d.session.sched.tty.i
      · -- nothing to take back
        rw [if_neg (not_not.mpr hempty)] at hscreen
        obtain rfl := Option.some.inj hscreen
        have hnil := (unread_nil_iff hb).mp hempty
        have hsame : unread { d.session.edit .backspace with sched := t } = unread d.session := by
          obtain ⟨hlines, hcur⟩ := List.append_eq_nil_iff.mp hnil
          simp only [unread, Session.edit, hcur, List.dropLast_nil]
        rwa [hsame]
      · rw [if_pos hempty] at hscreen hcursor
        obtain rfl := Option.some.inj hscreen
        obtain ⟨hsafe, hcol⟩ := hcursor _ rfl
        have hne : unread d.session ≠ [] := fun hnil => hempty ((unread_nil_iff hb).mpr hnil)
        have hcur : d.session.cur ≠ [] := by
          have hwrite := (writeTerminal_keyOf d.session.sched.tty x hok.1.1).2
          simp only [hkey] at hwrite
          intro hnil
          have hread := (hok.2 (by rw [hwrite.1]; rfl)).resolve_left (not_not.mpr hnil)
          refine hne ?_
          rw [unread, hnil, List.append_nil, List.drop_of_length_le hread.ge]
          rfl
        have hrow : (base.print 80 10 (unread d.session)).cur ≠ [] := by
          intro hnil
          refine hcol rfl ?_
          rw [hshows.col, hnil]
          rfl
        rw [unread_backspace hcur, ← print_erase hne hrow]
        exact hshows.step hsafe rfl
  | enter =>
      simp only [hkey] at hscreen hcursor
      obtain rfl := Option.some.inj hscreen
      rw [unread_enter hb, print_snoc]
      exact hshows.step (hcursor _ rfl).1 rfl
  | char x =>
      simp only [hkey] at hscreen hcursor
      obtain rfl := Option.some.inj hscreen
      rw [unread_char, print_snoc]
      exact hshows.step (hcursor _ rfl).1 rfl

/-- A step that is not a key. -/
theorem other (h : d.Echoed) {e : Event} (hkey : ∀ c x, e ≠ .key c x)
    (hok : ErasesOpenLine d.session e) {s : Session} (hs : d.session.step e = some s) :
    Desk.Echoed { d with session := s } := by
  obtain ⟨⟨pending, hb⟩, base, hshows⟩ := h
  obtain ⟨pending', hb'⟩ := hb.step hok hs
  obtain ⟨t, rfl⟩ : ∃ t, s = { d.session with
      sched := t
      delivered := d.session.delivered ++ (d.session.sched.delivers e).toList } := by
    obtain ⟨t, -, rfl⟩ := Option.map_eq_some_iff.mp hs
    cases e with
    | key c x => exact absurd rfl (hkey c x)
    | _ => exact ⟨t, rfl⟩
  refine ⟨⟨pending', hb'⟩, base.print 80 10 ((d.session.sched.delivers e).toList.flatMap ended), ?_⟩
  rw [← print_append, ← unread_read hb hb']
  exact hshows

/-- Output that is not an echo goes behind a text with nothing unread. -/
theorem print (h : d.Echoed) {o : Output} (hsafe : DeskSafe d (.print o)) {s : Screen}
    (hs : d.screen.step o = some s) : Desk.Echoed { d with screen := s } := by
  obtain ⟨⟨pending, hb⟩, base, hshows⟩ := h
  obtain ⟨hcursor, hempty⟩ := hsafe
  refine ⟨⟨pending, hb⟩, textStep (base.print 80 10 (unread d.session)) o, ?_⟩
  rw [(unread_nil_iff hb).mp hempty] at hshows ⊢
  exact hshows.step hcursor hs

theorem step (h : d.Echoed) {a : Act} (hsafe : DeskSafe d a) {d' : Desk}
    (hstep : d.step a = some d') : d'.Echoed := by
  cases a with
  | run e =>
      simp only [Desk.step, Option.bind_eq_bind, Option.bind_eq_some_iff, Option.some.injEq]
        at hstep
      obtain ⟨s, hs, screen, hscreen, rfl⟩ := hstep
      cases e with
      | key c x => exact h.key hsafe hs hscreen
      | _ =>
          obtain rfl := Option.some.inj hscreen
          exact h.other (by simp) hsafe.1 hs
  | print o =>
      obtain ⟨s, hs, rfl⟩ := Option.map_eq_some_iff.mp hstep
      exact h.print hsafe hs

end Desk.Echoed

/-- The lines of a text made of lines. -/
theorem endedLines_flatMap {pending : List (List UInt8)} {cur : List UInt8}
    (hlines : ∀ line ∈ pending, (10 : UInt8) ∉ line) (hcur : 10 ∉ cur) :
    endedLines 10 (pending.flatMap ended ++ cur) = pending := by
  induction pending with
  | nil => exact endedLines_last hcur
  | cons line rest ih =>
      rw [List.flatMap_cons, ended, List.append_assoc, List.append_assoc, List.singleton_append,
        endedLines_line (hlines line (by simp)), ih fun l hl => hlines l (by simp [hl])]

theorem buffered_emptySession : Buffered emptySession [] :=
  ⟨rfl, rfl, by simp [emptySession, Stored], rfl, by simp [emptySession, boot],
    by simp [emptySession], by decide, by decide, by decide⟩

/-- What you see is what is read. As the first process starts with a clear line buffer
and any text on the screen, whatever is typed, read and printed then (Backspace not in
the first column of a row, and nothing printed into a line that is being typed): the
text on the screen ends with exactly the characters that are in the buffer and not read
yet, and the next reader gets the first line of these. -/
theorem typed_is_shown {s : Screen} {t : Text UInt8} (hs : s.Shows t) (as : List Act) (d : Desk)
    (hrun : Run Desk.step DeskSafe { session := emptySession, screen := s } as d) :
    ∃ (base : Text UInt8) (typed : List UInt8),
      Stored d.session.sched.tty.buf d.session.sched.tty.offset typed ∧
      d.session.sched.tty.i = d.session.sched.tty.offset + typed.length ∧
      d.screen.Shows (base.print 80 10 typed) ∧
      ∀ e, d.session.sched.reads e = true →
        d.session.sched.delivers e = (endedLines 10 typed).head? := by
  have hechoed : d.Echoed := by
    refine hrun.invariant (P := Desk.Echoed) ?_ fun a e b ha hok hstep => ha.step hok hstep
    exact ⟨⟨[], buffered_emptySession⟩, t, hs⟩
  obtain ⟨⟨pending, hb⟩, base, hshows⟩ := hechoed
  rw [unread_eq hb] at hshows
  refine ⟨base, _, hb.stored, hb.index, hshows, fun e hread => ?_⟩
  rw [hb.delivers_eq hread, endedLines_flatMap hb.plain.1 hb.plain.2]

/-- The shell waits for a line, and somebody types an `a`. -/
theorem typed_is_shown_letter :
    ∃ d, Run Desk.step DeskSafe { session := emptySession, screen := bootScreen.clrscr }
      [.run (.sys .readInput), .run .resume, .run .resume, .run (.key 30 0)] d ∧
      d.session.cur = [97] ∧
      ∃ (base : Text UInt8) (typed : List UInt8),
        Stored d.session.sched.tty.buf d.session.sched.tty.offset typed ∧
        d.session.sched.tty.i = d.session.sched.tty.offset + typed.length ∧
        d.screen.Shows (base.print 80 10 typed) ∧
        ∀ e, d.session.sched.reads e = true →
          d.session.sched.delivers e = (endedLines 10 typed).head? := by
  have hexec : (Lib.exec (guarded Desk.step DeskSafe)
      { session := emptySession, screen := bootScreen.clrscr }
      [.run (.sys .readInput), .run .resume, .run .resume, .run (.key 30 0)]).any
      (fun d => d.session.cur = [97]) = true := by decide +kernel
  obtain ⟨d, hd, hcur⟩ := (Option.any_eq_true _ _).mp hexec
  have hrun := Run.guarded hd
  exact ⟨d, hrun, of_decide_eq_true hcur, typed_is_shown bootScreen.clrscr_shows _ _ hrun⟩

end X86Kernel.Dev
