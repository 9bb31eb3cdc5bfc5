import X86Kernel.Proc.Lines

/-!
Lines from the keyboard to the readers. The reference is the user's view: a
line being typed, which Backspace edits, and the lines completed so far. As long
as nobody erases in an empty line while a completed one is still unread, the
readers get exactly these lines, in order.
-/

namespace X86Kernel.Proc

open Lib

inductive Key where
  | none
  | backspace
  | enter
  | char (x : UInt8)
  deriving DecidableEq

/-- The meaning of a scan code under the modifiers pressed before it. -/
def keyOf (t : Tty) (c : Nat) (x : UInt8) : Key :=
  if c = 0 ∨ 58 < c then .none
  else if c = 14 then .backspace
  else if c = 28 then .enter
  else if c = 29 then .char (codeMapAt x c true)
  else if c = 42 ∨ c = 54 then .none
  else .char (codeMapAt x c (t.ctrl || t.caps))

/-- The line `read_input` returns in a step, if it returns. -/
def Sched.delivers (s : Sched) (e : Event) : Option (List UInt8) :=
  if s.reads e = true ∧ 0 < s.tty.noLines then
    let (_, line, found) := readLine s.tty
    if found then some line else none
  else none

/-- The machine, the user's view and the lines delivered so far. `typed` counts
the characters typed in all. -/
structure Session where
  sched : Sched
  cur : List UInt8
  done : List (List UInt8)
  delivered : List (List UInt8)
  typed : Nat

def Session.edit (s : Session) : Key → Session
  | .none => s
  | .backspace => { s with cur := s.cur.dropLast }
  | .enter => { s with cur := [], done := s.done ++ [s.cur], typed := s.typed + 1 }
  | .char x => { s with cur := s.cur ++ [x], typed := s.typed + 1 }

def Session.step (s : Session) (e : Event) : Option Session :=
  (s.sched.step e).map fun t =>
    match e with
    | .key c x => { s.edit (keyOf s.sched.tty c x) with sched := t }
    | e => { s with sched := t, delivered := s.delivered ++ (s.sched.delivers e).toList }

def SessionStart (s : Session) : Prop :=
  s = { sched := boot, cur := [], done := [], delivered := [], typed := 0 }

/-- Fewer than 4096 characters, on the keys `code_map` has. -/
def TypesBelow (s : Session) : Event → Prop
  | .key c _ => c ≠ 58 ∧ (storesKey c → s.typed + 1 < 4096)
  | _ => True

instance (s : Session) (e : Event) : Decidable (TypesBelow s e) := by
  cases e <;> unfold TypesBelow <;> infer_instance

def Event.erases : Event → Bool
  | .key c _ => c = 14
  | _ => false

/-- Backspace is pressed in a line that has a character, or when every
completed line has been read. -/
def ErasesOpenLine (s : Session) (e : Event) : Prop :=
  TypesBelow s e ∧ (e.erases = true → s.cur ≠ [] ∨ s.delivered.length = s.done.length)

instance (s : Session) (e : Event) : Decidable (ErasesOpenLine s e) :=
  inferInstanceAs (Decidable (_ ∧ _))

/-- The bytes `l` are in the buffer from `a` on. -/
def Stored (buf : Int → UInt8) (a : Int) (l : List UInt8) : Prop :=
  ∀ j < l.length, l[j]? = some (buf (a + (j : Nat)))

section Stored

variable {buf : Int → UInt8} {a : Int} {l r : List UInt8}

theorem Stored.snoc (h : Stored buf a l) (x : UInt8) :
    Stored (Function.update buf (a + l.length) x) a (l ++ [x]) := by
  intro j hj
  by_cases hlt : j < l.length
  · rw [List.getElem?_append_left hlt, Function.update_of_ne (by omega)]
    exact h j hlt
  · obtain rfl : j = l.length := by
      simp only [List.length_append, List.length_singleton] at hj
      omega
    simp

theorem Stored.pop {x : UInt8} (h : Stored buf a (l ++ [x])) (y : UInt8) :
    Stored (Function.update buf (a + l.length) y) a l := by
  intro j hj
  have hcell := h j (by simp; omega)
  rw [List.getElem?_append_left hj] at hcell
  rw [Function.update_of_ne (by omega)]
  exact hcell

theorem Stored.left (h : Stored buf a (l ++ r)) : Stored buf a l := by
  intro j hj
  have hcell := h j (by simp; omega)
  rwa [List.getElem?_append_left hj] at hcell

theorem Stored.right (h : Stored buf a (l ++ r)) : Stored buf (a + l.length) r := by
  intro j hj
  have hcell := h (l.length + j) (by simp; omega)
  rw [List.getElem?_append_right (by omega), Nat.add_sub_cancel_left] at hcell
  rw [hcell, Nat.cast_add, Int.add_assoc]

theorem Stored.clear {b c : Int} (h : Stored buf a l) (hb : b ≤ a) :
    Stored (clear buf c b) a l := by
  intro j hj
  rw [h j hj]
  unfold Proc.clear
  rw [if_neg (by omega)]

/-- The stored bytes, read back. -/
theorem Stored.map_range (h : Stored buf a l) :
    (List.range l.length).map (fun j => buf (a + (j : Nat))) = l := by
  apply List.ext_getElem?
  intro j
  by_cases hj : j < l.length
  · simp [hj, ← h j hj]
  · simp [hj]

end Stored

/-- A completed line in the buffer. -/
def ended (line : List UInt8) : List UInt8 := line ++ [10]

/-- The unread lines and the line being typed are in the buffer. -/
structure Buffered (s : Session) (pending : List (List UInt8)) : Prop where
  done : s.done = s.delivered ++ pending
  lines : s.sched.tty.noLines = pending.length
  stored : Stored s.sched.tty.buf s.sched.tty.offset (pending.flatMap ended ++ s.cur)
  index : s.sched.tty.i = s.sched.tty.offset + (pending.flatMap ended ++ s.cur).length
  blank : ∀ j, s.sched.tty.i ≤ j → s.sched.tty.buf j ≠ 10
  plain : (∀ line ∈ pending, (10 : UInt8) ∉ line) ∧ 10 ∉ s.cur
  offset : 0 ≤ s.sched.tty.offset
  typed : s.sched.tty.i ≤ s.typed
  few : s.typed < 4096

/-- No key of `code_map` but Enter stores a newline. -/
theorem codeMapAt_ne_newline (x : UInt8) {c : Nat} (k : Bool) (hc : c < 58) :
    codeMapAt x c k ≠ 10 := by
  have hrows : ∀ c < 58, ∀ k, codeMapAt 0 c k ≠ 10 := by decide
  have hrow : codeMapAt x c k = codeMapAt 0 c k := by
    have hin : c < codeMap.length := hc
    simp [codeMapAt, List.getElem?_eq_getElem hin]
  rw [hrow]
  exact hrows c hc k

/-- What `write_terminal` does, by the meaning of the key. -/
theorem writeTerminal_keyOf (t : Tty) {c : Nat} (x : UInt8) (hc : c ≠ 58) :
    let t' := (writeTerminal t c x).1
    t'.offset = t.offset ∧
    match keyOf t c x with
    | .none => storesKey c = false ∧ t'.buf = t.buf ∧ t'.i = t.i ∧ t'.noLines = t.noLines
    | .backspace => c = 14 ∧ t'.noLines = t.noLines ∧
        ((t.offset = t.i ∧ t'.buf = t.buf ∧ t'.i = t.i) ∨
          (t.offset ≠ t.i ∧ t'.buf = Function.update t.buf (t.i - 1) 0 ∧ t'.i = t.i - 1))
    | .enter => storesKey c = true ∧ t'.buf = Function.update t.buf t.i 10 ∧ t'.i = t.i + 1 ∧
        t'.noLines = t.noLines + 1
    | .char x => storesKey c = true ∧ x ≠ 10 ∧ t'.buf = Function.update t.buf t.i x ∧
        t'.i = t.i + 1 ∧ t'.noLines = t.noLines := by
  have hstore : storesKey c = true ↔ 0 < c ∧ c ≤ 58 ∧ c ≠ 14 ∧ c ≠ 42 ∧ c ≠ 54 := by
    simp [storesKey]
  rw [← Bool.not_eq_true, hstore]
  unfold writeTerminal keyOf
  split_ifs with h0 h14 hoff h28 h29 hshift
  · exact ⟨rfl, by omega, rfl, rfl, rfl⟩
  · exact ⟨rfl, h14, rfl, Or.inr ⟨hoff, rfl, rfl⟩⟩
  · exact ⟨rfl, h14, rfl, Or.inl ⟨by omega, rfl, rfl⟩⟩
  · exact ⟨rfl, by omega, rfl, rfl, rfl⟩
  · exact ⟨rfl, by omega, codeMapAt_ne_newline _ _ (by omega), rfl, rfl, rfl⟩
  · exact ⟨rfl, by omega, rfl, rfl, rfl⟩
  · exact ⟨rfl, by omega, codeMapAt_ne_newline _ _ (by omega), rfl, rfl, rfl⟩

namespace Buffered

variable {s : Session} {pending : List (List UInt8)}

/-- The next unread line is what the loop of `read_input` finds. -/
theorem readLine_eq {line : List UInt8} {rest : List (List UInt8)}
    (h : Buffered s (line :: rest)) :
    readLine s.sched.tty =
      ({ s.sched.tty with
         buf := clear s.sched.tty.buf s.sched.tty.offset (s.sched.tty.offset + line.length)
         offset := s.sched.tty.offset + line.length + 1
         noLines := s.sched.tty.noLines - 1 }, line, true) := by
  have hstored := h.stored
  have hindex := h.index
  rw [List.flatMap_cons, List.append_assoc] at hstored hindex
  have hended : Stored s.sched.tty.buf s.sched.tty.offset (line ++ [10]) := hstored.left
  have hline := hended.left
  have hnl : s.sched.tty.buf (s.sched.tty.offset + line.length) = 10 := by
    have hcell := hended line.length (by simp)
    simpa using hcell.symm
  have hroom : line.length < (4096 - s.sched.tty.offset).toNat := by
    have htyped := h.typed
    have hfew := h.few
    simp only [ended, List.length_append, List.length_singleton] at hindex
    push_cast at hindex
    omega
  have hbefore : ∀ j < line.length, s.sched.tty.buf (s.sched.tty.offset + (j : Nat)) ≠ 10 := by
    intro j hj hcon
    have hcell := hline j hj
    rw [hcon] at hcell
    exact h.plain.1 line (by simp) (List.mem_of_getElem? hcell)
  unfold readLine
  rw [readLoop_found _ _ _ _ line.length hroom hnl hbefore, hline.map_range]
  rfl

/-- A reader takes the first unread line. -/
theorem read {line : List UInt8} {rest : List (List UInt8)} (h : Buffered s (line :: rest))
    {t : Sched} (htty : t.tty = (readLine s.sched.tty).1) :
    Buffered { s with sched := t, delivered := s.delivered ++ [line] } rest := by
  have hstored := h.stored
  have hindex := h.index
  have hlines := h.lines
  have hoff := h.offset
  rw [List.flatMap_cons, List.append_assoc] at hstored hindex
  have hlen : (ended line).length = line.length + 1 := by simp [ended]
  have hrest := hstored.right
  rw [hlen] at hrest
  rw [h.readLine_eq] at htty
  refine ⟨?_, ?_, ?_, ?_, ?_, ?_, ?_, ?_, h.few⟩
  · rw [h.done]
    simp
  · rw [htty]
    simp only [List.length_cons] at hlines ⊢
    push_cast at hlines
    omega
  · rw [htty]
    have hcleared := hrest.clear (b := s.sched.tty.offset + line.length)
      (c := s.sched.tty.offset) (by push_cast; omega)
    have hpos : s.sched.tty.offset + line.length + 1 =
        s.sched.tty.offset + ((line.length + 1 : Nat) : Int) := by push_cast; ring
    simp only [hpos]
    exact hcleared
  · rw [htty]
    rw [List.length_append, hlen] at hindex
    push_cast at hindex ⊢
    omega
  · intro j hj
    rw [htty] at hj ⊢
    exact clear_ne_newline (h.blank j hj)
  · exact ⟨fun l hl => h.plain.1 l (by simp [hl]), h.plain.2⟩
  · rw [htty]
    simp only
    omega
  · rw [htty]
    exact h.typed

/-- A step that leaves the buffer alone. -/
theorem quiet (h : Buffered s pending) {t : Sched} (htty : t.tty = s.sched.tty) :
    Buffered { s with sched := t } pending := by
  refine ⟨h.done, ?_, ?_, ?_, ?_, h.plain, ?_, ?_, h.few⟩ <;> simp only [htty]
  · exact h.lines
  · exact h.stored
  · exact h.index
  · exact h.blank
  · exact h.offset
  · exact h.typed

/-- A character is stored at the end of the line being typed. -/
theorem push (h : Buffered s pending) {t : Sched} {x : UInt8} (hx : x ≠ 10)
    (hfew : s.typed + 1 < 4096) (hoff : t.tty.offset = s.sched.tty.offset)
    (hbuf : t.tty.buf = Function.update s.sched.tty.buf s.sched.tty.i x)
    (hi : t.tty.i = s.sched.tty.i + 1) (hlines : t.tty.noLines = s.sched.tty.noLines) :
    Buffered { s with sched := t, cur := s.cur ++ [x], typed := s.typed + 1 } pending := by
  have hindex := h.index
  have htyped := h.typed
  refine ⟨h.done, ?_, ?_, ?_, ?_, ⟨h.plain.1, ?_⟩, ?_, ?_, hfew⟩
  · rw [hlines, h.lines]
  · rw [hbuf, hoff, hindex, ← List.append_assoc]
    exact h.stored.snoc x
  · rw [hi, hoff, hindex]
    simp only [List.length_append, List.length_singleton]
    push_cast
    omega
  · intro j hj
    rw [hi] at hj
    rw [hbuf, Function.update_of_ne (by omega)]
    exact h.blank j (by omega)
  · simp [h.plain.2, Ne.symm hx]
  · rw [hoff]
    exact h.offset
  · rw [hi]
    push_cast
    omega

/-- Enter completes the line. -/
theorem newline (h : Buffered s pending) {t : Sched} (hfew : s.typed + 1 < 4096)
    (hoff : t.tty.offset = s.sched.tty.offset)
    (hbuf : t.tty.buf = Function.update s.sched.tty.buf s.sched.tty.i 10)
    (hi : t.tty.i = s.sched.tty.i + 1) (hlines : t.tty.noLines = s.sched.tty.noLines + 1) :
    Buffered { s with sched := t, cur := [], done := s.done ++ [s.cur], typed := s.typed + 1 }
      (pending ++ [s.cur]) := by
  have hindex := h.index
  have htyped := h.typed
  have hcontent : (pending ++ [s.cur]).flatMap ended ++ [] =
      (pending.flatMap ended ++ s.cur) ++ [10] := by
    simp [List.flatMap_append, ended]
  refine ⟨?_, ?_, ?_, ?_, ?_, ⟨?_, by simp⟩, ?_, ?_, hfew⟩
  · rw [h.done, List.append_assoc]
  · rw [hlines, h.lines]
    simp
  · rw [hcontent, hbuf, hoff, hindex]
    exact h.stored.snoc 10
  · rw [hcontent, hi, hoff, hindex]
    simp only [List.length_append, List.length_singleton]
    push_cast
    omega
  · intro j hj
    rw [hi] at hj
    rw [hbuf, Function.update_of_ne (by omega)]
    exact h.blank j (by omega)
  · intro l hl
    obtain hl | hl := List.mem_append.mp hl
    · exact h.plain.1 l hl
    · obtain rfl : l = s.cur := by simpa using hl
      exact h.plain.2
  · rw [hoff]
    exact h.offset
  · rw [hi]
    push_cast
    omega

/-- Backspace erases the last character of the line being typed. -/
theorem erase (h : Buffered s pending) (hcur : s.cur ≠ []) {t : Sched}
    (hoff : t.tty.offset = s.sched.tty.offset)
    (hbuf : t.tty.buf = Function.update s.sched.tty.buf (s.sched.tty.i - 1) 0)
    (hi : t.tty.i = s.sched.tty.i - 1) (hlines : t.tty.noLines = s.sched.tty.noLines) :
    Buffered { s with sched := t, cur := s.cur.dropLast } pending := by
  obtain ⟨cur, x, hsplit⟩ : ∃ cur x, s.cur = cur ++ [x] :=
    ⟨_, _, (List.dropLast_append_getLast hcur).symm⟩
  have hdrop : s.cur.dropLast = cur := by simp [hsplit]
  have hstored := h.stored
  have hindex := h.index
  have htyped := h.typed
  rw [hsplit, ← List.append_assoc] at hstored hindex
  have hlast : s.sched.tty.i - 1 =
      s.sched.tty.offset + ((pending.flatMap ended ++ cur).length : Nat) := by
    rw [hindex]
    simp only [List.length_append, List.length_singleton]
    push_cast
    omega
  rw [hdrop]
  refine ⟨h.done, ?_, ?_, ?_, ?_, ⟨h.plain.1, ?_⟩, ?_, ?_, h.few⟩
  · rw [hlines, h.lines]
  · rw [hbuf, hoff, hlast]
    exact hstored.pop 0
  · rw [hi, hoff, hlast]
  · intro j hj
    rw [hi] at hj
    rw [hbuf]
    by_cases hj' : j = s.sched.tty.i - 1
    · simp [hj']
    · rw [Function.update_of_ne hj']
      exact h.blank j (by omega)
  · intro hin
    exact h.plain.2 (by simp [hsplit, hin])
  · rw [hoff]
    exact h.offset
  · have hless : s.sched.tty.i - 1 ≤ s.typed := by omega
    rw [hi]
    exact hless

/-- There is an unread line exactly when `no_lines` says so. -/
theorem lines_pos (h : Buffered s pending) :
    0 < s.sched.tty.noLines ↔ pending ≠ [] := by
  rw [h.lines]
  cases pending <;> simp

/-- Every completed line has been read exactly when nothing is pending. -/
theorem length_eq (h : Buffered s pending) :
    s.delivered.length = s.done.length ↔ pending = [] := by
  rw [h.done]
  cases pending <;> simp

/-- What a reader gets. -/
theorem delivers_eq (h : Buffered s pending) {e : Event} (hread : s.sched.reads e = true) :
    s.sched.delivers e = pending.head? := by
  unfold Sched.delivers
  cases pending with
  | nil =>
      have hnone : ¬ 0 < s.sched.tty.noLines := by simp [h.lines_pos]
      rw [if_neg (fun hcon => hnone hcon.2)]
      rfl
  | cons line rest =>
      rw [if_pos ⟨hread, h.lines_pos.mpr (by simp)⟩, h.readLine_eq]
      rfl

/-- One key. -/
theorem key (h : Buffered s pending) {c : Nat} {x : UInt8} (hok : ErasesOpenLine s (.key c x))
    {t : Sched} (htty : t.tty = (writeTerminal s.sched.tty c x).1) :
    ∃ pending', Buffered { s.edit (keyOf s.sched.tty c x) with sched := t } pending' := by
  obtain ⟨⟨hc, hfew⟩, herase⟩ := hok
  have hwrite := writeTerminal_keyOf s.sched.tty x hc
  rw [← htty] at hwrite
  obtain ⟨hoff, hcase⟩ := hwrite
  cases hkey : keyOf s.sched.tty c x with
  | none =>
      simp only [hkey] at hcase
      obtain ⟨-, hbuf, hi, hlines⟩ := hcase
      refine ⟨pending, h.done, ?_, ?_, ?_, ?_, h.plain, ?_, ?_, h.few⟩ <;>
        simp only [Session.edit, hoff, hbuf, hi, hlines]
      · exact h.lines
      · exact h.stored
      · exact h.index
      · exact h.blank
      · exact h.offset
      · exact h.typed
  | backspace =>
      simp only [hkey] at hcase
      obtain ⟨rfl, hlines, ⟨hsame, hbuf, hi⟩ | ⟨hne, hbuf, hi⟩⟩ := hcase
      · -- the buffer is empty, and so is the line being typed
        have hindex := h.index
        have hempty : s.cur = [] := by
          rw [← List.length_eq_zero_iff]
          simp only [List.length_append] at hindex
          push_cast at hindex
          omega
        refine ⟨pending, h.done, ?_, ?_, ?_, ?_,
          ⟨h.plain.1, by simp [Session.edit, hempty]⟩, ?_, ?_, h.few⟩ <;>
          simp only [Session.edit, hempty, List.dropLast_nil, hoff, hbuf, hi, hlines]
        · exact h.lines
        · simpa [hempty] using h.stored
        · simpa [hempty] using h.index
        · exact h.blank
        · exact h.offset
        · exact h.typed
      · have hcur : s.cur ≠ [] := by
          intro hempty
          have hread := (herase rfl).resolve_left (fun hcon => hcon hempty)
          have hindex := h.index
          rw [h.length_eq.mp hread, hempty] at hindex
          exact hne (by simpa using hindex.symm)
        exact ⟨pending, h.erase hcur hoff hbuf hi hlines⟩
  | enter =>
      simp only [hkey] at hcase
      obtain ⟨hst, hbuf, hi, hlines⟩ := hcase
      exact ⟨_, h.newline (hfew hst) hoff hbuf hi hlines⟩
  | char x =>
      simp only [hkey] at hcase
      obtain ⟨hst, hx, hbuf, hi, hlines⟩ := hcase
      exact ⟨_, h.push hx (hfew hst) hoff hbuf hi hlines⟩

/-- One step that is not a key. -/
theorem other (h : Buffered s pending) (e : Event) {t : Sched}
    (htty : t.tty = if s.sched.reads e = true ∧ 0 < s.sched.tty.noLines then
      (readLine s.sched.tty).1 else s.sched.tty) :
    ∃ pending', Buffered
      { s with sched := t, delivered := s.delivered ++ (s.sched.delivers e).toList } pending' := by
  by_cases hread : s.sched.reads e = true
  · rw [h.delivers_eq hread]
    cases pending with
    | nil =>
        have hnone : ¬ 0 < s.sched.tty.noLines := by simp [h.lines_pos]
        rw [if_neg (fun hcon => hnone hcon.2)] at htty
        simp only [List.head?_nil, Option.toList_none, List.append_nil]
        exact ⟨[], h.quiet htty⟩
    | cons line rest =>
        rw [if_pos ⟨hread, h.lines_pos.mpr (by simp)⟩] at htty
        exact ⟨rest, h.read htty⟩
  · rw [if_neg (fun hcon => hread hcon.1)] at htty
    have hnone : s.sched.delivers e = none := if_neg (fun hcon => hread hcon.1)
    simp only [hnone, Option.toList_none, List.append_nil]
    exact ⟨pending, h.quiet htty⟩

theorem step (h : Buffered s pending) {e : Event} {s' : Session} (hok : ErasesOpenLine s e)
    (hstep : s.step e = some s') : ∃ pending', Buffered s' pending' := by
  obtain ⟨t, ht, rfl⟩ := Option.map_eq_some_iff.mp hstep
  have htty := step_tty ht
  cases e with
  | key c x => exact h.key hok htty
  | _ => exact h.other _ htty

end Buffered

/-- Terminal input is delivered line by line, in order, as long as Backspace is
pressed in a line that has a character or with nothing unread: what the readers
have got is the beginning of what the user has completed, `no_lines` counts the
rest, and the next reader gets the next line. -/
theorem lines_delivered_in_order (s : Session)
    (h : Reachable Session.step ErasesOpenLine SessionStart s) :
    s.delivered <+: s.done ∧ s.sched.tty.noLines = s.done.length - s.delivered.length ∧
      ∀ e, s.sched.reads e = true → s.sched.delivers e = s.done[s.delivered.length]? := by
  obtain ⟨pending, hb⟩ : ∃ pending, Buffered s pending := by
    refine h.invariant (P := fun s => ∃ pending, Buffered s pending) ?_ ?_
    · rintro s rfl
      exact ⟨[], rfl, rfl, by simp [Stored], rfl, by simp [boot], by simp, by decide, by decide,
        by decide⟩
    · rintro a e b ⟨pending, ha⟩ hok hstep
      exact ha.step hok hstep
  have hdone := hb.done
  refine ⟨⟨pending, hdone.symm⟩, ?_, ?_⟩
  · rw [hb.lines, hdone]
    simp
  · intro e hread
    rw [hb.delivers_eq hread, hdone]
    cases pending <;> simp

def emptySession : Session :=
  { sched := boot, cur := [], done := [], delivered := [], typed := 0 }

/-- The shell waits for a line, somebody types `a` and Enter, and it reads. -/
theorem lines_delivered_in_order_letter :
    ∃ s, Reachable Session.step ErasesOpenLine SessionStart s ∧ s.done = [[97]] ∧
      s.delivered.length = 1 ∧ s.delivered <+: s.done := by
  obtain ⟨s, hs, hp⟩ := reachable_of_guarded Session.step ErasesOpenLine emptySession
    [.sys .readInput, .resume, .resume, .key 30 0, .key 28 0, .idleYield, .resume]
    (fun s => s.done = [[97]] ∧ s.delivered.length = 1) (by decide +kernel)
  obtain ⟨hdone, hlen⟩ := of_decide_eq_true hp
  exact ⟨s, hs, hdone, hlen, (lines_delivered_in_order s hs).1⟩

/-- The shell sleeps for a second, and in the idle loop somebody types `a`, Enter,
Backspace, `b`, Enter. Backspace erases the newline of the first line, and when the
second is over the shell reads `ab`. -/
theorem unread_lines_merged :
    ¬ ∀ s, Reachable Session.step TypesBelow SessionStart s → s.delivered <+: s.done := by
  intro hall
  -- the idle loop yields after every interrupt, and the eighteenth tick ends the second
  obtain ⟨s, hs, hp⟩ := reachable_of_guarded Session.step TypesBelow emptySession
    ([.sys (.sleep 1), .resume, .resume] ++
      ([Event.key 30 0, .key 28 0, .key 14 0, .key 48 0, .key 28 0] ++
        List.replicate 17 Event.tick).flatMap (fun e => [e, .idleYield, .resume]) ++
      [.tick, .resume, .idleYield, .resume, .sys .readInput])
    (fun s => s.done = [[97], [98]] ∧ s.delivered = [[97, 98]]) (by decide +kernel)
  obtain ⟨hdone, hdelivered⟩ := of_decide_eq_true hp
  have hprefix := hall s hs
  rw [hdone, hdelivered] at hprefix
  revert hprefix
  decide

end X86Kernel.Proc
