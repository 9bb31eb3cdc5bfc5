import X86Kernel.Fs.Reading
import X86Kernel.Shell.Commands

/-!
The script branch of `main`: the file is read with one call, cut into the rows of
`cm1` at every newline, and each row is given to `parseInput`. A row is counted only
when its newline is met.
-/

namespace X86Kernel.Shell

open Lib Fs

structure Splitter where
  cm1 : Nat → Nat → UInt8
  c : Nat
  l : Nat

namespace Splitter

def start : Splitter := { cm1 := fun _ _ => 0, c := 0, l := 0 }

def store (p : Splitter) (b : UInt8) : Option (Nat → Nat → UInt8) :=
  if p.c < 20 ∧ p.l < 100 then
    some (Function.update p.cm1 p.c (Function.update (p.cm1 p.c) p.l b))
  else none

def cm (p : Splitter) (k : Nat) : List UInt8 := strAt (p.cm1 k) 100 0

end Splitter

def splitLoop : List UInt8 → Splitter → Option Splitter
  | [], p => some p
  | b :: rest, p =>
      if b = 10 then do
        let cm1 ← p.store 0
        splitLoop rest { cm1 := cm1, c := p.c + 1, l := 0 }
      else do
        let cm1 ← p.store b
        splitLoop rest { cm1 := cm1, c := p.c, l := p.l + 1 }

namespace Sbush

/-- The strings that `parseInput` is called with, from number `k` on: all of them, or
those up to the one that it does not return from. -/
def runLines (pid : Nat → Int) : Sbush → Nat → List (List UInt8) → List (List UInt8)
  | _, _, [] => []
  | s, k, line :: rest =>
      match s.parseInput line (pid k) with
      | none => [line]
      | some s => line :: s.clearLine.runLines pid (k + 1) rest

def script (A : Archive) (f : Files) (path : List UInt8) (around : Around) (pid : Nat → Int) :
    Option (List (List UInt8)) :=
  let (fp, f) := f.openTarfs A path 0 around
  if fp.ret = -1 then some []
  else do
    let buf := (f.readTarfs A fp.ret 4096).1.out
    let p ← splitLoop (buf.takeWhile (· ≠ 0)) Splitter.start
    some (start.runLines pid 0 ((List.range p.c).map p.cm))

end Sbush

/-- What is read of a file: its bytes up to a NUL, at most as many as its decoded size
says, and 4096. -/
def scriptText (byte : Nat → UInt8) (around : Around) (h : Header) : List UInt8 :=
  strAt byte (min 4096 (octalToBinary around h.size)) (h.address + 512)

structure Fits (c : Nat) (text : List UInt8) : Prop where
  rows : c + text.count 10 ≤ 20
  row : ∀ l ∈ endedLines 10 text, l.length < 100
  rest : leftover 10 text = [] ∨ c + text.count 10 < 20 ∧ (leftover 10 text).length ≤ 100

/-- Of these lines, as many as there are before a line fails, and this line. -/
structure UpToFailure (ls all : List (List UInt8)) : Prop where
  first : ls <+: all
  alive : ∀ l ∈ ls.dropLast, ¬ Fails l
  last : ls.length = all.length ∨ ∃ l, ls.getLast? = some l ∧ Fails l

section Rows

variable {p q : Splitter} {cur text : List UInt8} {c : Nat}

theorem fits_newline (hcur : (10 : UInt8) ∉ cur) (text : List UInt8) :
    Fits c (cur ++ 10 :: text) ↔ c < 20 ∧ cur.length < 100 ∧ Fits (c + 1) text := by
  have hcount : (cur ++ 10 :: text).count 10 = text.count 10 + 1 := by
    rw [List.count_append, List.count_eq_zero_of_not_mem hcur, List.count_cons_self]
    omega
  constructor
  · rintro ⟨hrows, hrow, hrest⟩
    rw [hcount] at hrows hrest
    rw [endedLines_line hcur] at hrow
    rw [leftover_line hcur] at hrest
    refine ⟨by omega, hrow cur List.mem_cons_self, by omega,
      fun l hl => hrow l (List.mem_cons_of_mem _ hl), ?_⟩
    rwa [Nat.add_assoc, Nat.add_comm 1]
  · rintro ⟨-, hlen, hrows, hrow, hrest⟩
    refine ⟨by omega, ?_, ?_⟩
    · rw [endedLines_line hcur]
      intro l hl
      obtain rfl | hl := List.mem_cons.mp hl
      · exact hlen
      · exact hrow l hl
    · rw [leftover_line hcur, hcount]
      rwa [Nat.add_assoc, Nat.add_comm 1] at hrest

/-- There is room for the next byte. -/
theorem fits_room (hcur : (10 : UInt8) ∉ cur) {b : UInt8} (hb : b ≠ 10)
    (h : Fits c (cur ++ b :: text)) : c < 20 ∧ cur.length < 100 := by
  have hnext : (10 : UInt8) ∉ cur ++ [b] := by simp [hcur, Ne.symm hb]
  rw [List.append_cons] at h
  induction text using lines_induction (d := (10 : UInt8)) with
  | last w hw =>
      have hall : (10 : UInt8) ∉ cur ++ [b] ++ w := by
        rw [List.mem_append, not_or]
        exact ⟨hnext, hw⟩
      obtain ⟨-, -, hrest⟩ := h
      rw [leftover_last hall] at hrest
      simp only [List.length_append, List.length_singleton] at hrest
      rcases hrest with hnil | hroom
      · simp at hnil
      · omega
  | line w t hw _ =>
      have hall : (10 : UInt8) ∉ cur ++ [b] ++ w := by
        rw [List.mem_append, not_or]
        exact ⟨hnext, hw⟩
      rw [← List.append_assoc] at h
      obtain ⟨hc, hlen, -⟩ := (fits_newline hall t).mp h
      simp only [List.length_append, List.length_singleton] at hlen
      omega

/-- A store into a row that begins with `cur`. -/
theorem store_spec (hcur : Holds (p.cm1 p.c) 0 cur) (hl : p.l = cur.length) (b : UInt8) :
    p.store b = none ∧ ¬ (p.c < 20 ∧ cur.length < 100) ∨ ∃ m, p.store b = some m ∧
      (p.c < 20 ∧ cur.length < 100) ∧ Holds (m p.c) 0 (cur ++ [b]) ∧
      ∀ k, k ≠ p.c → m k = p.cm1 k := by
  rw [Splitter.store, hl]
  by_cases hroom : p.c < 20 ∧ cur.length < 100
  · refine .inr ⟨_, if_pos hroom, hroom, ?_, fun k hk => Function.update_of_ne hk _ _⟩
    rw [Function.update_self]
    exact hcur.snoc (Nat.zero_add _).symm b
  · exact .inl ⟨if_neg hroom, hroom⟩

structure Rows (p q : Splitter) (text : List UInt8) : Prop where
  count : q.c = p.c + text.count 10
  kept : ∀ k < p.c, q.cm1 k = p.cm1 k
  row : ∀ k l, (endedLines 10 text)[k]? = some l → Holds (q.cm1 (p.c + k)) 0 (l ++ [0])

/-- The loop from a row on that begins with `cur`. -/
theorem splitLoop_cases (hcur : Holds (p.cm1 p.c) 0 cur) (hl : p.l = cur.length)
    (hnew : (10 : UInt8) ∉ cur)
    (hroom : p.c ≤ 20 ∧ (cur = [] ∨ p.c < 20 ∧ cur.length ≤ 100)) :
    splitLoop text p = none ∧ ¬ Fits p.c (cur ++ text) ∨
      ∃ q, splitLoop text p = some q ∧ Fits p.c (cur ++ text) ∧ Rows p q (cur ++ text) := by
  induction text generalizing p cur with
  | nil =>
      refine .inr ⟨p, rfl, ?_, ?_⟩
      · rw [List.append_nil]
        refine ⟨?_, by simp [endedLines_last hnew], ?_⟩
        · rw [List.count_eq_zero_of_not_mem hnew]
          exact hroom.1
        · rw [leftover_last hnew, List.count_eq_zero_of_not_mem hnew]
          exact hroom.2
      · rw [List.append_nil]
        refine ⟨by rw [List.count_eq_zero_of_not_mem hnew]; rfl, fun _ _ => rfl, ?_⟩
        simp [endedLines_last hnew]
  | cons b text ih =>
      by_cases hb : b = 10
      · subst hb
        rw [splitLoop, if_pos rfl, fits_newline hnew]
        rcases store_spec hcur hl 0 with ⟨hnone, hfull⟩ | ⟨m, hsome, hspace, hheld, hother⟩
        · exact .inl ⟨by rw [hnone]; rfl, fun h => hfull ⟨h.1, h.2.1⟩⟩
        · rw [hsome]
          simp only [Option.bind_eq_bind, Option.bind_some]
          rcases @ih { cm1 := m, c := p.c + 1, l := 0 } [] Holds.nil rfl (by simp)
              ⟨hspace.1, .inl rfl⟩ with ⟨hnone, hfull⟩ | ⟨q, hq, hfits, hrows⟩
          · exact .inl ⟨hnone, fun h => hfull h.2.2⟩
          · refine .inr ⟨q, hq, ⟨hspace.1, hspace.2, hfits⟩, ?_, fun k hk => ?_, fun k l hl => ?_⟩
            · rw [hrows.count, List.nil_append, List.count_append,
                List.count_eq_zero_of_not_mem hnew, List.count_cons_self]
              change p.c + 1 + _ = _
              omega
            · rw [hrows.kept k (Nat.lt_succ_of_lt hk)]
              exact hother k (Nat.ne_of_lt hk)
            · rw [endedLines_line hnew] at hl
              cases k with
              | zero =>
                  obtain rfl := Option.some.inj hl
                  rw [Nat.add_zero, hrows.kept p.c (Nat.lt_succ_self _)]
                  exact hheld
              | succ k =>
                  have hrow := hrows.row k l hl
                  rwa [show p.c + 1 + k = p.c + (k + 1) by omega] at hrow
      · rw [splitLoop, if_neg hb]
        rcases store_spec hcur hl b with ⟨hnone, hfull⟩ | ⟨m, hsome, hspace, hheld, hother⟩
        · exact .inl ⟨by rw [hnone]; rfl, fun h => hfull (fits_room hnew hb h)⟩
        · rw [hsome, List.append_cons]
          simp only [Option.bind_eq_bind, Option.bind_some]
          rcases @ih { cm1 := m, c := p.c, l := p.l + 1 } (cur ++ [b]) hheld (by simp [hl])
              (by simp [hnew, Ne.symm hb])
              ⟨Nat.le_of_lt hspace.1, .inr ⟨hspace.1, by simpa using hspace.2⟩⟩ with
            hnone | ⟨q, hq, hfits, hrows⟩
          · exact .inl hnone
          · refine .inr ⟨q, hq, hfits, hrows.count, fun k hk => ?_, hrows.row⟩
            rw [hrows.kept k hk]
            exact hother k (Nat.ne_of_lt hk)

/-- The strings in the rows. -/
theorem Rows.lines_eq (h : Rows Splitter.start q text) (hfits : Fits 0 text)
    (hnul : (0 : UInt8) ∉ text) : (List.range q.c).map q.cm = endedLines 10 text := by
  have hcount : q.c = (endedLines 10 text).length := by
    rw [h.count, length_endedLines]
    exact Nat.zero_add _
  refine List.ext_getElem (by simp [hcount]) fun k hk hk' => ?_
  have hheld := h.row k _ (List.getElem?_eq_getElem hk')
  have hmem : (endedLines 10 text)[k] ∈ endedLines 10 text := List.getElem_mem hk'
  rw [List.getElem_map, List.getElem_range, Splitter.cm]
  rw [show Splitter.start.c + k = k from Nat.zero_add k] at hheld
  exact hheld.strAt (fun hzero => hnul ((sublist_of_mem_endedLines hmem).subset hzero))
    (hfits.row _ hmem)

end Rows

section Run

variable {ls all : List (List UInt8)} {line : List UInt8}

theorem upToFailure_nil : UpToFailure ls [] ↔ ls = [] := by
  constructor
  · exact fun h => List.prefix_nil.mp h.first
  · rintro rfl
    exact ⟨List.nil_prefix, by simp, .inl rfl⟩

theorem upToFailure_fails (h : Fails line) : UpToFailure ls (line :: all) ↔ ls = [line] := by
  constructor
  · rintro ⟨hfirst, halive, hlast⟩
    cases ls with
    | nil =>
        rcases hlast with hlen | ⟨l, hl, -⟩
        · simp at hlen
        · simp at hl
    | cons x ls =>
        obtain ⟨rfl, -⟩ := List.cons_prefix_cons.mp hfirst
        cases ls with
        | nil => rfl
        | cons y ls => exact absurd h (halive x (by simp))
  · rintro rfl
    exact ⟨by simp, by simp, .inr ⟨line, rfl, h⟩⟩

theorem upToFailure_alive (h : ¬ Fails line) :
    UpToFailure ls (line :: all) ↔ ∃ rest, ls = line :: rest ∧ UpToFailure rest all := by
  constructor
  · rintro ⟨hfirst, halive, hlast⟩
    cases ls with
    | nil =>
        rcases hlast with hlen | ⟨l, hl, -⟩
        · simp at hlen
        · simp at hl
    | cons x rest =>
        obtain ⟨rfl, hrest⟩ := List.cons_prefix_cons.mp hfirst
        refine ⟨rest, rfl, hrest, fun l hl => halive l ?_, ?_⟩
        · rw [List.dropLast_cons_of_ne_nil (List.ne_nil_of_mem (List.mem_of_mem_dropLast hl))]
          exact List.mem_cons_of_mem _ hl
        · rcases hlast with hlen | ⟨l, hl, hfails⟩
          · exact .inl (by simpa using hlen)
          · cases rest with
            | nil =>
                obtain rfl : x = l := by simpa using hl
                exact absurd hfails h
            | cons y rest => exact .inr ⟨l, by simpa using hl, hfails⟩
  · rintro ⟨rest, rfl, hfirst, halive, hlast⟩
    refine ⟨by simpa using hfirst, fun l hl => ?_, ?_⟩
    · cases rest with
      | nil => simp at hl
      | cons y rest =>
          rw [List.dropLast_cons_of_ne_nil (List.cons_ne_nil _ _)] at hl
          obtain rfl | hl := List.mem_cons.mp hl
          · exact h
          · exact halive l hl
    · rcases hlast with hlen | ⟨l, hl, hfails⟩
      · exact .inl (by simp [hlen])
      · refine .inr ⟨l, ?_, hfails⟩
        rw [List.getLast?_cons, hl]
        rfl

/-- What `parseInput` is called with, when the strings are short enough for it. -/
theorem runLines_iff (pid : Nat → Int) {s : Sbush} (hready : Ready s.args 0) {k : Nat}
    (hall : ∀ line ∈ all, ((10 : UInt8) ∉ line ∧ (0 : UInt8) ∉ line) ∧ line.length < 999) :
    s.runLines pid k all = ls ↔ UpToFailure ls all := by
  induction all generalizing s k ls with
  | nil => rw [Sbush.runLines, upToFailure_nil, eq_comm]
  | cons line rest ih =>
      obtain ⟨htext, hlen⟩ := hall line List.mem_cons_self
      rw [Sbush.runLines]
      rcases parseInput_cases (pid k) htext hready with
        ⟨hnone, hwhy⟩ | ⟨t, hsome, hok, -⟩
      · have hfails : Fails line := hwhy.resolve_right (by omega)
        rw [hnone, upToFailure_fails hfails, eq_comm]
      · rw [hsome, upToFailure_alive hok]
        have hrest : t.clearLine.runLines pid (k + 1) rest = ls.tail ↔ UpToFailure ls.tail rest :=
          ih (clearArguments_ready _) fun l hl => hall l (List.mem_cons_of_mem _ hl)
        constructor
        · rintro rfl
          exact ⟨_, rfl, hrest.mp rfl⟩
        · rintro ⟨more, rfl, hmore⟩
          exact congrArg (line :: ·) (hrest.mpr hmore)

end Run

/-- The text begins with the whole script, whose last line ended too, and fits into the
rows; no line of the script but the last fails, and behind it there is no line that
ended, or none is reached. -/
structure RunsWhole (body text : List UInt8) : Prop where
  whole : joined 10 (lines 10 body) <+: text
  fits : Fits 0 text
  alive : ∀ l ∈ (lines 10 body).dropLast, ¬ Fails l
  last : (lines 10 body).length = text.count 10 ∨ ∃ l, (lines 10 body).getLast? = some l ∧ Fails l

theorem runsWhole_iff (body text : List UInt8) :
    RunsWhole body text ↔ Fits 0 text ∧ UpToFailure (lines 10 body) (endedLines 10 text) := by
  have hfirst : joined 10 (lines 10 body) <+: text ↔ lines 10 body <+: endedLines 10 text :=
    joined_prefix_iff fun l hl => notMem_of_mem_lines hl
  constructor
  · rintro ⟨hwhole, hfits, halive, hlast⟩
    exact ⟨hfits, hfirst.mp hwhole, halive, by rwa [length_endedLines]⟩
  · rintro ⟨hfits, hwhole, halive, hlast⟩
    exact ⟨hfirst.mpr hwhole, hfits, halive, by rwa [length_endedLines] at hlast⟩

/-- A script that is read as it is, and has not too many lines or too long ones. -/
theorem runsWhole_self {body : List UInt8} (hfew : (lines 10 body).length ≤ 20)
    (hshort : ∀ l ∈ lines 10 body, l.length < 100) :
    RunsWhole body body ↔ leftover 10 body = [] ∧ ∀ l ∈ (lines 10 body).dropLast, ¬ Fails l := by
  rw [runsWhole_iff]
  constructor
  · rintro ⟨-, hfirst, halive, -⟩
    refine ⟨?_, halive⟩
    by_contra hrest
    have hlen := hfirst.length_le
    rw [lines, if_neg hrest, List.length_append, List.length_singleton] at hlen
    omega
  · rintro ⟨hrest, halive⟩
    have hlines : lines 10 body = endedLines 10 body := by rw [lines, if_pos hrest]
    rw [hlines] at hfew hshort halive ⊢
    refine ⟨⟨?_, hshort, .inl hrest⟩, List.prefix_refl _, halive, .inl rfl⟩
    rw [← length_endedLines]
    omega

section Script

variable {A : Archive} {f : Files} {path : List UInt8} {h : Header} {around : Around}

/-- `buf` up to its first NUL. -/
theorem takeWhile_strAt (byte : Nat → UInt8) (n a : Nat) :
    ((List.range n).map (fun i => byte (a + i)) ++ [0]).takeWhile (· ≠ 0) = strAt byte n a := by
  induction n generalizing a with
  | zero => rfl
  | succ n ih =>
      have hshift : ((fun i => byte (a + i)) ∘ Nat.succ) = fun i => byte (a + 1 + i) := by
        funext i
        rw [Function.comp_apply, Nat.succ_eq_add_one, Nat.add_comm i, ← Nat.add_assoc]
      rw [List.range_succ_eq_map, List.map_cons, List.map_map, hshift, List.cons_append,
        List.takeWhile_cons, ih, strAt, Nat.add_zero]
      by_cases hzero : byte a = 0
      · simp [hzero]
      · simp [hzero]

/-- The strings that are passed, when the file was found. -/
theorem script_iff (hopen : f.openTarfs A path 0 around = f.install h (some 0) around)
    (hfd : 0 ≤ f.fdC) (pid : Nat → Int) (ls : List (List UInt8)) :
    Sbush.script A f path around pid = some ls ↔ Fits 0 (scriptText A.byte around h) ∧
      UpToFailure ls (endedLines 10 (scriptText A.byte around h)) := by
  have hret : (f.install h (some 0) around).1.ret = f.fdC + 3 := rfl
  have hfile : (f.install h (some 0) around).2.fd (f.fdC + 3) =
      { f.fd (f.fdC + 3) with
        fileName := h.name, flags := 0, entry := 0, aval := 1,
        size := octalToBinary around h.size, address := h.address, fd := f.fdC + 3 } :=
    Function.update_self _ _ _
  have hbuf :
      ((f.install h (some 0) around).2.readTarfs A (f.fdC + 3) 4096).1.out.takeWhile (· ≠ 0) =
        scriptText A.byte around h := by
    have hmin : (min (4096 : Int) (octalToBinary around h.size)).toNat =
        min 4096 (octalToBinary around h.size) := by omega
    rw [readTarfs_open (by rw [hfile]) (by decide) (by decide), hfile, takeWhile_strAt, hmin]
    rfl
  have hnul : (0 : UInt8) ∉ scriptText A.byte around h := zero_not_mem_strAt _ _ _
  rw [Sbush.script, hopen]
  simp only [hret, hbuf, if_neg (show f.fdC + 3 ≠ -1 by omega), Option.bind_eq_bind]
  rcases @splitLoop_cases Splitter.start [] (scriptText A.byte around h) Holds.nil rfl (by simp)
      ⟨by decide, .inl rfl⟩ with ⟨hnone, hfull⟩ | ⟨q, hq, hfits, hrows⟩
  · rw [hnone]
    exact ⟨fun hcase => by simp at hcase, fun hcase => absurd hcase.1 hfull⟩
  · rw [List.nil_append] at hrows
    have hfits : Fits 0 (scriptText A.byte around h) := hfits
    rw [hq, Option.bind_some, hrows.lines_eq hfits hnul, Option.some.injEq]
    rw [runLines_iff pid (initargs_ready _) fun line hline => ?_]
    · exact ⟨fun hcase => ⟨hfits, hcase⟩, fun hcase => hcase.2⟩
    · have hlen := hfits.row line hline
      refine ⟨⟨notMem_of_mem_splitOn (List.mem_of_mem_dropLast hline), fun hzero => ?_⟩, by omega⟩
      exact hnul ((sublist_of_mem_endedLines hline).subset hzero)

end Script

/-- Exactly the lines of a script are run, if and only if its last line ended as well,
all of it is read and fits, and no line but the last fails. -/
theorem script_runs_iff (ms : List Member) (z start : Nat) (byte : Nat → UInt8) (A : Archive)
    (hms : ms.length ≤ 199) (hz : 2 ≤ z ∧ z ≤ 20) (himage : Holds byte start (image ms z))
    (hA : initTarfs byte start (start + (image ms z).length) = some A) (i : Nat) (m : Member)
    (hi : i < 32) (hm : ms[i]? = some m)
    (hfirst : ∀ j m', j < i → ms[j]? = some m' → m'.name ≠ m.name) (f : Files)
    (hfd : 0 ≤ f.fdC) (path : List UInt8) (hpath : setTruePath f.currDir path = m.name)
    (around : Around) (pid : Nat → Int) :
    Sbush.script A f path around pid = some (lines 10 m.body) ↔
      RunsWhole m.body (scriptText byte around (headerAt byte (start + offset ms i))) := by
  obtain ⟨hopen, -⟩ := openTarfs_member hms hz himage hA hi hm hfirst hpath 0 around
  have hbyte : A.byte = byte := by
    rw [initTarfs_image hms ⟨by omega, hz.2⟩ himage] at hA
    obtain rfl := Option.some.inj hA
    rfl
  rw [script_iff hopen hfd, hbyte, runsWhole_iff]

/-- What is read of a script without NUL that is filled up with NULs. -/
theorem scriptText_padded {byte : Nat → UInt8} {start : Nat} {m : Member}
    (h : Holds byte start m.bytes) (hrest : m.rest.head? = some 0) (hpad : m.pad.head? = some 0)
    (hnul : (0 : UInt8) ∉ m.body) (around : Around) : scriptText byte around (headerAt byte start) =
      m.body.take (min 4096 (octalToBinary around (octal m.size))) := by
  obtain ⟨pad, hpads⟩ : ∃ pad, m.pad = 0 :: pad := by
    cases hp : m.pad with
    | nil => simp [hp] at hpad
    | cons x pad => exact ⟨pad, by simpa [hp] using hpad⟩
  have hbody := h.right (b := start + 512) (by rw [Member.header_length])
  rw [hpads, List.append_cons] at hbody
  rw [scriptText, Member.headerAt_size h.left hrest]
  exact hbody.left.strAt_take hnul _

/-- A script of some bytes that fits into one block. -/
def scriptFile (body : List UInt8) (hbody : 0 < body.length ∧ body.length < 512) : Member :=
  { oneByte with
    size := body.length
    body := body
    pad := List.replicate (512 - body.length) 0
    size_lt := by omega
    body_length := rfl
    pad_length := by rw [List.length_replicate]; omega }

/-- The script `ls`, with a newline and without. -/
def lsLine : Member := scriptFile [108, 115, 10] (by decide)
def lsOnly : Member := scriptFile [108, 115] (by decide)

theorem script_runs_iff_ls :
    ∃ (byte : Nat → UInt8) (A : Archive),
      initTarfs byte 4096 (4096 + (image [lsLine] 2).length) = some A ∧
      ∀ around, Sbush.script A bootUsage.sys.cur [47, 97] around (fun _ => 2) =
        some [[108, 115]] := by
  have himage := holds_imageAt 4096 [lsLine] 2
  have hA := initTarfs_image (by decide) (by decide) himage
  have hlines : lines 10 lsLine.body = [[108, 115]] := by decide
  have htext (around : Around) : scriptText (imageAt 4096 [lsLine] 2) around
      (headerAt (imageAt 4096 [lsLine] 2) 4096) = lsLine.body := by
    have hsize : min 4096 (octalToBinary zeros (octal 3)) = 11 := by decide +kernel
    rw [scriptText_padded (m := lsLine) himage.left.left rfl rfl (by decide)]
    change List.take (min 4096 (octalToBinary around (octal 3))) _ = _
    rw [octalToBinary_inTable (octal_isOctal 3) (by decide +kernel), hsize]
    rfl
  have hruns : RunsWhole lsLine.body lsLine.body :=
    (runsWhole_self (by decide) (by decide)).mpr ⟨by decide, by simp [hlines]⟩
  refine ⟨_, _, hA, fun around => hlines ▸ (script_runs_iff [lsLine] 2 4096 _ _ (by decide)
    (by decide) himage hA 0 lsLine (by decide) rfl (by simp) bootUsage.sys.cur (by decide) [47, 97]
    (by decide +kernel) around fun _ => 2).mpr ?_⟩
  rw [show offset [lsLine] 0 = 0 from rfl, Nat.add_zero, htext]
  exact hruns

/-- Without the newline the line is not run. -/
theorem script_drops_line : ¬ ∃ around, ∀ (ms : List Member) (z start : Nat) (byte : Nat → UInt8)
    (A : Archive), ms.length ≤ 199 → 2 ≤ z ∧ z ≤ 20 → Holds byte start (image ms z) →
    initTarfs byte start (start + (image ms z).length) = some A → ∀ (i : Nat) (m : Member),
    i < 32 → ms[i]? = some m → (∀ j m', j < i → ms[j]? = some m' → m'.name ≠ m.name) →
    ∀ (f : Files), 0 ≤ f.fdC → ∀ path : List UInt8, setTruePath f.currDir path = m.name →
    ∀ pid : Nat → Int, (lines 10 m.body).length ≤ 20 → (∀ l ∈ lines 10 m.body, l.length < 100) →
      m.body.length < 4096 → Sbush.script A f path around pid = some (lines 10 m.body) := by
  rintro ⟨around, hall⟩
  have himage := holds_imageAt 4096 [lsOnly] 2
  have hA := initTarfs_image (by decide) (by decide) himage
  have hpath : setTruePath bootUsage.sys.cur.currDir [47, 97] = [97] := by decide +kernel
  have hrun := hall [lsOnly] 2 4096 _ _ (by decide) (by decide) himage hA 0 lsOnly (by decide) rfl
    (by simp) bootUsage.sys.cur (by decide) [47, 97] hpath (fun _ => 2) (by decide) (by decide)
    (by decide)
  obtain ⟨hopen, -⟩ := openTarfs_member (m := lsOnly) (by decide) (by decide) himage hA
    (by decide : 0 < 32) rfl (by simp) hpath 0 around
  rw [show offset [lsOnly] 0 = 0 from rfl, Nat.add_zero] at hopen
  have hpassed := ((script_iff hopen (by decide) _ _).mp hrun).2
  dsimp only at hpassed
  have htext : scriptText (imageAt 4096 [lsOnly] 2) around
      (headerAt (imageAt 4096 [lsOnly] 2) 4096) <+: lsOnly.body := by
    rw [scriptText_padded (m := lsOnly) himage.left.left rfl rfl (by decide)]
    exact List.take_prefix _ _
  have hread := (joined_prefix_iff fun l hl => notMem_of_mem_lines hl).mpr hpassed.first
  have hshort : ¬ joined 10 (lines 10 lsOnly.body) <+: lsOnly.body := by decide
  exact hshort (hread.trans htext)

end X86Kernel.Shell
