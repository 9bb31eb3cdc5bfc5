import X86Kernel.Proc.Task

/-!
The line buffer of `terminal.c`: the keyboard interrupt `write_terminal` fills
`buf` at index `i`, `read_input` consumes it from `offset`. The echo on the
screen is left out. Indices are integers and `buf` is total, so an index
outside the C array is visible in the model instead of being an error.
-/

namespace X86Kernel.Proc

structure Tty where
  buf : Int → UInt8
  i : Int
  offset : Int
  caps : Bool
  ctrl : Bool
  noLines : Int

/-- `code_map`, without and with shift, indexed by scan code. -/
def codeMap : List (Nat × Nat) :=
  [(0, 0), (0, 0), (49, 33), (50, 64), (51, 35), (52, 36), (53, 37), (54, 94),
   (55, 38), (56, 42), (57, 40), (48, 41), (45, 95), (61, 43), (8, 8), (9, 9),
   (113, 81), (119, 87), (101, 69), (114, 82), (116, 84), (121, 89), (117, 85),
   (105, 73), (111, 79), (112, 80), (91, 123), (93, 125), (94, 77), (32, 94),
   (97, 65), (115, 83), (100, 68), (102, 70), (103, 71), (104, 72), (106, 74),
   (107, 75), (108, 76), (59, 58), (39, 34), (96, 126), (0, 0), (92, 124),
   (122, 90), (120, 88), (99, 67), (118, 86), (98, 66), (110, 78), (109, 77),
   (44, 60), (46, 62), (47, 63), (0, 0), (0, 0), (0, 0), (32, 32)]

/-- `code_map[c][k]`. The filter lets scan code 58 through, one past the last
row, where the byte `x` is read. -/
def codeMapAt (x : UInt8) (c : Nat) (k : Bool) : UInt8 :=
  match codeMap[c]? with
  | some row => UInt8.ofNat (if k then row.2 else row.1)
  | none => x

def Tty.push (t : Tty) (x : UInt8) : Tty :=
  { t with buf := Function.update t.buf t.i x, i := t.i + 1 }

/-- `write_terminal` on the scan code `c` read from the port, with what stands
behind `code_map`. The flag says that Enter was pressed, in which case the C code
calls `wake_process`. -/
def writeTerminal (t : Tty) (c : Nat) (x : UInt8) : Tty × Bool :=
  if c = 0 ∨ 58 < c then (t, false)
  else if c = 14 then
    if t.offset ≠ t.i then
      ({ t with buf := Function.update t.buf (t.i - 1) 0, i := t.i - 1 }, false)
    else (t, false)
  else if c = 28 then
    ({ t.push 10 with noLines := t.noLines + 1 }, true)
  else if c = 29 then
    ({ t.push (codeMapAt x c true) with ctrl := true }, false)
  else if c = 42 ∨ c = 54 then ({ t with caps := true }, false)
  else
    -- a key after Ctrl is taken from the shifted column
    let caps := t.ctrl || t.caps
    ({ t.push (codeMapAt x c caps) with ctrl := false, caps := false }, false)

/-- The `for` loop of `read_input` from index `i`, with `n` iterations left:
the bytes handed to the caller and whether a newline was found. -/
def readLoop : Nat → Tty → Int → List UInt8 → Tty × List UInt8 × Bool
  | 0, t, _, line => (t, line.reverse, false)
  | n + 1, t, i, line =>
      if t.buf i = 10 then
        ({ t with offset := i + 1, noLines := t.noLines - 1 }, line.reverse, true)
      else
        readLoop n { t with buf := Function.update t.buf i 0 } (i + 1) (t.buf i :: line)

/-- The loop as `read_input` enters it: `for (i = getoffset(); i < 4096; ...)`. -/
def readLine (t : Tty) : Tty × List UInt8 × Bool :=
  readLoop (4096 - t.offset).toNat t t.offset []

/-- `wake_process`: the first sleeper runs. -/
def wakeProcess (q : Table) : Table :=
  match slots.find? fun i => (q i).state = .sleeping with
  | some i => q.setState i .running
  | none => q

/-- `wake_process` leaves the table alone or runs one sleeping slot. -/
theorem wakeProcess_cases (q : Table) :
    wakeProcess q = q ∨
      ∃ i, (q i).state = .sleeping ∧ wakeProcess q = q.setState i .running := by
  unfold wakeProcess
  cases h : slots.find? fun i => (q i).state = .sleeping with
  | none => exact Or.inl rfl
  | some i => exact Or.inr ⟨i, by simpa using List.find?_some h, rfl⟩

@[simp] theorem wakeProcess_pid (q : Table) (j : Nat) :
    (wakeProcess q j).pid = (q j).pid := by
  rcases wakeProcess_cases q with h | ⟨i, _, h⟩ <;> simp [h]

@[simp] theorem wakeProcess_ppid (q : Table) (j : Nat) :
    (wakeProcess q j).ppid = (q j).ppid := by
  rcases wakeProcess_cases q with h | ⟨i, _, h⟩ <;> simp [h]

theorem wakeProcess_state (q : Table) (j : Nat) :
    (wakeProcess q j).state = (q j).state ∨
      ((q j).state = .sleeping ∧ (wakeProcess q j).state = .running) := by
  rcases wakeProcess_cases q with h | ⟨i, hsleep, h⟩
  · exact Or.inl (by rw [h])
  · rw [h, Table.setState_state]
    split_ifs with hj
    · subst hj
      exact Or.inr ⟨hsleep, rfl⟩
    · exact Or.inl rfl

end X86Kernel.Proc
