import X86Kernel.Lib.Bytes

/-!
How the shell splits a line into arguments (`sbush.c`). One loop copies the line
into the rows of `arg`, going to the next row at every delimiter; the space at the
very beginning is the only one it skips. A pointer of `args` is NULL, or the number
of its row. `none` is a store outside of the arrays or through NULL.
-/

namespace X86Kernel.Shell

open Lib

structure Args where
  arg : Nat → Nat → UInt8
  strs : Nat → Option Nat
  isBackground : Int

namespace Args

def put (s : Args) (i j : Nat) (c : UInt8) : Option Args :=
  if i < 1000 ∧ j < 1000 then
    (s.strs i).map fun row =>
      { s with arg := Function.update s.arg row (Function.update (s.arg row) j c) }
  else none

def setNull (s : Args) (i : Nat) : Option Args :=
  if i < 1000 then some { s with strs := Function.update s.strs i none } else none

def start : Args := { arg := fun _ _ => 0, strs := fun _ => none, isBackground := 0 }

def str (s : Args) (row : Nat) : List UInt8 := strAt (s.arg row) 1000 0

/-- The end of a token, which is taken out when it is `&`. -/
def close (s : Args) (i j : Nat) : Option Args := do
  let s ← s.put i j 0
  let row ← s.strs i
  if s.str row = [38] then setNull { s with isBackground := 1 } i else some s

end Args

/-- The loop of `setStringTokens` from `str[k]` on. -/
def tokenLoop (delimiter : UInt8) : List UInt8 → Nat → Nat → Nat → Args → Option Args
  | [], _, i, j, s => do
      let s ← s.close i j
      let s ← if j = 0 then s.setNull i else some s
      s.setNull (i + 1)
  | c :: rest, k, i, j, s =>
      if c = 10 then some s
      else if k = 0 ∧ c = 32 then tokenLoop delimiter rest (k + 1) i j s
      else if c = delimiter then do
        let s ← s.close i j
        tokenLoop delimiter rest (k + 1) (i + 1) 0 s
      else if c = 34 ∧ delimiter = 61 then tokenLoop delimiter rest (k + 1) i j s
      else do
        let s ← s.put i j c
        tokenLoop delimiter rest (k + 1) i (j + 1) s

def setStringTokens (str : List UInt8) (delimiter : UInt8) (s : Args) : Option Args :=
  tokenLoop delimiter str 0 0 0 s

def clearArguments (s : Args) : Args :=
  { s with arg := fun _ _ => 0, strs := fun i => if i < 1000 then some i else none }

/-- The pointers, set once before the first line. -/
def initargs (s : Args) : Args :=
  { s with strs := fun i => if i < 1000 then some i else none }

def parseInput (input : List UInt8) (s : Args) : Option Args := do
  let s ← setStringTokens input 124 s
  if s.strs 1 = none then setStringTokens input 32 (clearArguments s) else some s

def trimmed (input : List UInt8) : List UInt8 :=
  if input.head? = some 32 then input.drop 1 else input

def fields (delimiter : UInt8) (input : List UInt8) : List (List UInt8) :=
  (trimmed input).splitOn delimiter

/-- Every pointer from number `i` on is where `clearArguments` puts it. -/
def Ready (s : Args) (i : Nat) : Prop := ∀ d, i ≤ d → d < 1000 → s.strs d = some d

theorem initargs_ready (s : Args) : Ready (initargs s) 0 := fun _ _ hd => if_pos hd

theorem clearArguments_ready (s : Args) : Ready (clearArguments s) 0 := fun _ _ hd => if_pos hd

/-- The fields stand in the rows from `i` on. The pointers to `&` and to an empty
last field are NULL, and so is the one behind. -/
structure Filled (s s' : Args) (i : Nat) (fs : List (List UInt8)) : Prop where
  kept : ∀ d < i, s'.strs d = s.strs d ∧ s'.arg d = s.arg d
  row : ∀ d f, fs[d]? = some f → Holds (s'.arg (i + d)) 0 (f ++ [0]) ∧
    s'.strs (i + d) = if f = [38] ∨ f = [] ∧ d + 1 = fs.length then none else some (i + d)
  stop : s'.strs (i + fs.length) = none
  background : s'.isBackground = if [38] ∈ fs then 1 else s.isBackground

section Loop

variable {s : Args} {i : Nat} {w : List UInt8}

/-- One more character of a token. -/
theorem put_spec (hi : i < 1000) (hptr : s.strs i = some i) (hlen : w.length < 1000)
    (hw : Holds (s.arg i) 0 w) (c : UInt8) :
    ∃ s', s.put i w.length c = some s' ∧ Holds (s'.arg i) 0 (w ++ [c]) ∧ s'.strs = s.strs ∧
      s'.isBackground = s.isBackground ∧ ∀ d, d ≠ i → s'.arg d = s.arg d := by
  have hput : s.put i w.length c = some
      { s with arg := Function.update s.arg i (Function.update (s.arg i) w.length c) } := by
    rw [Args.put, if_pos ⟨hi, hlen⟩, hptr, Option.map_some]
  refine ⟨_, hput, ?_, rfl, rfl, fun d hd => Function.update_of_ne hd _ _⟩
  simp only [Function.update_self]
  exact hw.snoc (Nat.zero_add _).symm c

/-- The end of a token. -/
theorem close_spec (hi : i < 1000) (hptr : s.strs i = some i) (hlen : w.length < 1000)
    (hw : Holds (s.arg i) 0 w) (hnul : (0 : UInt8) ∉ w) :
    ∃ s', s.close i w.length = some s' ∧ Holds (s'.arg i) 0 (w ++ [0]) ∧
      s'.strs i = (if w = [38] then none else some i) ∧
      s'.isBackground = (if w = [38] then 1 else s.isBackground) ∧
      ∀ d, d ≠ i → s'.strs d = s.strs d ∧ s'.arg d = s.arg d := by
  obtain ⟨s₁, hput, hrow, hstrs, hback, hother⟩ := put_spec hi hptr hlen hw 0
  have hstr : s₁.str i = w := hrow.strAt hnul hlen
  have hclose : s.close i w.length =
      if w = [38] then
        some { s₁ with isBackground := 1, strs := Function.update s₁.strs i none }
      else some s₁ := by
    simp [Args.close, hput, hstrs, hptr, hstr, Args.setNull, hi]
  rw [hclose]
  split_ifs with hand
  · refine ⟨_, rfl, hrow, by simp, rfl, fun d hd => ⟨?_, hother d hd⟩⟩
    simp [Function.update_of_ne hd, hstrs]
  · exact ⟨s₁, rfl, hrow, by rw [hstrs, hptr], hback, fun d hd => ⟨by rw [hstrs], hother d hd⟩⟩

/-- The field that is read last. -/
theorem tokenLoop_nil {delimiter : UInt8} {k : Nat} (hi : i + 1 < 1000) (hptr : s.strs i = some i)
    (hlen : w.length < 1000) (hw : Holds (s.arg i) 0 w) (hnul : (0 : UInt8) ∉ w) :
    ∃ s', tokenLoop delimiter [] k i w.length s = some s' ∧ Filled s s' i [w] := by
  obtain ⟨s₁, hclose, hrow, hptr₁, hback, hother⟩ := close_spec (by omega) hptr hlen hw hnul
  obtain ⟨strs, hloop, hlast, hbefore, hstop⟩ : ∃ strs,
      tokenLoop delimiter [] k i w.length s = some { s₁ with strs := strs } ∧
        strs i = (if w = [38] ∨ w = [] then none else some i) ∧
        (∀ d < i, strs d = s₁.strs d) ∧ strs (i + 1) = none := by
    rw [tokenLoop, hclose]
    by_cases hempty : w = []
    · refine ⟨Function.update (Function.update s₁.strs i none) (i + 1) none, ?_, ?_, ?_, ?_⟩
      · simp [hempty, Args.setNull, show i < 1000 by omega, hi]
      · simp [hempty]
      · intro d hd
        rw [Function.update_of_ne (by omega), Function.update_of_ne (by omega)]
      · simp
    · refine ⟨Function.update s₁.strs (i + 1) none, ?_, ?_, ?_, ?_⟩
      · simp [hempty, Args.setNull, hi]
      · simp [hempty, hptr₁]
      · intro d hd
        rw [Function.update_of_ne (by omega)]
      · simp
  refine ⟨_, hloop, fun d hd => ?_, fun d f hf => ?_, hstop, ?_⟩
  · obtain ⟨hs, ha⟩ := hother d (by omega)
    exact ⟨(hbefore d hd).trans hs, ha⟩
  · obtain ⟨rfl, rfl⟩ : d = 0 ∧ w = f := by
      cases d with
      | zero => exact ⟨rfl, by simpa using hf⟩
      | succ d => simp at hf
    exact ⟨by simpa using hrow, by simpa using hlast⟩
  · simp only [hback, List.mem_singleton, eq_comm]

/-- A field in front of the others. -/
theorem Filled.cons {s₁ s' : Args} {f : List UInt8} {fs : List (List UInt8)} (hfs : fs ≠ [])
    (hrow : Holds (s₁.arg i) 0 (f ++ [0])) (hptr : s₁.strs i = if f = [38] then none else some i)
    (hback : s₁.isBackground = if f = [38] then 1 else s.isBackground)
    (hother : ∀ d, d ≠ i → s₁.strs d = s.strs d ∧ s₁.arg d = s.arg d)
    (h : Filled s₁ s' (i + 1) fs) : Filled s s' i (f :: fs) := by
  have hpos := List.length_pos_of_ne_nil hfs
  refine ⟨fun d hd => ?_, fun d g hg => ?_, ?_, ?_⟩
  · obtain ⟨hs, ha⟩ := h.kept d (by omega)
    obtain ⟨hs₁, ha₁⟩ := hother d (by omega)
    exact ⟨hs.trans hs₁, ha.trans ha₁⟩
  · cases d with
    | zero =>
        obtain rfl : f = g := by simpa using hg
        obtain ⟨hs, ha⟩ := h.kept i (by omega)
        have hlast : ¬ 0 + 1 = (f :: fs).length := by
          rw [List.length_cons]
          omega
        simp only [Nat.add_zero, hlast, and_false, or_false]
        exact ⟨by rw [ha]; exact hrow, by rw [hs, hptr]⟩
    | succ d =>
        have hlater := h.row d g (by simpa using hg)
        rw [show i + 1 + d = i + (d + 1) by omega] at hlater
        simpa only [List.length_cons, Nat.add_right_cancel_iff] using hlater
  · rw [List.length_cons, ← h.stop]
    congr 1
    omega
  · rw [h.background, hback]
    by_cases hmem : [38] ∈ fs <;> simp [hmem, eq_comm]

end Loop

/-- With no row for the NULL behind the last field the loop fails. -/
theorem tokenLoop_nil_none {delimiter : UInt8} {k i j : Nat} (hi : 1000 ≤ i + 1) (s : Args) :
    tokenLoop delimiter [] k i j s = none := by
  have hstop : ∀ t : Args, t.setNull (i + 1) = none := fun t => if_neg (by omega)
  simp only [tokenLoop, hstop, Option.bind_eq_bind, ite_self, Option.bind_fun_none]

/-- The loop cuts what is left at every delimiter; `w` is what it has of the field
that it is in. It fails only where there are too many fields or one is too long. -/
theorem tokenLoop_filled {delimiter : UInt8} (hnewline : delimiter ≠ 10)
    {rest w : List UInt8} {k i : Nat} {s : Args} (hquote : delimiter = 61 → (34 : UInt8) ∉ rest)
    (hk : 0 < k ∨ rest.head? ≠ some 32)
    (hrest : (10 : UInt8) ∉ rest ∧ (0 : UInt8) ∉ rest) (hready : Ready s i)
    (hw : Holds (s.arg i) 0 w) (hnul : (0 : UInt8) ∉ w) :
    tokenLoop delimiter rest k i w.length s = none ∧
        (1000 ≤ i + rest.count delimiter + 1 ∨ 1000 ≤ w.length + rest.length) ∨
      ∃ s', tokenLoop delimiter rest k i w.length s = some s' ∧
        Filled s s' i ((rest.splitOn delimiter).modifyHead (w ++ ·)) ∧
        ∀ f ∈ (rest.splitOn delimiter).modifyHead (w ++ ·), f.length < 1000 := by
  induction rest generalizing w k i s with
  | nil =>
      by_cases hrow : i + 1 < 1000
      · by_cases hcol : w.length < 1000
        · have hptr := hready i (Nat.le_refl _) (by omega)
          obtain ⟨s', hloop, hfilled⟩ := @tokenLoop_nil _ _ _ delimiter k hrow hptr hcol hw hnul
          exact .inr ⟨s', hloop, by simpa using hfilled, by simpa using hcol⟩
        · have hclose : s.close i w.length = none := by simp [Args.close, Args.put, hcol]
          exact .inl ⟨by simp [tokenLoop, hclose], .inr (by simpa using hcol)⟩
      · exact .inl ⟨tokenLoop_nil_none (by omega) s, .inl (by simpa using hrow)⟩
  | cons c rest ih =>
      have hnl : ¬ c = 10 := fun h => hrest.1 (by simp [h])
      have hrest' : (10 : UInt8) ∉ rest ∧ (0 : UInt8) ∉ rest :=
        ⟨fun h => hrest.1 (by simp [h]), fun h => hrest.2 (by simp [h])⟩
      have hskip : ¬ (k = 0 ∧ c = 32) := by
        rintro ⟨rfl, rfl⟩
        simp at hk
      have hnoquote : ¬ (c = 34 ∧ delimiter = 61) := fun h => hquote h.2 (by simp [h.1])
      have hquote' : delimiter = 61 → (34 : UInt8) ∉ rest := fun h hmem =>
        hquote h (List.mem_cons_of_mem _ hmem)
      rw [tokenLoop, if_neg hnl, if_neg hskip, List.splitOn_cons_eq_if_modifyHead,
        List.length_cons]
      by_cases hroom : ¬ (i < 1000 ∧ w.length < 1000)
      · -- nothing can be stored here
        have hput : ∀ x, s.put i w.length x = none := fun x => if_neg hroom
        refine .inl ⟨?_, by omega⟩
        by_cases hc : c = delimiter
        · simp [hc, Args.close, hput]
        · simp [hc, hnoquote, hput]
      · obtain ⟨hrow, hcol⟩ := not_not.mp hroom
        have hptr := hready i (Nat.le_refl _) hrow
        by_cases hc : c = delimiter
        · -- the field ends here
          subst hc
          obtain ⟨s₁, hclose, hrow₁, hptr₁, hback, hother⟩ := close_spec hrow hptr hcol hw hnul
          have hready₁ : Ready s₁ (i + 1) := fun d hd hlt =>
            (hother d (by omega)).1.trans (hready d (by omega) hlt)
          have hfs : (rest.splitOn c).modifyHead ([] ++ ·) = rest.splitOn c := by
            cases rest.splitOn c <;> simp
          have hloop := @ih [] (k + 1) (i + 1) s₁ hquote' (.inl (by omega)) hrest' hready₁
            Holds.nil (by simp)
          rw [List.count_cons_self]
          simp only [if_true, hclose, Option.bind_eq_bind, Option.bind_some]
          rcases hloop with ⟨hnone, hfull⟩ | ⟨s', hsome, hfilled, hshort⟩
          · refine .inl ⟨hnone, ?_⟩
            rw [List.length_nil] at hfull
            omega
          · rw [hfs] at hfilled hshort
            refine .inr ⟨s', hsome, ?_, ?_⟩
            · simpa using hfilled.cons (List.splitOn_ne_nil _ _) hrow₁ hptr₁ hback hother
            · intro f hf
              obtain rfl | hf : f = w ∨ f ∈ rest.splitOn c := by simpa using hf
              · exact hcol
              · exact hshort f hf
        · obtain ⟨s₁, hput, hrow₁, hstrs, hback, hother⟩ := put_spec hrow hptr hcol hw c
          have hready₁ : Ready s₁ i := fun d hd hlt => by rw [hstrs, hready d hd hlt]
          have hnul₁ : (0 : UInt8) ∉ w ++ [c] := by
            have hzero : c ≠ 0 := fun h => hrest.2 (by simp [h])
            simp [hnul, hzero.symm]
          have hfs : ((rest.splitOn delimiter).modifyHead (List.cons c)).modifyHead (w ++ ·) =
              (rest.splitOn delimiter).modifyHead (w ++ [c] ++ ·) := by
            cases rest.splitOn delimiter <;> simp
          have hloop := @ih (w ++ [c]) (k + 1) i s₁ hquote' (.inl (by omega)) hrest' hready₁
            hrow₁ hnul₁
          rw [List.length_append, List.length_singleton] at hloop
          rw [List.count_cons_of_ne hc, if_neg hc, if_neg hnoquote, hput,
            if_neg (by simpa using hc), hfs]
          simp only [Option.bind_eq_bind, Option.bind_some]
          rcases hloop with ⟨hnone, hfull⟩ | ⟨s', hsome, hfilled, hshort⟩
          · exact .inl ⟨hnone, by omega⟩
          · refine .inr ⟨s', hsome, ⟨fun d hd => ?_, hfilled.row, hfilled.stop, ?_⟩, hshort⟩
            · obtain ⟨hs, ha⟩ := hfilled.kept d hd
              exact ⟨hs.trans (by rw [hstrs]), ha.trans (hother d (by omega))⟩
            · rw [hfilled.background, hback]

/-- A line in the rows, if it fits. -/
theorem setStringTokens_cases {delimiter : UInt8} (hnewline : delimiter ≠ 10)
    {input : List UInt8} (hquote : delimiter = 61 → (34 : UInt8) ∉ input)
    (hinput : (10 : UInt8) ∉ input ∧ (0 : UInt8) ∉ input) {s : Args} (hready : Ready s 0) :
    setStringTokens input delimiter s = none ∧
        (1000 ≤ (trimmed input).count delimiter + 1 ∨ 1000 ≤ input.length) ∨
      ∃ s', setStringTokens input delimiter s = some s' ∧
        Filled s s' 0 (fields delimiter input) ∧ ∀ f ∈ fields delimiter input, f.length < 1000 := by
  have hfs : ∀ fs : List (List UInt8), fs.modifyHead ([] ++ ·) = fs := by
    intro fs
    cases fs <;> simp
  by_cases hhead : input.head? = some 32
  · obtain ⟨rest, rfl⟩ : ∃ rest, input = 32 :: rest := by
      cases input with
      | nil => simp at hhead
      | cons x rest => exact ⟨rest, by simpa using hhead⟩
    have htrimmed : trimmed (32 :: rest) = rest := by simp [trimmed]
    have hskip : setStringTokens (32 :: rest) delimiter s = tokenLoop delimiter rest 1 0 0 s := by
      simp [setStringTokens, tokenLoop]
    have hloop := @tokenLoop_filled _ hnewline rest [] 1 0 s
      (fun h hmem => hquote h (List.mem_cons_of_mem _ hmem)) (.inl (by omega))
      ⟨fun h => hinput.1 (by simp [h]), fun h => hinput.2 (by simp [h])⟩ hready Holds.nil (by simp)
    rw [hfs, List.length_nil, Nat.zero_add, Nat.zero_add] at hloop
    rw [fields, htrimmed, hskip, List.length_cons]
    exact hloop.imp (fun h => ⟨h.1, by omega⟩) id
  · have htrimmed : trimmed input = input := by rw [trimmed, if_neg hhead]
    have hloop := @tokenLoop_filled _ hnewline input [] 0 0 s hquote (.inr hhead) hinput hready
      Holds.nil (by simp)
    rw [hfs, List.length_nil, Nat.zero_add, Nat.zero_add] at hloop
    rwa [fields, htrimmed]

theorem setStringTokens_filled {delimiter : UInt8} (hnewline : delimiter ≠ 10)
    (hequals : delimiter ≠ 61) {input : List UInt8}
    (hinput : (10 : UInt8) ∉ input ∧ (0 : UInt8) ∉ input) {s : Args} (hready : Ready s 0)
    (hlen : input.length < 1000) (hrows : (trimmed input).count delimiter + 1 < 1000) :
    ∃ s', setStringTokens input delimiter s = some s' ∧
      Filled s s' 0 (fields delimiter input) := by
  rcases setStringTokens_cases hnewline (fun h => absurd h hequals) hinput hready with
    ⟨-, hfull⟩ | ⟨s', hsome, hfilled, -⟩
  · omega
  · exact ⟨s', hsome, hfilled⟩

/-- A line that is no pipe is first copied as a whole, and then split at the
spaces. -/
theorem parseInput_filled {input : List UInt8} (hinput : (10 : UInt8) ∉ input ∧ (0 : UInt8) ∉ input)
    (hpipe : (124 : UInt8) ∉ input) (hlen : input.length < 1000) {s : Args} (hready : Ready s 0) :
    ∃ s₁ s', parseInput input s = some s' ∧
      Filled (clearArguments s₁) s' 0 (fields 32 input) := by
  have hpipe' : (124 : UInt8) ∉ trimmed input := by
    rw [trimmed]
    split_ifs
    · exact fun h => hpipe (List.mem_of_mem_drop h)
    · exact hpipe
  obtain ⟨s₁, hfirst, hfilled₁⟩ := @setStringTokens_filled 124 (by decide) (by decide) _ hinput _
    hready hlen (by rw [List.count_eq_zero.mpr hpipe']; omega)
  rw [fields, List.splitOn_eq_singleton hpipe'] at hfilled₁
  have hnull : s₁.strs 1 = none := hfilled₁.stop
  have hspaces : (trimmed input).count 32 + 1 < 1000 := by
    rw [trimmed]
    split_ifs with hhead
    · have hcount := List.count_le_length (a := (32 : UInt8)) (l := input.drop 1)
      have hdrop := List.length_drop (i := 1) (l := input)
      have hpos : 0 < input.length := List.length_pos_of_mem (List.mem_of_head? hhead)
      omega
    · cases input with
      | nil => simp
      | cons x rest =>
          have hne : x ≠ 32 := by simpa using hhead
          have hcount := List.count_le_length (a := (32 : UInt8)) (l := rest)
          rw [List.length_cons] at hlen
          rw [List.count_cons_of_ne hne]
          omega
  obtain ⟨s', hsecond, hfilled⟩ :=
    @setStringTokens_filled 32 (by decide) (by decide) _ hinput _ (clearArguments_ready s₁) hlen
      hspaces
  exact ⟨s₁, s', by simp [parseInput, hfirst, hnull, hsecond], hfilled⟩

def words (fs : List (List UInt8)) : List (List UInt8) :=
  if (fs.filter (· ≠ [])).getLast? = some [38] then (fs.filter (· ≠ [])).dropLast
  else fs.filter (· ≠ [])

/-- What a line should be split into. -/
def arguments (input : List UInt8) : List (List UInt8) := words (input.splitOn 32)

/-- `args` points to these strings, and NULL is behind. -/
def Args.Points (s : Args) (ws : List (List UInt8)) : Prop :=
  (∀ i w, ws[i]? = some w → ∃ row, s.strs i = some row ∧ s.str row = w) ∧
    s.strs ws.length = none

/-- Words that are neither empty nor `&`, and behind them nothing, or one empty
field, or `&` with empty fields only. -/
def Plain (fs : List (List UInt8)) : Prop :=
  ∃ ws rest, fs = ws ++ rest ∧ (∀ w ∈ ws, w ≠ [] ∧ w ≠ [38]) ∧
    (rest = [] ∨ rest = [[]] ∨ ∃ more, rest = [38] :: more ∧ ∀ f ∈ more, f = [])

section Words

variable {fs ws : List (List UInt8)}

/-- The space that is skipped is in front of no word. -/
theorem filter_fields (input : List UInt8) :
    (input.splitOn 32).filter (· ≠ []) = (fields 32 input).filter (· ≠ []) := by
  rw [fields, trimmed]
  split_ifs with hhead
  · cases input with
    | nil => rfl
    | cons x rest =>
        obtain rfl : x = 32 := by simpa using hhead
        rw [List.splitOn_cons_eq_if_modifyHead]
        simp
  · rfl

theorem arguments_eq (input : List UInt8) : arguments input = words (fields 32 input) := by
  rw [arguments, words, words, filter_fields]

theorem filter_words (hws : ∀ w ∈ ws, w ≠ []) (rest : List (List UInt8)) :
    (ws ++ rest).filter (· ≠ []) = ws ++ rest.filter (· ≠ []) := by
  rw [List.filter_append, List.filter_eq_self.mpr (by simpa using hws)]

/-- The words of plain fields. -/
theorem words_plain {rest : List (List UInt8)} (hws : ∀ w ∈ ws, w ≠ [] ∧ w ≠ [38])
    (hrest : rest = [] ∨ rest = [[]] ∨ ∃ more, rest = [38] :: more ∧ ∀ f ∈ more, f = []) :
    words (ws ++ rest) = ws := by
  have hlast : ws.getLast? ≠ some [38] := fun h => (hws _ (List.mem_of_getLast? h)).2 rfl
  rw [words, filter_words fun w hw => (hws w hw).1]
  obtain rfl | rfl | ⟨more, rfl, hmore⟩ := hrest
  · simp [hlast]
  · simp [hlast]
  · have hnone : more.filter (· ≠ []) = [] := List.filter_eq_nil_iff.mpr (by simpa using hmore)
    rw [List.filter_cons_of_pos (by simp), hnone, List.getLast?_concat, if_pos rfl,
      List.dropLast_concat]

/-- There are as many words as fields that are not empty, or one less. -/
theorem length_words (fs : List (List UInt8)) :
    (words fs).length ≤ fs.length ∧ (fs.filter (· ≠ [])).length ≤ (words fs).length + 1 := by
  have hle := List.length_filter_le (fun f : List UInt8 => decide (f ≠ [])) fs
  rw [words]
  split_ifs
  · rw [List.length_dropLast]
    omega
  · omega

theorem mem_words {w : List UInt8} (h : w ∈ words fs) : w ≠ [] := by
  have hmem : w ∈ fs.filter (· ≠ []) := by
    rw [words] at h
    split_ifs at h
    · exact List.dropLast_subset _ h
    · exact h
  simpa using (List.mem_filter.mp hmem).2

section Pointers

variable {s s' : Args} {d : Nat} {f : List UInt8}

theorem Filled.ptr (h : Filled s s' 0 fs) (hf : fs[d]? = some f) :
    s'.strs d = if f = [38] ∨ f = [] ∧ d + 1 = fs.length then none else some d := by
  have hrow := (h.row d f hf).2
  rwa [Nat.zero_add] at hrow

theorem Filled.str (h : Filled s s' 0 fs) (hfs : ∀ f ∈ fs, (0 : UInt8) ∉ f ∧ f.length < 1000)
    (hf : fs[d]? = some f) : s'.str d = f := by
  obtain ⟨hnul, hlen⟩ := hfs f (List.mem_of_getElem? hf)
  have hrow := (h.row d f hf).1
  rw [Nat.zero_add] at hrow
  exact hrow.strAt hnul hlen

/-- A pointer that is right points to the field of its own row. -/
theorem Filled.word (h : Filled s s' 0 fs) (hfs : ∀ f ∈ fs, (0 : UInt8) ∉ f ∧ f.length < 1000)
    (hpoints : s'.Points (words fs)) (hf : (words fs)[d]? = some f) :
    fs[d]? = some f ∧ f ≠ [38] := by
  have hlt : d < fs.length :=
    Nat.lt_of_lt_of_le (List.getElem?_eq_some_iff.mp hf).1 (length_words fs).1
  have hget := List.getElem?_eq_getElem hlt
  obtain ⟨row, hrow, hstr⟩ := hpoints.1 d f hf
  rw [h.ptr hget] at hrow
  split_ifs at hrow with hcase
  obtain rfl : d = row := Option.some.inj hrow
  obtain rfl : fs[d] = f := (h.str hfs hget).symm.trans hstr
  exact ⟨hget, fun hand => hcase (.inl hand)⟩

/-- Right pointers come from plain fields. -/
theorem Filled.plain (h : Filled s s' 0 fs) (hfs : ∀ f ∈ fs, (0 : UInt8) ∉ f ∧ f.length < 1000)
    (hpoints : s'.Points (words fs)) : Plain fs := by
  obtain ⟨rest, hrest⟩ : words fs <+: fs :=
    List.prefix_iff_getElem?.mpr fun i hi => (h.word hfs hpoints (List.getElem?_eq_getElem hi)).1
  have hwords : ∀ w ∈ words fs, w ≠ [] ∧ w ≠ [38] := by
    intro w hw
    obtain ⟨i, hi⟩ := List.getElem?_of_mem hw
    exact ⟨mem_words hw, (h.word hfs hpoints hi).2⟩
  refine ⟨words fs, rest, hrest.symm, hwords, ?_⟩
  cases rest with
  | nil => exact .inl rfl
  | cons f more =>
      have hnull := hpoints.2
      have hf : (words fs ++ f :: more)[(words fs).length]? = some f := by simp
      rw [hrest] at hf
      rw [h.ptr hf] at hnull
      split_ifs at hnull with hcase
      have hlength : (words fs).length + (f :: more).length = fs.length := by
        rw [← List.length_append, hrest]
      rw [List.length_cons] at hlength
      obtain rfl | ⟨rfl, hlast⟩ := hcase
      · -- the `&` is the one field that is not among the words
        refine .inr (.inr ⟨more, rfl, fun g hg => ?_⟩)
        have hmany := (length_words fs).2
        have hfilter := filter_words (fun w hw => (hwords w hw).1) ([38] :: more)
        rw [hrest] at hfilter
        rw [hfilter, List.length_append, List.filter_cons_of_pos (by simp),
          List.length_cons] at hmany
        have hnone : more.filter (· ≠ []) = [] := List.length_eq_zero_iff.mp (by omega)
        simpa using List.filter_eq_nil_iff.mp hnone g hg
      · obtain rfl : more = [] := List.length_eq_zero_iff.mp (by omega)
        exact .inr (.inl rfl)

/-- Plain fields give the right pointers. -/
theorem Filled.points (h : Filled s s' 0 fs)
    (hfs : ∀ f ∈ fs, (0 : UInt8) ∉ f ∧ f.length < 1000) (hplain : Plain fs) :
    s'.Points (words fs) := by
  obtain ⟨ws, rest, rfl, hws, hrest⟩ := hplain
  rw [words_plain hws hrest]
  refine ⟨fun i w hw => ?_, ?_⟩
  · have hget : (ws ++ rest)[i]? = some w := by
      rw [List.getElem?_append_left (List.getElem?_eq_some_iff.mp hw).1, hw]
    obtain ⟨hempty, hand⟩ := hws w (List.mem_of_getElem? hw)
    refine ⟨i, ?_, h.str hfs hget⟩
    rw [h.ptr hget, if_neg (by simp [hempty, hand])]
  · obtain rfl | rfl | ⟨more, rfl, -⟩ := hrest
    · simpa using h.stop
    · have hget : (ws ++ [[]])[ws.length]? = some [] := by simp
      rw [h.ptr hget, if_pos (.inr ⟨rfl, by simp⟩)]
    · have hget : (ws ++ [38] :: more)[ws.length]? = some [38] := by simp
      rw [h.ptr hget, if_pos (.inl rfl)]

end Pointers

end Words

theorem splitOn_sublist {delimiter : UInt8} {input f : List UInt8}
    (hf : f ∈ input.splitOn delimiter) : f.Sublist input := by
  induction input generalizing f with
  | nil => simpa using hf
  | cons c rest ih =>
      rw [List.splitOn_cons_eq_if_modifyHead] at hf
      split_ifs at hf
      · obtain rfl | hf := List.mem_cons.mp hf
        · exact List.nil_sublist _
        · exact (ih hf).cons _
      · cases hfs : rest.splitOn delimiter with
        | nil => exact absurd hfs (List.splitOn_ne_nil _ _)
        | cons g fs =>
            rw [hfs] at hf ih
            obtain rfl | hf := List.mem_cons.mp hf
            · exact (ih List.mem_cons_self).cons_cons _
            · exact (ih (List.mem_cons_of_mem _ hf)).cons _

/-- A field is a piece of the line. -/
theorem fields_sublist {delimiter : UInt8} {input f : List UInt8}
    (hf : f ∈ fields delimiter input) : f.Sublist input := by
  have hsub := splitOn_sublist hf
  rw [trimmed] at hsub
  split_ifs at hsub
  · exact hsub.trans (List.drop_sublist _ _)
  · exact hsub

/-- The pointers that a line of the shell ends with are those to its words exactly when
its fields are plain. -/
theorem parseInput_points_iff (input : List UInt8)
    (hinput : (10 : UInt8) ∉ input ∧ (0 : UInt8) ∉ input) (hpipe : (124 : UInt8) ∉ input)
    (hlen : input.length < 1000) (s : Args) (hready : Ready s 0) :
    (∃ s', parseInput input s = some s' ∧ s'.Points (arguments input)) ↔
      Plain (fields 32 input) := by
  obtain ⟨s₁, s', hparse, hfilled⟩ := parseInput_filled hinput hpipe hlen hready
  have hfs : ∀ f ∈ fields 32 input, (0 : UInt8) ∉ f ∧ f.length < 1000 := by
    intro f hf
    have hsub := fields_sublist hf
    exact ⟨fun h => hinput.2 (hsub.subset h), Nat.lt_of_le_of_lt hsub.length_le hlen⟩
  rw [arguments_eq]
  constructor
  · rintro ⟨t, ht, hpoints⟩
    obtain rfl : s' = t := Option.some.inj (hparse.symm.trans ht)
    exact hfilled.plain hfs hpoints
  · intro hplain
    exact ⟨s', hparse, hfilled.points hfs hplain⟩

/-- `ls -l &`. -/
theorem parseInput_points_iff_background :
    ∃ s', parseInput [108, 115, 32, 45, 108, 32, 38] (initargs Args.start) = some s' ∧
      s'.Points (arguments [108, 115, 32, 45, 108, 32, 38]) := by
  refine (parseInput_points_iff [108, 115, 32, 45, 108, 32, 38] (by decide) (by decide) (by decide)
    _ (initargs_ready _)).mpr ?_
  exact ⟨[[108, 115], [45, 108]], [[38]], by decide, by decide, .inr (.inr ⟨[], rfl, by simp⟩)⟩

/-- `ls  -l`, with two spaces: the second argument is empty. -/
theorem parseInput_two_spaces :
    arguments [108, 115, 32, 32, 45, 108] = [[108, 115], [45, 108]] ∧
      ∃ s', parseInput [108, 115, 32, 32, 45, 108] (initargs Args.start) = some s' ∧
        s'.strs 1 = some 1 ∧ s'.str 1 = [] ∧
        ¬ s'.Points (arguments [108, 115, 32, 32, 45, 108]) := by
  have harguments : arguments [108, 115, 32, 32, 45, 108] = [[108, 115], [45, 108]] := by decide
  obtain ⟨s₁, s', hparse, hfilled⟩ := @parseInput_filled [108, 115, 32, 32, 45, 108] (by decide)
    (by decide) (by decide) _ (initargs_ready Args.start)
  rw [show fields 32 [108, 115, 32, 32, 45, 108] = [[108, 115], [], [45, 108]] by decide] at hfilled
  have hptr : s'.strs 1 = some 1 := hfilled.ptr (f := []) rfl
  have hstr : s'.str 1 = [] := hfilled.str (by decide) rfl
  rw [harguments]
  refine ⟨rfl, s', hparse, hptr, hstr, fun hpoints => ?_⟩
  obtain ⟨row, hrow, hword⟩ := hpoints.1 1 [45, 108] rfl
  obtain rfl : 1 = row := Option.some.inj (hptr.symm.trans hrow)
  simp [hstr] at hword

end X86Kernel.Shell
