import X86Kernel.Libc.Strings
import Mathlib.Data.List.TakeWhile

/-!
How `printf` of the C library cuts its format (`printf.c`). `string_split` collects a
literal in `temp` and stores a token in the next row of `s` when it comes to a `%`, to
a newline or tab, or to the end; `printf` then goes through the rows up to the first
empty one.
-/

namespace X86Kernel.Libc

open Lib

structure Split where
  temp : Nat → UInt8
  s : Nat → Nat → UInt8
  i : Nat
  j : Nat

namespace Split

/-- Both arrays all zero. -/
def start : Split := { temp := fun _ => 0, s := fun _ _ => 0, i := 0, j := 0 }

def text (p : Split) : Option (List UInt8) :=
  let t := strAt p.temp 50 0
  if t.length < 50 then some t else none

def store (p : Split) : Option Split := do
  let t ← p.text
  if p.i < 100 then do
    let row ← strcpy 100 (p.s p.i) 0 t
    some { p with s := Function.update p.s p.i row }
  else none

def next (p : Split) : Split := { p with i := p.i + 1 }

def clear (p : Split) : Option Split :=
  if p.j < 50 then some { p with temp := fun k => if k ≤ p.j then 0 else p.temp k } else none

def setFirst (p : Split) (c : UInt8) : Split := { p with temp := Function.update p.temp 0 c }

def setSecond (p : Split) (c : UInt8) : Split := { p with temp := Function.update p.temp 1 c }

def storeLiteral (p : Split) : Option Split := do
  let t ← p.text
  if t ≠ [] then do
    let p ← p.store
    p.next.clear
  else some p

def conversion (p : Split) (c : UInt8) : Option Split := do
  let p ← p.storeLiteral
  let p ← ((p.setFirst 37).setSecond c).store
  some { (p.next.setFirst 0).setSecond 0 with j := 0 }

def storeText (p : Split) : Option Split := do
  let t ← p.text
  if t ≠ [] then p.store else some p

def newline (p : Split) (c : UInt8) : Option Split := do
  let p ← p.storeText
  let p ← p.next.clear
  let p ← (p.setFirst c).store
  some { p.next.setFirst 0 with j := 0 }

def literal (p : Split) (c : UInt8) : Option Split :=
  if p.j < 50 then some { p with temp := Function.update p.temp p.j c, j := p.j + 1 } else none

def character (p : Split) (c : UInt8) : Option Split :=
  if c = 10 ∨ c = 9 then p.newline c else p.literal c

end Split

/-- The loop of `string_split` and the `strcpy` behind it. With a `%` at the end the
loop goes past the NUL. -/
def splitLoop : List UInt8 → Split → Option Split
  | [], p => p.store
  | [c], p => if c = 37 then none else (p.character c).bind Split.store
  | c :: d :: rest, p =>
      if c = 37 then (p.conversion d).bind (splitLoop rest)
      else (p.character c).bind (splitLoop (d :: rest))

def stringSplit (str : List UInt8) : Option (Nat → Nat → UInt8) :=
  (splitLoop str Split.start).map Split.s

def printfTokens (s : Nat → Nat → UInt8) : List (List UInt8) :=
  ((List.range 100).map fun i => strAt (s i) 100 0).takeWhile (· ≠ [])

/-- What a literal becomes: nothing if it is empty. -/
def flush (lit : List UInt8) : List (List UInt8) := if lit = [] then [] else [lit]

/-- A format behind a literal that was begun, cut into conversions, newlines, tabs, and
the longest runs of other characters; `f` says what becomes of the literal in front of
a newline or tab. `none` is a `%` at the end. -/
def cut (f : List UInt8 → List (List UInt8)) :
    List UInt8 → List UInt8 → Option (List (List UInt8))
  | [], lit => some (flush lit)
  | [c], lit =>
      if c = 37 then none
      else if c = 10 ∨ c = 9 then some (f lit ++ [[c]])
      else some [lit ++ [c]]
  | c :: d :: rest, lit =>
      if c = 37 then (cut f rest []).map fun ts => flush lit ++ [37, d] :: ts
      else if c = 10 ∨ c = 9 then (cut f (d :: rest) []).map fun ts => f lit ++ [c] :: ts
      else cut f (d :: rest) (lit ++ [c])

def tokenize (fmt : List UInt8) : Option (List (List UInt8)) := cut flush fmt []

/-- A conversion, a newline or tab, or a run of other characters. -/
def IsToken (t : List UInt8) : Prop :=
  (∃ d, t = [37, d]) ∨ t = [10] ∨ t = [9] ∨ t ≠ [] ∧ ∀ c ∈ t, c ≠ 37 ∧ c ≠ 10 ∧ c ≠ 9

/-- `printf` gets the whole format, token by token. -/
def SplitsWhole (fmt : List UInt8) : Prop :=
  ∃ s, stringSplit fmt = some s ∧ (printfTokens s).flatten = fmt ∧ ∀ t ∈ printfTokens s, IsToken t

/-- Every newline and tab stands directly behind a literal; `lit` says whether there is
one where the list begins. -/
def Led : List UInt8 → Bool → Prop
  | [], _ => True
  | [c], lit => c = 10 ∨ c = 9 → lit = true
  | c :: d :: rest, lit =>
      if c = 37 then Led rest false
      else if c = 10 ∨ c = 9 then lit = true ∧ Led (d :: rest) false
      else Led (d :: rest) true

/-- Formats by what they begin with. -/
@[elab_as_elim]
theorem format_induction {P : List UInt8 → Prop} (nil : P []) (stray : P [37])
    (percent : ∀ d rest, P rest → P (37 :: d :: rest))
    (other : ∀ c rest, c ≠ 37 → P rest → P (c :: rest)) : ∀ fmt, P fmt
  | [] => nil
  | [c] => by
      by_cases hc : c = 37
      · exact hc ▸ stray
      · exact other c [] hc nil
  | c :: d :: rest => by
      by_cases hc : c = 37
      · exact hc ▸ percent d rest (format_induction nil stray percent other rest)
      · exact other c (d :: rest) hc (format_induction nil stray percent other (d :: rest))

section Cut

variable {f : List UInt8 → List (List UInt8)} {c : UInt8} {rest lit : List UInt8}

theorem cut_newline (hp : c ≠ 37) (hc : c = 10 ∨ c = 9) :
    cut f (c :: rest) lit = (cut f rest []).map fun ts => f lit ++ [c] :: ts := by
  cases rest with
  | nil => simp [cut, hp, hc, flush]
  | cons d rest => rw [cut, if_neg hp, if_pos hc]

theorem cut_literal (hp : c ≠ 37) (hc : ¬ (c = 10 ∨ c = 9)) :
    cut f (c :: rest) lit = cut f rest (lit ++ [c]) := by
  cases rest with
  | nil => simp [cut, hp, hc, flush]
  | cons d rest => rw [cut, if_neg hp, if_neg hc]

theorem cut_percent (d : UInt8) :
    cut f (37 :: d :: rest) lit = (cut f rest []).map fun ts => flush lit ++ [37, d] :: ts := by
  rw [cut, if_pos rfl]

theorem led_newline {b : Bool} (hp : c ≠ 37) (hc : c = 10 ∨ c = 9) :
    Led (c :: rest) b ↔ b = true ∧ Led rest false := by
  cases rest with
  | nil => simp [Led, hc]
  | cons d rest => rw [Led, if_neg hp, if_pos hc]

theorem led_literal {b : Bool} (hp : c ≠ 37) (hc : ¬ (c = 10 ∨ c = 9)) :
    Led (c :: rest) b ↔ Led rest true := by
  cases rest with
  | nil => simp [Led, hc]
  | cons d rest => rw [Led, if_neg hp, if_neg hc]

theorem splitLoop_character (hp : c ≠ 37) (p : Split) :
    splitLoop (c :: rest) p = (p.character c).bind (splitLoop rest) := by
  cases rest with
  | nil => simp only [splitLoop, if_neg hp]
  | cons d rest => rw [splitLoop, if_neg hp]

theorem flush_flatten (lit : List UInt8) : (flush lit).flatten = lit := by
  unfold flush
  split_ifs with h
  · simp [h]
  · simp

/-- Nothing is lost by cutting. -/
theorem cut_flatten (hf : ∀ l, (f l).flatten = l) {fmt : List UInt8} {ts : List (List UInt8)}
    (h : cut f fmt lit = some ts) : ts.flatten = lit ++ fmt := by
  induction fmt using format_induction generalizing lit ts with
  | nil =>
      obtain rfl := Option.some.inj h
      rw [flush_flatten, List.append_nil]
  | stray => simp [cut] at h
  | percent d rest ih =>
      rw [cut_percent] at h
      obtain ⟨us, hus, rfl⟩ := Option.map_eq_some_iff.mp h
      simp [flush_flatten, ih hus]
  | other c rest hp ih =>
      by_cases hc : c = 10 ∨ c = 9
      · rw [cut_newline hp hc] at h
        obtain ⟨us, hus, rfl⟩ := Option.map_eq_some_iff.mp h
        simp [hf, ih hus]
      · rw [cut_literal hp hc] at h
        simpa using ih h

theorem nil_notMem_flush (lit : List UInt8) : [] ∉ flush lit := by
  unfold flush
  split_ifs with h
  · simp
  · simpa using Ne.symm h

theorem filter_flush (lit : List UInt8) : (flush lit).filter (· ≠ []) = flush lit :=
  List.filter_eq_self.mpr fun t ht => by
    simpa using fun h : t = [] => nil_notMem_flush lit (h ▸ ht)

/-- The last token, when there is one behind the literal that is not empty. -/
theorem getLast_ne_nil {l ps : List (List UInt8)} {t : List UInt8} (ht : t ≠ [])
    (hps : ps.getLast? ≠ some []) : (l ++ t :: ps).getLast? ≠ some [] := by
  rw [List.getLast?_append, List.getLast?_cons]
  cases hlast : ps.getLast? with
  | none => simpa using ht
  | some u =>
      rw [hlast] at hps
      simpa using hps

/-- The tokens are what `string_split` stores but for empty ones; these come from the
newlines and tabs that no literal leads. -/
theorem cut_single {fmt : List UInt8} {ts : List (List UInt8)} (h : cut flush fmt lit = some ts) :
    ∃ ps, cut (fun l => [l]) fmt lit = some ps ∧ ps.filter (· ≠ []) = ts ∧
      ([] ∉ ps ↔ Led fmt (lit ≠ [])) ∧ ps.getLast? ≠ some [] := by
  induction fmt using format_induction generalizing lit ts with
  | nil =>
      obtain rfl := Option.some.inj h
      refine ⟨flush lit, rfl, filter_flush lit, ?_, ?_⟩
      · simp [nil_notMem_flush, Led]
      · exact fun hlast => nil_notMem_flush lit (List.mem_of_getLast? hlast)
  | stray => simp [cut] at h
  | percent d rest ih =>
      rw [cut_percent] at h
      obtain ⟨us, hus, rfl⟩ := Option.map_eq_some_iff.mp h
      obtain ⟨ps, hps, hfilter, hled, hlast⟩ := ih hus
      refine ⟨flush lit ++ [37, d] :: ps, by rw [cut_percent, hps, Option.map_some], ?_, ?_, ?_⟩
      · rw [List.filter_append, filter_flush, List.filter_cons_of_pos (by simp), hfilter]
      · rw [Led, if_pos rfl]
        simpa [nil_notMem_flush] using hled
      · exact getLast_ne_nil (by simp) hlast
  | other c rest hp ih =>
      by_cases hc : c = 10 ∨ c = 9
      · rw [cut_newline hp hc] at h
        obtain ⟨us, hus, rfl⟩ := Option.map_eq_some_iff.mp h
        obtain ⟨ps, hps, hfilter, hled, hlast⟩ := ih hus
        refine ⟨[lit] ++ [c] :: ps, by rw [cut_newline hp hc, hps, Option.map_some], ?_, ?_, ?_⟩
        · have htail : ([c] :: ps).filter (· ≠ []) = [c] :: us := by
            rw [List.filter_cons_of_pos (by simp), hfilter]
          rw [List.filter_append, htail]
          by_cases hlit : lit = []
          · simp [flush, hlit]
          · simp [flush, hlit]
        · rw [led_newline hp hc, List.singleton_append, List.mem_cons, List.mem_cons, not_or,
            not_or]
          refine and_congr ⟨fun h => decide_eq_true (Ne.symm h), fun h => ?_⟩ ?_
          · exact Ne.symm (of_decide_eq_true h)
          · exact (and_iff_right (by simp)).trans hled
        · exact getLast_ne_nil (by simp) hlast
      · rw [cut_literal hp hc] at h
        obtain ⟨ps, hps, hfilter, hled, hlast⟩ := ih h
        refine ⟨ps, by rw [cut_literal hp hc, hps], hfilter, ?_, hlast⟩
        rw [led_literal hp hc, hled]
        simp

/-- What the tokens are. -/
theorem tokenize_isToken {fmt : List UInt8} {ts : List (List UInt8)}
    (hlit : ∀ c ∈ lit, c ≠ 37 ∧ c ≠ 10 ∧ c ≠ 9) (h : cut flush fmt lit = some ts) :
    ∀ t ∈ ts, IsToken t := by
  have hflush : ∀ lit : List UInt8, (∀ c ∈ lit, c ≠ 37 ∧ c ≠ 10 ∧ c ≠ 9) →
      ∀ t ∈ flush lit, IsToken t := by
    intro lit hlit t ht
    unfold flush at ht
    split_ifs at ht with hne
    · simp at ht
    · obtain rfl := List.mem_singleton.mp ht
      exact .inr (.inr (.inr ⟨hne, hlit⟩))
  induction fmt using format_induction generalizing lit ts with
  | nil =>
      obtain rfl := Option.some.inj h
      exact hflush lit hlit
  | stray => simp [cut] at h
  | percent d rest ih =>
      rw [cut_percent] at h
      obtain ⟨us, hus, rfl⟩ := Option.map_eq_some_iff.mp h
      intro t ht
      simp only [List.mem_append, List.mem_cons] at ht
      rcases ht with ht | rfl | ht
      · exact hflush lit hlit t ht
      · exact .inl ⟨d, rfl⟩
      · exact ih (by simp) hus t ht
  | other c rest hp ih =>
      by_cases hc : c = 10 ∨ c = 9
      · rw [cut_newline hp hc] at h
        obtain ⟨us, hus, rfl⟩ := Option.map_eq_some_iff.mp h
        intro t ht
        simp only [List.mem_append, List.mem_cons] at ht
        rcases ht with ht | rfl | ht
        · exact hflush lit hlit t ht
        · rcases hc with rfl | rfl
          · exact .inr (.inl rfl)
          · exact .inr (.inr (.inl rfl))
        · exact ih (by simp) hus t ht
      · rw [cut_literal hp hc] at h
        refine ih ?_ h
        intro x hx
        rcases List.mem_append.mp hx with hx | hx
        · exact hlit x hx
        · obtain rfl := List.mem_singleton.mp hx
          exact ⟨hp, fun h => hc (.inl h), fun h => hc (.inr h)⟩

end Cut

/-- An array with a list at its beginning and zeros behind. -/
def cells (l : List UInt8) : Nat → UInt8 := fun v => l.getD v 0

structure Rows (s : Nat → Nat → UInt8) (toks : List (List UInt8)) : Prop where
  row : ∀ (k : Nat) (t : List UInt8), toks[k]? = some t → Holds (s k) 0 (t ++ [0])
  rest : ∀ k, toks.length ≤ k → s k 0 = 0

/-- Between two turns: so many tokens are stored, and a literal was begun. -/
def between (s : Nat → Nat → UInt8) (toks : List (List UInt8)) (lit : List UInt8) : Split :=
  { temp := cells lit, s := s, i := toks.length, j := lit.length }

section Turn

variable {p : Split} {s : Nat → Nat → UInt8} {toks : List (List UInt8)} {lit : List UInt8}

theorem cells_holds (l : List UInt8) : Holds (cells l) 0 (l ++ [0]) := by
  intro k x hx
  rw [Nat.zero_add, cells, List.getD_eq_getElem?_getD]
  by_cases hk : k < l.length
  · rw [List.getElem?_append_left hk] at hx
    rw [hx, Option.getD_some]
  · rw [List.getElem?_append_right (by omega), List.getElem?_singleton] at hx
    split_ifs at hx
    rw [List.getElem?_eq_none (by omega), Option.getD_none]
    exact Option.some.inj hx

theorem cells_snoc (l : List UInt8) (c : UInt8) :
    Function.update (cells l) l.length c = cells (l ++ [c]) := by
  funext v
  by_cases hv : v = l.length
  · subst hv
    simp [cells]
  · rw [Function.update_of_ne hv, cells, cells, List.getD_eq_getElem?_getD,
      List.getD_eq_getElem?_getD]
    by_cases hlt : v < l.length
    · rw [List.getElem?_append_left hlt]
    · rw [List.getElem?_eq_none (by omega), List.getElem?_eq_none (by simp; omega)]

theorem cells_clear (l : List UInt8) :
    (fun k => if k ≤ l.length then 0 else cells l k) = cells [] := by
  funext k
  simp only [cells, List.getD_eq_getElem?_getD, List.getElem?_nil, Option.getD_none]
  split_ifs with hk
  · rfl
  · rw [List.getElem?_eq_none (by omega), Option.getD_none]

theorem clear_eq (htemp : p.temp = cells lit) (hj : p.j = lit.length) (hlen : lit.length < 50) :
    p.clear = some { p with temp := cells [] } := by
  rw [Split.clear, if_pos (by rwa [hj]), htemp, hj, cells_clear]

theorem text_eq (htemp : p.temp = cells lit) (hnul : (0 : UInt8) ∉ lit) (hlen : lit.length < 50) :
    p.text = some lit := by
  have hstr : strAt p.temp 50 0 = lit := by
    rw [htemp]
    exact (cells_holds lit).strAt hnul hlen
  rw [Split.text]
  simp only [hstr, if_pos hlen]

/-- A store puts the literal into the row, when there is such a row. -/
theorem store_spec (htemp : p.temp = cells lit) (hnul : (0 : UInt8) ∉ lit)
    (hlen : lit.length < 50) :
    p.store = none ∧ 100 ≤ p.i ∨ ∃ row, p.i < 100 ∧ Holds row 0 (lit ++ [0]) ∧
      p.store = some { p with s := Function.update p.s p.i row } := by
  simp only [Split.store, text_eq htemp hnul hlen, Option.bind_eq_bind, Option.bind_some]
  split_ifs with hi
  · obtain ⟨row, hcopy, hholds, -⟩ :=
      strcpy_spec (p.s p.i) (show 0 + lit.length < 100 by omega)
    exact .inr ⟨row, hi, hholds, by rw [hcopy, Option.bind_some]⟩
  · exact .inl ⟨rfl, by omega⟩

theorem Rows.snoc (hs : Rows s toks) {t : List UInt8} {row : Nat → UInt8}
    (hrow : Holds row 0 (t ++ [0])) : Rows (Function.update s toks.length row) (toks ++ [t]) := by
  refine ⟨fun k u hu => ?_, fun k hk => ?_⟩
  · by_cases hk : k < toks.length
    · rw [List.getElem?_append_left hk] at hu
      rw [Function.update_of_ne (by omega)]
      exact hs.row k u hu
    · rw [List.getElem?_append_right (by omega), List.getElem?_singleton] at hu
      split_ifs at hu with hzero
      obtain rfl : k = toks.length := by omega
      rw [Function.update_self, ← Option.some.inj hu]
      exact hrow
  · rw [List.length_append, List.length_singleton] at hk
    rw [Function.update_of_ne (by omega)]
    exact hs.rest k (by omega)

/-- A row that is passed over. -/
theorem Rows.skip (hs : Rows s toks) : Rows s (toks ++ [[]]) := by
  have hrow : Holds (s toks.length) 0 ([] ++ [0]) :=
    holds_cons.mpr ⟨hs.rest _ (Nat.le_refl _), Holds.nil⟩
  simpa using hs.snoc hrow

theorem Rows.unskip (hs : Rows s (toks ++ [[]])) : Rows s toks := by
  refine ⟨fun k t ht => ?_, fun k hk => ?_⟩
  · have hlt := (List.getElem?_eq_some_iff.mp ht).1
    exact hs.row k t (by rwa [List.getElem?_append_left hlt])
  · by_cases heq : k = toks.length
    · have hrow := hs.row k [] (by rw [heq]; simp)
      exact (holds_cons.mp hrow).1
    · exact hs.rest k (by simp; omega)

theorem storeLiteral_spec (hs : Rows s toks) (hnul : (0 : UInt8) ∉ lit) (hlen : lit.length < 50) :
    (between s toks lit).storeLiteral = none ∧ 100 ≤ (toks ++ flush lit).length ∨
      ∃ s' j, Rows s' (toks ++ flush lit) ∧ (between s toks lit).storeLiteral =
        some { temp := cells [], s := s', i := (toks ++ flush lit).length, j := j } := by
  have htext : (between s toks lit).text = some lit := text_eq rfl hnul hlen
  simp only [Split.storeLiteral, htext, Option.bind_eq_bind, Option.bind_some]
  by_cases hlit : lit = []
  · subst hlit
    exact .inr ⟨s, 0, by simpa [flush] using hs, by simp [between, flush]⟩
  · rw [if_pos hlit, flush, if_neg hlit, List.length_append, List.length_singleton]
    rcases store_spec (p := between s toks lit) rfl hnul hlen with
      ⟨hnone, hfull⟩ | ⟨row, -, hrow, hstore⟩
    · exact .inl ⟨by rw [hnone, Option.bind_none], Nat.le_succ_of_le hfull⟩
    · refine .inr ⟨_, lit.length, hs.snoc hrow, ?_⟩
      rw [hstore, Option.bind_some]
      exact clear_eq rfl rfl hlen

/-- The branch of a `%`. -/
theorem conversion_spec (hs : Rows s toks) (hnul : (0 : UInt8) ∉ lit) (hlen : lit.length < 50)
    {c : UInt8} (hc : c ≠ 0) :
    (between s toks lit).conversion c = none ∧ 100 ≤ (toks ++ flush lit).length ∨
      ∃ s', Rows s' (toks ++ flush lit ++ [[37, c]]) ∧ (between s toks lit).conversion c =
        some (between s' (toks ++ flush lit ++ [[37, c]]) []) := by
  simp only [Split.conversion, Option.bind_eq_bind]
  rcases storeLiteral_spec hs hnul hlen with ⟨hnone, hfull⟩ | ⟨s₁, j, hs₁, hsome⟩
  · exact .inl ⟨by rw [hnone, Option.bind_none], hfull⟩
  · rw [hsome, Option.bind_some]
    have htemp : Function.update (Function.update (cells []) 0 37) 1 c = cells [37, c] := by
      have hfirst : Function.update (cells []) 0 37 = cells [37] := cells_snoc [] 37
      rw [hfirst]
      exact cells_snoc [37] c
    have hback : Function.update (Function.update (cells [37, c]) 0 0) 1 0 = cells [] := by
      funext v
      match v with
      | 0 => rfl
      | 1 => rfl
      | v + 2 => simp [cells]
    have hstored := @store_spec ⟨cells [37, c], s₁, (toks ++ flush lit).length, j⟩ [37, c] rfl
      (by simpa using hc.symm) (by simp)
    simp only [Split.setFirst, Split.setSecond, htemp]
    rcases hstored with ⟨hnone, hfull⟩ | ⟨row, -, hrow, hstore⟩
    · exact .inl ⟨by rw [hnone, Option.bind_none], hfull⟩
    · refine .inr ⟨_, hs₁.snoc hrow, ?_⟩
      rw [hstore, Option.bind_some]
      simp only [Split.next, hback, between, List.length_append, List.length_singleton,
        List.length_nil]

/-- An empty literal leaves its row as it is. -/
theorem storeText_spec (hs : Rows s toks) (hnul : (0 : UInt8) ∉ lit) (hlen : lit.length < 50) :
    (between s toks lit).storeText = none ∧ 100 ≤ toks.length ∨ ∃ s', Rows s' (toks ++ [lit]) ∧
      (between s toks lit).storeText = some { between s toks lit with s := s' } := by
  have htext : (between s toks lit).text = some lit := text_eq rfl hnul hlen
  simp only [Split.storeText, htext, Option.bind_eq_bind, Option.bind_some]
  by_cases hlit : lit = []
  · subst hlit
    exact .inr ⟨s, hs.skip, rfl⟩
  · rw [if_pos hlit]
    rcases store_spec (p := between s toks lit) rfl hnul hlen with hnone | ⟨row, -, hrow, hstore⟩
    · exact .inl hnone
    · exact .inr ⟨_, hs.snoc hrow, hstore⟩

/-- The branch of a newline or tab. `i` goes on whether a literal was stored or not. -/
theorem newline_spec (hs : Rows s toks) (hnul : (0 : UInt8) ∉ lit) (hlen : lit.length < 50)
    {c : UInt8} (hc : c ≠ 0) :
    (between s toks lit).newline c = none ∧ 100 ≤ (toks ++ [lit]).length ∨
      ∃ s', Rows s' (toks ++ [lit] ++ [[c]]) ∧
        (between s toks lit).newline c = some (between s' (toks ++ [lit] ++ [[c]]) []) := by
  simp only [Split.newline, Option.bind_eq_bind]
  rcases storeText_spec hs hnul hlen with ⟨hnone, hfull⟩ | ⟨s₁, hs₁, hsome⟩
  · exact .inl ⟨by rw [hnone, Option.bind_none], by simp; omega⟩
  · rw [hsome, Option.bind_some, @clear_eq _ lit rfl rfl hlen, Option.bind_some]
    have htemp : Function.update (cells []) 0 c = cells [c] := cells_snoc [] c
    have hback : Function.update (cells [c]) 0 0 = cells [] := by
      funext v
      match v with
      | 0 => rfl
      | v + 1 => simp [cells]
    have hlength : (toks ++ [lit]).length = toks.length + 1 := by simp
    have hstored := @store_spec ⟨cells [c], s₁, (toks ++ [lit]).length, lit.length⟩ [c] rfl
      (by simpa using hc.symm) (by simp)
    simp only [Split.next, between, Split.setFirst, htemp, ← hlength]
    rcases hstored with ⟨hnone, hfull⟩ | ⟨row, -, hrow, hstore⟩
    · exact .inl ⟨by rw [hnone, Option.bind_none], hfull⟩
    · refine .inr ⟨_, hs₁.snoc hrow, ?_⟩
      rw [hstore, Option.bind_some]
      simp only [hback, List.length_append, List.length_singleton, List.length_nil]

/-- The literal that was begun is part of a token. -/
theorem exists_longer {fmt : List UInt8} {ps : List (List UInt8)}
    (h : cut (fun l => [l]) fmt lit = some ps) (hlit : lit ≠ []) :
    ∃ t ∈ ps, lit.length ≤ t.length := by
  induction fmt using format_induction generalizing lit ps with
  | nil =>
      obtain rfl := Option.some.inj h
      exact ⟨lit, by simp [flush, hlit], Nat.le_refl _⟩
  | stray => simp [cut] at h
  | percent d rest ih =>
      rw [cut_percent] at h
      obtain ⟨us, -, rfl⟩ := Option.map_eq_some_iff.mp h
      exact ⟨lit, by simp [flush, hlit], Nat.le_refl _⟩
  | other c rest hp ih =>
      by_cases hc : c = 10 ∨ c = 9
      · rw [cut_newline hp hc] at h
        obtain ⟨us, -, rfl⟩ := Option.map_eq_some_iff.mp h
        exact ⟨lit, by simp, Nat.le_refl _⟩
      · rw [cut_literal hp hc] at h
        obtain ⟨t, ht, hle⟩ := ih h (by simp)
        rw [List.length_append] at hle
        exact ⟨t, ht, by omega⟩

theorem literal_lt {fmt : List UInt8} {ps : List (List UInt8)}
    (h : cut (fun l => [l]) fmt lit = some ps) (hruns : ∀ t ∈ ps, t.length < 50) :
    lit.length < 50 := by
  by_cases hlit : lit = []
  · simp [hlit]
  · obtain ⟨t, ht, hle⟩ := exists_longer h hlit
    exact Nat.lt_of_le_of_lt hle (hruns t ht)

/-- The loop stores the pieces one after another, as long as there are rows. -/
theorem splitLoop_spec {fmt : List UInt8} {ps : List (List UInt8)} (hs : Rows s toks)
    (hfmt : (0 : UInt8) ∉ fmt) (hnul : (0 : UInt8) ∉ lit)
    (h : cut (fun l => [l]) fmt lit = some ps) (hruns : ∀ t ∈ ps, t.length < 50) :
    splitLoop fmt (between s toks lit) = none ∧ 100 ≤ (toks ++ ps).length ∨
      ∃ q, splitLoop fmt (between s toks lit) = some q ∧ Rows q.s (toks ++ ps) ∧
        (toks ++ ps).length ≤ 100 := by
  induction fmt using format_induction generalizing s toks lit ps with
  | nil =>
      have hlen := literal_lt h hruns
      obtain rfl := Option.some.inj h
      rw [splitLoop]
      rcases store_spec (p := between s toks lit) rfl hnul hlen with
        ⟨hnone, hfull⟩ | ⟨row, hi, hrow, hstore⟩
      · refine .inl ⟨hnone, ?_⟩
        rw [List.length_append]
        exact Nat.le_add_right_of_le hfull
      · have hrows := hs.snoc hrow
        refine .inr ⟨_, hstore, ?_, ?_⟩
        · by_cases hlit : lit = []
          · subst hlit
            rw [flush, if_pos rfl, List.append_nil]
            exact hrows.unskip
          · rw [flush, if_neg hlit]
            exact hrows
        · have hone : (flush lit).length ≤ 1 := by
            unfold flush
            split_ifs <;> simp
          have hroom : toks.length < 100 := hi
          rw [List.length_append]
          omega
  | stray => simp [cut] at h
  | percent d rest ih =>
      have hlen := literal_lt h hruns
      rw [cut_percent] at h
      obtain ⟨us, hus, rfl⟩ := Option.map_eq_some_iff.mp h
      simp only [List.mem_cons, not_or] at hfmt
      rw [splitLoop, if_pos rfl]
      rcases conversion_spec hs hnul hlen (c := d) (Ne.symm hfmt.2.1) with
        ⟨hnone, hfull⟩ | ⟨s', hs', hsome⟩
      · refine .inl ⟨by rw [hnone, Option.bind_none], ?_⟩
        simp only [List.length_append, List.length_cons] at hfull ⊢
        omega
      · rw [hsome, Option.bind_some]
        have hrest := ih hs' hfmt.2.2 (by simp) hus fun t ht => hruns t (by simp [ht])
        simpa only [List.append_assoc, List.singleton_append] using hrest
  | other c rest hp ih =>
      have hlen := literal_lt h hruns
      simp only [List.mem_cons, not_or] at hfmt
      rw [splitLoop_character hp, Split.character]
      by_cases hc : c = 10 ∨ c = 9
      · rw [cut_newline hp hc] at h
        obtain ⟨us, hus, rfl⟩ := Option.map_eq_some_iff.mp h
        rw [if_pos hc]
        rcases newline_spec hs hnul hlen (c := c) (Ne.symm hfmt.1) with
          ⟨hnone, hfull⟩ | ⟨s', hs', hsome⟩
        · refine .inl ⟨by rw [hnone, Option.bind_none], ?_⟩
          simp only [List.length_append, List.length_cons] at hfull ⊢
          omega
        · rw [hsome, Option.bind_some]
          have hrest := ih hs' hfmt.2 (by simp) hus fun t ht => hruns t (by simp [ht])
          simpa only [List.append_assoc, List.singleton_append, List.cons_append,
            List.nil_append] using hrest
      · rw [cut_literal hp hc] at h
        have hliteral : (between s toks lit).literal c = some (between s toks (lit ++ [c])) := by
          rw [Split.literal, if_pos (show (between s toks lit).j < 50 from hlen)]
          simp only [between, cells_snoc, List.length_append, List.length_singleton]
        rw [if_neg hc, hliteral, Option.bind_some]
        exact ih hs hfmt.2 (by simp [hnul, hfmt.1]) h hruns

end Turn

section Tokens

variable {fmt : List UInt8} {ts ps : List (List UInt8)}

theorem takeWhile_append_nils (ps : List (List UInt8)) (n : Nat) :
    (ps ++ List.replicate n []).takeWhile (· ≠ []) = ps.takeWhile (· ≠ []) := by
  induction ps with
  | nil =>
      cases n with
      | zero => rfl
      | succ n => simp [List.replicate_succ]
  | cons t ps ih =>
      rw [List.cons_append, List.takeWhile_cons, List.takeWhile_cons, ih]

/-- The rows that `printf` reads. -/
theorem Rows.printfTokens {s : Nat → Nat → UInt8} (hs : Rows s ps) (hcount : ps.length ≤ 100)
    (hps : ∀ t ∈ ps, (0 : UInt8) ∉ t ∧ t.length < 50) :
    Libc.printfTokens s = ps.takeWhile (· ≠ []) := by
  have hrows : (List.range 100).map (fun i => strAt (s i) 100 0) =
      ps ++ List.replicate (100 - ps.length) [] := by
    refine List.ext_getElem (by simp; omega) fun k hk hk' => ?_
    rw [List.getElem_map, List.getElem_range]
    by_cases hlt : k < ps.length
    · obtain ⟨hnul, hlen⟩ := hps ps[k] (List.getElem_mem hlt)
      rw [List.getElem_append_left hlt]
      exact (hs.row k ps[k] (List.getElem?_eq_getElem hlt)).strAt hnul (by omega)
    · rw [List.getElem_append_right (by omega), List.getElem_replicate, strAt,
        if_pos (hs.rest k (by omega))]
  rw [Libc.printfTokens, hrows, takeWhile_append_nils]

/-- With a row passed over, what is read is not the whole format. -/
theorem takeWhile_flatten_ne (hmem : [] ∈ ps) (hlast : ps.getLast? ≠ some []) :
    (ps.takeWhile (· ≠ [])).flatten ≠ ps.flatten := by
  intro hsame
  have hsplit : ps.takeWhile (· ≠ []) ++ ps.dropWhile (· ≠ []) = ps :=
    List.takeWhile_append_dropWhile
  have hnil : (ps.dropWhile (· ≠ [])).flatten = [] := by
    have hflat := congrArg List.flatten hsplit
    rw [List.flatten_append, hsame] at hflat
    exact List.append_right_eq_self.mp hflat
  have hne : ps.dropWhile (· ≠ []) ≠ [] := by
    intro hdrop
    simpa using List.dropWhile_eq_nil_iff.mp hdrop [] hmem
  refine hlast ?_
  rw [← hsplit, List.getLast?_append, List.getLast?_eq_getLast_of_ne_nil hne, Option.some_or,
    List.flatten_eq_nil_iff.mp hnil _ (List.getLast_mem hne)]

/-- `printf` gets the whole format when every newline and tab is led by a literal: for
one that is not, `i` passes over a row, and `printf` goes no further than there. -/
theorem splits_whole_iff (hnul : (0 : UInt8) ∉ fmt) (hts : tokenize fmt = some ts)
    (hruns : ∀ t ∈ ts, t.length < 50) (hcount : ts.length < 99) :
    SplitsWhole fmt ↔ Led fmt false := by
  obtain ⟨ps, hps, hfilter, hled, hlast⟩ := cut_single hts
  have hflat : ps.flatten = fmt := by
    rw [cut_flatten (fun l => by simp) hps, List.nil_append]
  have hruns' : ∀ t ∈ ps, (0 : UInt8) ∉ t ∧ t.length < 50 := by
    intro t ht
    refine ⟨fun hzero => hnul (hflat ▸ List.mem_flatten.mpr ⟨t, ht, hzero⟩), ?_⟩
    by_cases hnil : t = []
    · simp [hnil]
    · exact hruns t (hfilter ▸ List.mem_filter.mpr ⟨ht, by simpa using hnil⟩)
  have hstart : Rows Split.start.s [] := ⟨by simp, fun _ _ => rfl⟩
  have hrun := splitLoop_spec hstart hnul (by simp) hps fun t ht => (hruns' t ht).2
  rw [List.nil_append] at hrun
  constructor
  · rintro ⟨s, hs, hwhole, -⟩
    by_contra hnot
    obtain ⟨q, hq, rfl⟩ := Option.map_eq_some_iff.mp hs
    rcases hrun with ⟨hnone, -⟩ | ⟨q', hq', hrows, hroom⟩
    · exact absurd (hnone.symm.trans hq) (by simp)
    · obtain rfl : q' = q := Option.some.inj (hq'.symm.trans hq)
      rw [hrows.printfTokens hroom hruns', ← hflat] at hwhole
      exact takeWhile_flatten_ne (not_not.mp fun h => hnot (hled.mp h)) hlast hwhole
  · intro hok
    have hne : [] ∉ ps := hled.mpr hok
    obtain rfl : ps = ts := by
      rw [← hfilter, List.filter_eq_self.mpr]
      intro t ht
      simpa using fun h : t = [] => hne (h ▸ ht)
    rcases hrun with ⟨-, hfull⟩ | ⟨q, hq, hrows, hroom⟩
    · omega
    · have hread : printfTokens q.s = ps := by
        rw [hrows.printfTokens hroom hruns', List.takeWhile_eq_self_iff]
        intro t ht
        simpa using fun h : t = [] => hne (h ▸ ht)
      refine ⟨q.s, Option.map_eq_some_iff.mpr ⟨q, hq, rfl⟩, by rw [hread, hflat], ?_⟩
      rw [hread]
      exact tokenize_isToken (by simp) hts

end Tokens

/-- The format `%d a\n`. -/
theorem splits_whole_led :
    SplitsWhole [37, 100, 32, 97, 10] ↔ Led [37, 100, 32, 97, 10] false :=
  @splits_whole_iff [37, 100, 32, 97, 10] [[37, 100], [32, 97], [10]] (by decide) (by decide)
    (by decide) (by decide)

/-- Of `%d\n` only the conversion is read. -/
theorem splits_not_whole :
    ¬ ∀ (fmt : List UInt8) (ts : List (List UInt8)), 0 ∉ fmt → tokenize fmt = some ts →
      (∀ t ∈ ts, t.length < 50) → ts.length < 99 → SplitsWhole fmt := by
  intro h
  obtain ⟨s, hs, hflat, -⟩ := h [37, 100, 10] [[37, 100], [10]] (by decide) (by decide)
    (by decide) (by decide)
  have hread : (stringSplit [37, 100, 10]).map printfTokens = some [[37, 100]] := by decide
  rw [hs, Option.map_some, Option.some.injEq] at hread
  rw [hread] at hflat
  exact absurd hflat (by decide)

end X86Kernel.Libc
