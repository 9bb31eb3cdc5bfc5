import X86Kernel.Libc.Strings
import Mathlib.Data.List.Nodup
import Mathlib.Data.List.Perm.Subperm
import Mathlib.Tactic.Push

/-!
The environment of a user program (`env.c`). A variable stands in one row as
`NAME=VALUE`, and `getvar` copies the name to a buffer of its own. `setenv` looks
through the rows for the name; `getenv` returns in the first turn of its loop, with
the address of the `=` in the first row, whatever it was asked for.
-/

namespace X86Kernel.Libc

open Lib

structure Env where
  envVar : Nat → Nat → UInt8
  envLength : Nat
  temp : Nat → UInt8

/-- The loop of `getvar` from `i` on, when `temp` has `n` bytes left. -/
def getvarLoop (name : Nat → UInt8) : Nat → Nat → (Nat → UInt8) → Option (Nat → UInt8)
  | 0, _, _ => none
  | n + 1, i, temp =>
      if name i = 61 then some (Function.update temp i 0)
      else getvarLoop name n (i + 1) (Function.update temp i (name i))

namespace Env

def start : Env := { envVar := fun _ _ => 0, envLength := 0, temp := fun _ => 0 }

def getvar (s : Env) (i : Nat) : Option Env :=
  (getvarLoop (s.envVar i) 50 0 s.temp).map fun temp => { s with temp := temp }

def name (s : Env) : List UInt8 := strAt s.temp 50 0

/-- The loop of `getenv`, with `n` variables left: its first turn returns. The result
is the address of the value, as a row and a column. -/
def getenvLoop (s : Env) : Nat → Nat → Option (Option (Nat × Nat) × Env)
  | 0, _ => some (none, s)
  | _ + 1, i => do
      let s ← s.getvar i
      let k := s.name.length
      some (some (i, k), s)

/-- `getenv`, which does not use its argument. -/
def getenv (s : Env) (_name : List UInt8) : Option (Option (Nat × Nat) × Env) :=
  s.getenvLoop s.envLength 0

/-- The loop of `setenv`, with `n` variables left. -/
def setenvLoop (name value : List UInt8) : Nat → Nat → Env → Option (Int × Env)
  | 0, _, s => some (0, s)
  | n + 1, i, s => do
      let s ← s.getvar i
      if name = s.name then do
        let k := s.name.length
        let row ← strcpy 1000 (s.envVar i) (k + 1) value
        some (1, { s with envVar := Function.update s.envVar i row })
      else setenvLoop name value n (i + 1) s

/-- `setenv`, which does not use its last argument either. -/
def setenv (s : Env) (name value : List UInt8) (_overwrite : Int) : Option (Int × Env) :=
  setenvLoop name value s.envLength 0 s

/-- The loop of `pushenvs` from row `i` on. -/
def pushenvsLoop : List (List UInt8) → Nat → Env → Option Env
  | [], i, s => some { s with envLength := i }
  | e :: envp, i, s =>
      if i < 1000 then do
        let row ← strcpy 1000 (s.envVar i) 0 e
        pushenvsLoop envp (i + 1) { s with envVar := Function.update s.envVar i row }
      else none

def pushenvs (s : Env) (envp : List (List UInt8)) : Option Env := pushenvsLoop envp 0 s

def value (s : Env) (m : List UInt8) : Option (Option (List UInt8)) :=
  (s.getenv m).map fun r => r.1.map fun p => strAt (r.2.envVar p.1) 1000 p.2

end Env

abbrev Binding := List UInt8 × List UInt8

def Binding.text (b : Binding) : List UInt8 := b.1 ++ 61 :: b.2

/-- A name that fits in `temp`. -/
def IsName (n : List UInt8) : Prop := 0 ∉ n ∧ 61 ∉ n ∧ n.length < 50

/-- The binding is a string that fits in a row. -/
def Binding.Fits (b : Binding) : Prop := IsName b.1 ∧ 0 ∉ b.2 ∧ b.text.length < 1000

instance (n : List UInt8) : Decidable (IsName n) := inferInstanceAs (Decidable (_ ∧ _))

instance (b : Binding) : Decidable b.Fits := inferInstanceAs (Decidable (_ ∧ _))

def names (E : List Binding) : List (List UInt8) := E.map Prod.fst

structure Vars (E : List Binding) : Prop where
  count : E.length ≤ 1000
  distinct : (names E).Nodup
  fits : ∀ b ∈ E, b.Fits

/-- The environment after an assignment to a variable that is there. -/
def assign (E : List Binding) (n v : List UInt8) : List Binding :=
  E.map fun b => if b.1 = n then (n, v) else b

/-- What is to be seen of the environment `names` at every point of a sequence of
calls `setenv(n, v, 1)`. -/
def Env.Behaves (names : List (List UInt8)) (s : Env) : List Binding → Prop
  | [] => ∀ m, IsName m → m ∉ names → s.value m = some none
  | (n, v) :: calls =>
      (∀ m, IsName m → m ∉ names → s.value m = some none) ∧
        ∃ r t, s.setenv n v 1 = some (r, t) ∧ (r = 1 ↔ n ∈ names) ∧
          (n ∈ names → t.value n = some (some v)) ∧
          (∀ m, IsName m → m ≠ n → t.value m = s.value m) ∧ Env.Behaves names t calls

structure Env.Stands (s : Env) (E : List Binding) : Prop where
  length : s.envLength = E.length
  row : ∀ (i : Nat) (b : Binding), E[i]? = some b → Holds (s.envVar i) 0 (b.text ++ [0])

section Rows

variable {s : Env} {E : List Binding} {i : Nat} {b : Binding} {w : List UInt8}

/-- `getvar` copies up to the first `=`. -/
theorem getvarLoop_spec {row : Nat → UInt8} {n : Nat} (hrow : Holds row i (w ++ [61]))
    (heq : (61 : UInt8) ∉ w) (hlen : w.length < n) (temp : Nat → UInt8) :
    ∃ temp', getvarLoop row n i temp = some temp' ∧ Holds temp' i (w ++ [0]) ∧
      ∀ v < i, temp' v = temp v := by
  induction w generalizing i n temp with
  | nil =>
      obtain ⟨n, rfl⟩ : ∃ m, n = m + 1 := ⟨n - 1, by simp only [List.length_nil] at hlen; omega⟩
      refine ⟨_, if_pos (holds_cons.mp hrow).1, ?_, fun v hv => ?_⟩
      · exact holds_cons.mpr ⟨Function.update_self .., Holds.nil⟩
      · exact Function.update_of_ne (by omega) _ _
  | cons c w ih =>
      simp only [List.length_cons] at hlen
      obtain ⟨n, rfl⟩ : ∃ m, n = m + 1 := ⟨n - 1, by omega⟩
      obtain ⟨hc, htail⟩ := holds_cons.mp hrow
      simp only [List.mem_cons, not_or] at heq
      have hne : ¬ row i = 61 := by
        rw [hc]
        exact Ne.symm heq.1
      obtain ⟨temp', hloop, hholds, hbelow⟩ :=
        ih htail heq.2 (show w.length < n by omega) (Function.update temp i (row i))
      refine ⟨temp', by rw [getvarLoop, if_neg hne, hloop], ?_, fun v hv => ?_⟩
      · refine holds_cons.mpr ⟨?_, hholds⟩
        rw [hbelow i (by omega), Function.update_self, hc]
      · rw [hbelow v (by omega), Function.update_of_ne (by omega)]

/-- The name of a variable comes to stand in `temp`. -/
theorem getvar_spec (hs : s.Stands E) (hb : E[i]? = some b) (hname : IsName b.1) :
    ∃ temp, s.getvar i = some { s with temp := temp } ∧
      ({ s with temp := temp } : Env).name = b.1 := by
  have hrow := hs.row i b hb
  rw [Binding.text, List.append_assoc] at hrow
  have hwhole : Holds (s.envVar i) 0 ((b.1 ++ [61]) ++ (b.2 ++ [0])) := by simpa using hrow
  have hhead := hwhole.left
  obtain ⟨temp, hloop, hholds, -⟩ := getvarLoop_spec hhead hname.2.1 hname.2.2 s.temp
  exact ⟨temp, by rw [Env.getvar, hloop]; rfl, hholds.strAt hname.1 hname.2.2⟩

/-- The row of a binding whose value is replaced. -/
theorem replace_value {row : Nat → UInt8} {n v v' : List UInt8}
    (hrow : Holds row 0 (Binding.text (n, v) ++ [0]))
    (hfits : (Binding.text (n, v')).length < 1000) :
    ∃ row', strcpy 1000 row (n.length + 1) v' = some row' ∧
      Holds row' 0 (Binding.text (n, v') ++ [0]) := by
  simp only [Binding.text, List.length_append, List.length_cons, List.append_assoc] at hrow hfits ⊢
  have hroom : n.length + 1 + v'.length < 1000 := by omega
  obtain ⟨row', hcopy, hholds, hrest⟩ := strcpy_spec row hroom
  refine ⟨row', hcopy, ?_⟩
  obtain ⟨hn, hv⟩ := holds_append.mp hrow
  refine holds_append.mpr ⟨hn.congr fun v _ hv => hrest v (by omega), holds_cons.mpr ⟨?_, ?_⟩⟩
  · rw [hrest _ (by omega)]
    exact (holds_cons.mp hv).1
  · rwa [Nat.zero_add]

/-- A binding somewhere else in the list. -/
theorem Env.Stands.update (hs : s.Stands E) (temp row : Nat → UInt8) {b' : Binding}
    (hrow : Holds row 0 (b'.text ++ [0])) :
    ({ s with envVar := Function.update s.envVar i row, temp := temp } : Env).Stands
      (E.set i b') := by
  refine ⟨by simpa using hs.length, fun j c hc => ?_⟩
  by_cases hji : j = i
  · subst hji
    obtain rfl : b' = c := by
      rw [List.getElem?_set, if_pos rfl] at hc
      split_ifs at hc
      exact Option.some.inj hc
    simpa using hrow
  · rw [List.getElem?_set_ne (Ne.symm hji)] at hc
    simpa [Function.update_of_ne hji] using hs.row j c hc

/-- `pushenvs` copies the list. -/
theorem pushenvsLoop_spec {E' : List Binding} (hE : ∀ b ∈ E', b.Fits)
    (hcount : E.length + E'.length ≤ 1000)
    (hs : ∀ (i : Nat) (b : Binding), E[i]? = some b → Holds (s.envVar i) 0 (b.text ++ [0])) :
    ∃ t, Env.pushenvsLoop (E'.map Binding.text) E.length s = some t ∧ t.Stands (E ++ E') := by
  induction E' generalizing E s with
  | nil => exact ⟨_, rfl, by simp, by simpa using hs⟩
  | cons b E' ih =>
      simp only [List.length_cons] at hcount
      obtain ⟨-, -, hlen⟩ := hE b (by simp)
      obtain ⟨row, hcopy, hholds, -⟩ :=
        strcpy_spec (s.envVar E.length) (show 0 + b.text.length < 1000 by omega)
      have hrows : ∀ (i : Nat) (c : Binding), (E ++ [b])[i]? = some c →
          Holds (Function.update s.envVar E.length row i) 0 (c.text ++ [0]) := by
        intro i c hc
        by_cases hi : i < E.length
        · rw [List.getElem?_append_left hi] at hc
          rw [Function.update_of_ne (by omega)]
          exact hs i c hc
        · obtain ⟨rfl, rfl⟩ : i = E.length ∧ b = c := by
            rw [List.getElem?_append_right (by omega), List.getElem?_singleton] at hc
            split_ifs at hc with hzero
            exact ⟨by omega, Option.some.inj hc⟩
          rwa [Function.update_self]
      obtain ⟨t, hloop, ht⟩ := ih (E := E ++ [b])
        (s := { s with envVar := Function.update s.envVar E.length row })
        (fun c hc => hE c (by simp [hc])) (by simp; omega) hrows
      refine ⟨t, ?_, by simpa using ht⟩
      rw [List.map_cons, Env.pushenvsLoop, if_pos (by omega), hcopy]
      simpa using hloop

theorem pushenvs_spec (s : Env) (hE : Vars E) :
    ∃ t, s.pushenvs (E.map Binding.text) = some t ∧ t.Stands E :=
  pushenvsLoop_spec (E := []) hE.fits (by simpa using hE.count) (by simp)

theorem names_assign (E : List Binding) (n v : List UInt8) : names (assign E n v) = names E := by
  rw [names, assign, List.map_map]
  refine List.map_congr_left fun b _ => ?_
  by_cases hb : b.1 = n
  · simp [hb]
  · simp [hb]

theorem mem_names {n : List UInt8} : n ∈ names E ↔ ∃ b ∈ E, b.1 = n := List.mem_map

theorem assign_of_notMem {n v : List UInt8} (hn : n ∉ names E) : assign E n v = E := by
  refine (List.map_congr_left fun b hb => ?_).trans E.map_id
  exact if_neg fun h => hn (mem_names.mpr ⟨b, hb, h⟩)

/-- With distinct names one binding changes. -/
theorem assign_eq_set {v : List UInt8} (hE : (names E).Nodup) (hb : E[i]? = some b) :
    assign E b.1 v = E.set i (b.1, v) := by
  obtain ⟨hi, hbi⟩ := List.getElem?_eq_some_iff.mp hb
  refine List.ext_getElem (by simp [assign]) fun j hj hj' => ?_
  have hjE : j < E.length := by simpa using hj'
  simp only [assign, List.getElem_map, List.getElem_set]
  by_cases hij : i = j
  · subst hij
    rw [if_pos rfl, if_pos (by rw [hbi])]
  · rw [if_neg hij, if_neg fun h => hij ?_]
    have hin : i < (names E).length := by simpa [names] using hi
    have hjn : j < (names E).length := by simpa [names] using hjE
    have hsame : (names E)[i] = (names E)[j] := by simp [names, h, hbi]
    exact hE.getElem_inj_iff.mp hsame

/-- The loop of `setenv`, when the rows before `i` are not the name's. -/
theorem setenvLoop_spec {n v : List UInt8} {k : Nat} (hE : Vars E) (hs : s.Stands E)
    (hfits : n ∈ names E → (Binding.text (n, v)).length < 1000)
    (hk : i + k = E.length) (hbefore : n ∉ names (E.take i)) :
    ∃ t, Env.setenvLoop n v k i s = some (if n ∈ names E then 1 else 0, t) ∧
      t.Stands (assign E n v) := by
  induction k generalizing i s with
  | zero =>
      rw [List.take_of_length_le (by omega)] at hbefore
      exact ⟨s, by rw [if_neg hbefore, Env.setenvLoop], by rwa [assign_of_notMem hbefore]⟩
  | succ k ih =>
      have hi : i < E.length := by omega
      have hb : E[i]? = some E[i] := List.getElem?_eq_getElem hi
      have hmem : E[i] ∈ E := List.getElem_mem hi
      generalize E[i] = b at hb hmem
      obtain ⟨temp, hget, hname⟩ := getvar_spec hs hb (hE.fits b hmem).1
      simp only [Env.setenvLoop, hget, Option.bind_eq_bind, Option.bind_some, hname]
      by_cases hn : n = b.1
      · subst hn
        have hin : b.1 ∈ names E := mem_names.mpr ⟨b, hmem, rfl⟩
        obtain ⟨row, hcopy, hholds⟩ := replace_value (hs.row i b hb) (hfits hin)
        refine ⟨_, by rw [if_pos rfl, hcopy, if_pos hin]; rfl, ?_⟩
        rw [assign_eq_set hE.distinct hb]
        exact hs.update temp row hholds
      · rw [if_neg hn]
        refine ih ⟨hs.length, hs.row⟩ (by omega) ?_
        rw [List.take_add_one, hb, Option.toList_some, names, List.map_append, List.mem_append,
          not_or]
        exact ⟨hbefore, by simpa using hn⟩

/-- `setenv` changes the value of the variable with this name, if there is one. -/
theorem setenv_spec {n v : List UInt8} (hE : Vars E) (hs : s.Stands E)
    (hfits : n ∈ names E → (Binding.text (n, v)).length < 1000) (overwrite : Int) :
    ∃ t, s.setenv n v overwrite = some (if n ∈ names E then 1 else 0, t) ∧
      t.Stands (assign E n v) := by
  rw [Env.setenv, hs.length]
  exact setenvLoop_spec hE hs hfits (Nat.zero_add _) (by simp [names])

/-- `getenv` finds the first variable and returns the address of its `=`. -/
theorem value_eq (hE : Vars E) (hs : s.Stands E) (m : List UInt8) :
    s.value m = some (E.head?.map fun b => 61 :: b.2) := by
  cases E with
  | nil =>
      rw [Env.value, Env.getenv, hs.length]
      rfl
  | cons b E =>
      obtain ⟨hname, hnul, hlen⟩ := hE.fits b (by simp)
      obtain ⟨temp, hget, htemp⟩ := getvar_spec hs (b := b) (i := 0) rfl hname
      have hrow := hs.row 0 b rfl
      rw [Binding.text, List.append_assoc] at hrow
      have hval : strAt (s.envVar 0) 1000 b.1.length = 61 :: b.2 := by
        refine (hrow.right (Nat.zero_add _).symm).strAt ?_ ?_
        · simpa using hnul
        · simp only [Binding.text, List.length_append] at hlen
          omega
      rw [Env.value, Env.getenv, hs.length, List.length_cons, Env.getenvLoop, hget]
      simp [htemp, hval]

end Rows

def shortName (k : Nat) : List UInt8 := [UInt8.ofNat (65 + k % 32), UInt8.ofNat (65 + k / 32)]

theorem shortName_isName {k : Nat} (hk : k < 1001) : IsName (shortName k) := by
  have hbyte : ∀ x < 100, (0 : UInt8) ≠ UInt8.ofNat (65 + x) ∧ 61 ≠ UInt8.ofNat (65 + x) := by
    decide
  obtain ⟨hlow, hlow'⟩ := hbyte (k % 32) (by omega)
  obtain ⟨hhigh, hhigh'⟩ := hbyte (k / 32) (by omega)
  refine ⟨?_, ?_, by simp [shortName]⟩
  · simp only [shortName, List.mem_cons, List.not_mem_nil, or_false, not_or]
    exact ⟨hlow, hhigh⟩
  · simp only [shortName, List.mem_cons, List.not_mem_nil, or_false, not_or]
    exact ⟨hlow', hhigh'⟩

/-- There is always a name that no variable has. -/
theorem exists_absent {l : List (List UInt8)} (hl : l.length ≤ 1000) :
    ∃ m, IsName m ∧ m ∉ l := by
  by_contra hall
  push Not at hall
  have hsub : (List.range 1001).map shortName ⊆ l := by
    intro m hm
    obtain ⟨k, hk, rfl⟩ := List.mem_map.mp hm
    exact hall _ (shortName_isName (List.mem_range.mp hk))
  have hnodup : ((List.range 1001).map shortName).Nodup := by
    refine List.Nodup.map_on (fun j hj k hk h => ?_) List.nodup_range
    rw [List.mem_range] at hj hk
    simp only [shortName, List.cons.injEq, and_true] at h
    have hlow := congrArg UInt8.toNat h.1
    have hhigh := congrArg UInt8.toNat h.2
    simp only [UInt8.toNat_ofNat'] at hlow hhigh
    omega
  have hcount := (List.subperm_of_subset hnodup hsub).length_le
  rw [List.length_map, List.length_range] at hcount
  omega

section Calls

variable {s : Env} {E : List Binding}

/-- Calls `setenv(n, v, 1)` one after another, with what they return. -/
def Env.setenvs : Env → List Binding → Option (List Int × Env)
  | s, [] => some ([], s)
  | s, (n, v) :: calls => do
      let (r, t) ← s.setenv n v 1
      let (rs, u) ← Env.setenvs t calls
      some (r :: rs, u)

theorem lookup_assign (E : List Binding) (n v m : List UInt8) :
    (assign E n v).lookup m = if m = n ∧ n ∈ names E then some v else E.lookup m := by
  induction E with
  | nil => simp [assign, names]
  | cons b E ih =>
      have hcons : assign (b :: E) n v = (if b.1 = n then (n, v) else b) :: assign E n v := rfl
      rw [hcons]
      by_cases hb : b.1 = n
      · obtain ⟨k, w⟩ := b
        obtain rfl : k = n := hb
        by_cases hm : m = k
        · simp [hm, names]
        · simp [List.lookup_cons, beq_eq_false_iff_ne.mpr hm, ih, hm]
      · rw [if_neg hb]
        obtain ⟨k, w⟩ := b
        by_cases hm : m = k
        · simp only [hm, List.lookup_cons_self]
          exact (if_neg fun h => hb h.1).symm
        · have hnames : n ∈ names ((k, w) :: E) ↔ n ∈ names E := by
            rw [names, List.map_cons, List.mem_cons, ← names]
            exact or_iff_right (Ne.symm hb)
          simp only [List.lookup_cons, beq_eq_false_iff_ne.mpr hm, ih, hnames]

/-- An assignment keeps the environment well formed. -/
theorem Vars.assign {n v : List UInt8} (hE : Vars E)
    (hfits : n ∈ names E → Binding.Fits (n, v)) : Vars (Libc.assign E n v) := by
  refine ⟨by simpa [Libc.assign] using hE.count, by rw [names_assign]; exact hE.distinct, ?_⟩
  intro c hc
  obtain ⟨b, hb, rfl⟩ := List.mem_map.mp hc
  by_cases hbn : b.1 = n
  · rw [if_pos hbn]
    exact hfits (mem_names.mpr ⟨b, hb, hbn⟩)
  · rw [if_neg hbn]
    exact hE.fits b hb

/-- The rows are a map on which `setenv` is the assignment. -/
theorem setenvs_spec (hE : Vars E) (hs : s.Stands E) {calls : List Binding}
    (hcalls : ∀ c ∈ calls, c.1 ∈ names E → c.Fits) :
    ∃ t, s.setenvs calls = some (calls.map fun c => if c.1 ∈ names E then 1 else 0, t) ∧
      t.Stands (calls.foldl (fun E c => assign E c.1 c.2) E) := by
  induction calls generalizing s E with
  | nil => exact ⟨s, rfl, hs⟩
  | cons c calls ih =>
      have hfits := hcalls c (by simp)
      obtain ⟨t, hset, ht⟩ := setenv_spec hE hs (fun h => (hfits h).2.2) 1
      obtain ⟨u, hrun, hu⟩ := ih (hE.assign hfits) ht fun d hd h =>
        hcalls d (by simp [hd]) (by rwa [names_assign] at h)
      rw [names_assign] at hrun
      exact ⟨u, by simp [Env.setenvs, hset, hrun], hu⟩

end Calls

section Behaves

variable {s : Env} {E : List Binding}

/-- Without variables nothing is found and nothing is set. -/
theorem behaves_nil (hs : s.Stands []) (calls : List Binding) : s.Behaves [] calls := by
  have hvars : Vars [] := ⟨by simp, List.nodup_nil, by simp⟩
  induction calls generalizing s with
  | nil => exact fun m _ _ => value_eq hvars hs m
  | cons c calls ih =>
      obtain ⟨t, hset, ht⟩ := setenv_spec (n := c.1) (v := c.2) hvars hs (by simp [names]) 1
      refine ⟨fun m _ _ => value_eq hvars hs m, _, t, hset, by simp [names], by simp,
        fun m _ _ => ?_, ih ht⟩
      rw [value_eq hvars hs m, value_eq hvars ht m]

/-- Every point of a sequence of calls is one where absent names are not found. -/
theorem Env.Behaves.absent {l : List (List UInt8)} {calls : List Binding}
    (h : s.Behaves l calls) {m : List UInt8} (hm : IsName m) (hnot : m ∉ l) :
    s.value m = some none := by
  cases calls with
  | nil => exact h m hm hnot
  | cons c calls => exact h.1 m hm hnot

/-- The environment is a map as long as it has no variables: of others, `getenv`
returns the text behind the first name for every name that is asked for. -/
theorem environment_behaves_iff {calls : List Binding} (hE : Vars E) :
    (∃ s, Env.start.pushenvs (E.map Binding.text) = some s ∧ s.Behaves (names E) calls) ↔
      E = [] := by
  obtain ⟨s, hpush, hs⟩ := pushenvs_spec Env.start hE
  constructor
  · rintro ⟨s', hs', hbehaves⟩
    obtain rfl : s = s' := Option.some.inj (hpush.symm.trans hs')
    obtain ⟨m, hm, hnot⟩ := exists_absent (l := names E) (by simpa [names] using hE.count)
    have hvalue := hbehaves.absent hm hnot
    rw [value_eq hE hs, Option.some.injEq, Option.map_eq_none_iff] at hvalue
    exact List.head?_eq_none_iff.mp hvalue
  · rintro rfl
    exact ⟨s, hpush, behaves_nil hs calls⟩

/-- The variable `P=1`, which is then set to `2`. -/
theorem environment_behaves_one :
    (∃ s, Env.start.pushenvs ([Binding.text ([80], [49])]) = some s ∧
      s.Behaves [[80]] [([80], [50])]) ↔ [(([80], [49]) : Binding)] = [] :=
  environment_behaves_iff (E := [([80], [49])]) ⟨by decide, by decide, by decide⟩

/-- `setenv("P", "2", 1)` is followed by a `getenv("P")` that returns `=2`. -/
theorem environment_not_behaves :
    ¬ ∀ E calls : List Binding, Vars E → (∀ c ∈ calls, c.Fits) →
      ∃ s, Env.start.pushenvs (E.map Binding.text) = some s ∧ s.Behaves (names E) calls := by
  intro h
  obtain ⟨s, hs, -, r, t, hset, -, hvalue, -⟩ := h [([80], [49])] [([80], [50])]
    ⟨by decide, by decide, by decide⟩ (by decide)
  have hrun : (do
      let s ← Env.start.pushenvs [Binding.text ([80], [49])]
      let (_, t) ← s.setenv [80] [50] 1
      t.value [80]) = some (some [61, 50]) := by decide
  rw [List.map_cons, List.map_nil] at hs
  simp [hs, hset, hvalue (by decide)] at hrun

end Behaves

end X86Kernel.Libc
