import Mathlib.Data.List.Basic
import Mathlib.Data.UInt
import Mathlib.Logic.Function.Basic

/-!
Lists laid out in a memory, which is a function of the address, and strings
that end with a NUL.
-/

namespace X86Kernel.Lib

variable {α : Type*} {mem : Nat → α} {a : Nat}

def ascii (s : String) : List UInt8 := s.toList.map fun c => UInt8.ofNat c.toNat

/-- The elements of `l` stand at `a`, `a + 1` and so on. -/
def Holds (mem : Nat → α) (a : Nat) (l : List α) : Prop :=
  ∀ i x, l[i]? = some x → mem (a + i) = x

theorem Holds.nil : Holds mem a [] := by
  intro i x hx
  simp at hx

theorem holds_cons {x : α} {l : List α} :
    Holds mem a (x :: l) ↔ mem a = x ∧ Holds mem (a + 1) l := by
  constructor
  · intro h
    refine ⟨h 0 x rfl, fun i y hy => ?_⟩
    rw [Nat.add_assoc, Nat.add_comm 1 i]
    exact h (i + 1) y hy
  · rintro ⟨hx, hl⟩ i y hy
    cases i with
    | zero =>
        obtain rfl := Option.some.inj hy
        exact hx
    | succ i =>
        have htail := hl i y hy
        rwa [Nat.add_assoc, Nat.add_comm 1 i] at htail

theorem holds_append {l l' : List α} :
    Holds mem a (l ++ l') ↔ Holds mem a l ∧ Holds mem (a + l.length) l' := by
  induction l generalizing a with
  | nil => simp [Holds.nil]
  | cons x l ih =>
      rw [List.cons_append, holds_cons, holds_cons, ih, List.length_cons, and_assoc,
        Nat.add_assoc, Nat.add_comm 1]

/-- Where the first list ends the second begins. -/
theorem Holds.right {l l' : List α} (h : Holds mem a (l ++ l')) {b : Nat}
    (hb : b = a + l.length) : Holds mem b l' :=
  hb ▸ (holds_append.mp h).2

theorem Holds.left {l l' : List α} (h : Holds mem a (l ++ l')) : Holds mem a l :=
  (holds_append.mp h).1

/-- A memory that is the same where the list stands. -/
theorem Holds.congr {mem' : Nat → α} {l : List α} (h : Holds mem a l)
    (hsame : ∀ v, a ≤ v → v < a + l.length → mem' v = mem v) : Holds mem' a l := by
  intro i x hx
  have hi : i < l.length := (List.getElem?_eq_some_iff.mp hx).1
  rw [hsame _ (by omega) (by omega)]
  exact h i x hx

/-- One more element behind the list. -/
theorem Holds.snoc {l : List α} (h : Holds mem a l) {b : Nat} (hb : b = a + l.length) (x : α) :
    Holds (Function.update mem b x) a (l ++ [x]) := by
  subst hb
  refine holds_append.mpr ⟨h.congr fun v _ hv => Function.update_of_ne (by omega) _ _, ?_⟩
  exact holds_cons.mpr ⟨Function.update_self .., Holds.nil⟩

/-- The list `l` is written at `a` into a memory that is not defined everywhere:
what was defined beside it stays. -/
structure Put (mem : Nat → Option α) (a : Nat) (l : List α) (mem' : Nat → Option α) : Prop where
  holds : Holds mem' a (l.map some)
  rest : ∀ v, mem v ≠ none → v < a ∨ a + l.length ≤ v → mem' v = mem v

section Put

variable {m₁ m₂ m₃ : Nat → Option α} {l l' : List α}

theorem Put.nil (mem : Nat → Option α) (a : Nat) : Put mem a [] mem :=
  ⟨Holds.nil, fun _ _ _ => rfl⟩

/-- A list somewhere else stays. -/
theorem Put.keeps (h : Put m₁ a l m₂) {b : Nat} (hb : Holds m₁ b (l'.map some))
    (hapart : b + l'.length ≤ a ∨ a + l.length ≤ b) : Holds m₂ b (l'.map some) := by
  intro i x hx
  have hold := hb i x hx
  obtain ⟨y, hy, rfl⟩ : ∃ y, l'[i]? = some y ∧ some y = x := by
    simpa [List.getElem?_map] using hx
  have hi : i < l'.length := (List.getElem?_eq_some_iff.mp hy).1
  rw [h.rest (b + i) (by simp [hold]) (by omega), hold]

/-- The second list goes behind the first. -/
theorem Put.behind (h : Put m₁ a l m₂) {b : Nat} (h' : Put m₂ b l' m₃)
    (hb : b = a + l.length) : Put m₁ a (l ++ l') m₃ := by
  subst hb
  refine ⟨?_, ?_⟩
  · rw [List.map_append, holds_append, List.length_map]
    exact ⟨h'.keeps h.holds (.inl (Nat.le_refl _)), h'.holds⟩
  · intro v hv hout
    rw [List.length_append] at hout
    have hkept := h.rest v hv (by omega)
    rw [h'.rest v (by rw [hkept]; exact hv) (by omega), hkept]

/-- The second list goes in front of the first. -/
theorem Put.before (h : Put m₁ a l m₂) {b : Nat} (h' : Put m₂ b l' m₃)
    (hb : a = b + l'.length) : Put m₁ b (l' ++ l) m₃ := by
  subst hb
  refine ⟨?_, ?_⟩
  · rw [List.map_append, holds_append, List.length_map]
    exact ⟨h'.holds, h'.keeps h.holds (.inr (Nat.le_refl _))⟩
  · intro v hv hout
    rw [List.length_append] at hout
    have hkept := h.rest v hv (by omega)
    rw [h'.rest v (by rw [hkept]; exact hv) (by omega), hkept]

end Put

/-- The string at `a`, to its NUL or for `n` bytes. -/
def strAt [Zero α] [DecidableEq α] (mem : Nat → α) : Nat → Nat → List α
  | 0, _ => []
  | n + 1, a => if mem a = 0 then [] else mem a :: strAt mem n (a + 1)

/-- Of a string that stands in memory, the first `n` bytes are read. -/
theorem Holds.strAt_take [Zero α] [DecidableEq α] {s : List α} (h : Holds mem a (s ++ [0]))
    (hs : (0 : α) ∉ s) (n : Nat) : strAt mem n a = s.take n := by
  induction s generalizing a n with
  | nil =>
      cases n with
      | zero => rfl
      | succ n =>
          rw [strAt, if_pos (holds_cons.mp h).1]
          rfl
  | cons x s ih =>
      cases n with
      | zero => rfl
      | succ n =>
          obtain ⟨hx, htail⟩ := holds_cons.mp h
          obtain ⟨hne, hs'⟩ : x ≠ 0 ∧ (0 : α) ∉ s := by
            simp only [List.mem_cons, not_or] at hs
            exact ⟨Ne.symm hs.1, hs.2⟩
          rw [strAt, hx, if_neg hne, ih htail hs', List.take_succ_cons]

/-- A string that stands in memory is the string read there. -/
theorem Holds.strAt [Zero α] [DecidableEq α] {s : List α} (h : Holds mem a (s ++ [0]))
    (hs : (0 : α) ∉ s) {n : Nat} (hn : s.length < n) : strAt mem n a = s := by
  rw [h.strAt_take hs, List.take_of_length_le (Nat.le_of_lt hn)]

/-- A string ends at a NUL at the latest. -/
theorem strAt_length_le [Zero α] [DecidableEq α] {n m : Nat} (h : mem (a + n) = 0) :
    (strAt mem m a).length ≤ n := by
  induction m generalizing a n with
  | zero => simp [strAt]
  | succ m ih =>
      rw [strAt]
      split_ifs with hzero
      · simp
      · obtain ⟨n, rfl⟩ : ∃ j, n = j + 1 := by
          refine ⟨n - 1, ?_⟩
          have hne : n ≠ 0 := fun hn => hzero (by simpa [hn] using h)
          omega
        have htail := ih (a := a + 1) (n := n) (by rwa [Nat.add_assoc, Nat.add_comm 1 n])
        simpa using htail

theorem zero_not_mem_strAt [Zero α] [DecidableEq α] (mem : Nat → α) (n a : Nat) :
    (0 : α) ∉ strAt mem n a := by
  induction n generalizing a with
  | zero => simp [strAt]
  | succ n ih =>
      rw [strAt]
      split_ifs with h
      · simp
      · simp only [List.mem_cons, not_or]
        exact ⟨Ne.symm h, ih (a + 1)⟩

end X86Kernel.Lib
