import Mathlib.Data.List.Nodup
import Mathlib.Logic.Function.Iterate

/-!
Singly linked lists threaded through an index type, and loops over an initial
segment of the naturals that can fail.
-/

namespace X86Kernel.Lib

variable {α : Type*} {σ : Type*}

/-- Following `next` from `start` visits exactly `l` and then stops. -/
inductive Chain (next : α → Option α) : Option α → List α → Prop
  | nil : Chain next none []
  | cons {a : α} {l : List α} : Chain next (next a) l → Chain next (some a) (a :: l)

variable {next next' : α → Option α}

theorem Chain.unique {start : Option α} {l l' : List α} (h : Chain next start l)
    (h' : Chain next start l') : l = l' := by
  induction h generalizing l' with
  | nil =>
      cases h'
      rfl
  | cons _ ih =>
      cases h' with
      | cons h' => rw [ih h']

/-- A chain depends only on the links of its own elements. -/
theorem Chain.congr {start : Option α} {l : List α} (h : Chain next start l)
    (heq : ∀ a ∈ l, next' a = next a) : Chain next' start l := by
  induction h with
  | nil => exact .nil
  | cons _ ih =>
      rename_i a l _
      have htail := ih (fun b hb => heq b (by simp [hb]))
      rw [← heq a (by simp)] at htail
      exact .cons htail

theorem Chain.eq_nil {l : List α} (h : Chain next none l) : l = [] := by
  cases h
  rfl

theorem Chain.eq_cons {a : α} {l : List α} (h : Chain next (some a) l) :
    ∃ rest, l = a :: rest ∧ Chain next (next a) rest := by
  cases h with
  | cons h => exact ⟨_, rfl, h⟩

/-- A list is longer than the way to any of its elements. -/
theorem Chain.lt_length {start : Option α} {l : List α} (h : Chain next start l) {n : Nat}
    (hn : (fun o => o.bind next)^[n] start ≠ none) : n < l.length := by
  induction h generalizing n with
  | nil =>
      have hnone : (fun o => o.bind next)^[n] none = none := Function.iterate_fixed rfl n
      exact absurd hnone hn
  | cons _ ih =>
      cases n with
      | zero => simp
      | succ n =>
          have htail := ih (by simpa [Function.iterate_succ_apply] using hn)
          simp only [List.length_cons]
          omega

/-- A list that ends visits nothing twice. -/
theorem Chain.nodup {start : Option α} {l : List α} (h : Chain next start l) : l.Nodup := by
  induction h with
  | nil => exact List.nodup_nil
  | cons htail ih =>
      rename_i a l
      refine List.nodup_cons.mpr ⟨?_, ih⟩
      intro hmem
      -- from the second visit on, the list would be shorter than itself
      have hsuffix : ∀ {start : Option α} {l' : List α}, Chain next start l' → a ∈ l' →
          ∃ rest, Chain next (some a) (a :: rest) ∧ rest.length < l'.length := by
        intro start l' h'
        induction h' with
        | nil => simp
        | cons htail' ih' =>
            rename_i b l''
            intro hin
            obtain rfl | hin := List.mem_cons.mp hin
            · exact ⟨l'', .cons htail', by simp⟩
            · obtain ⟨rest, hrest, hlen⟩ := ih' hin
              exact ⟨rest, hrest, by simp; omega⟩
      obtain ⟨rest, hrest, hlen⟩ := hsuffix htail hmem
      have heq := Chain.unique hrest (.cons htail)
      obtain rfl : rest = l := by simpa using heq
      omega

/-- What following `next` from `start` comes across, whether or not it ever
stops. -/
inductive Along (next : α → Option α) (start : Option α) : α → Prop
  | head {a : α} : start = some a → Along next start a
  | next {a b : α} : Along next start a → next a = some b → Along next start b

theorem Along.cons {a b : α} (h : Along next (next b) a) : Along next (some b) a := by
  induction h with
  | head hs => exact .next (.head rfl) hs
  | next _ hn ih => exact .next ih hn

/-- On a list that ends, these are its elements. -/
theorem Chain.along_iff {start : Option α} {l : List α} (h : Chain next start l) (a : α) :
    Along next start a ↔ a ∈ l := by
  constructor
  · intro ha
    -- the elements behind one on the list are on the list
    have hclosed : ∀ {start : Option α} {l : List α}, Chain next start l → ∀ {b c : α}, b ∈ l →
        next b = some c → c ∈ l := by
      intro start l h
      induction h with
      | nil => simp
      | cons htail ih =>
          rename_i b l
          intro x c hx hc
          obtain rfl | hx := List.mem_cons.mp hx
          · rw [hc] at htail
            obtain ⟨rest, rfl, -⟩ := htail.eq_cons
            simp
          · exact List.mem_cons_of_mem _ (ih hx hc)
    induction ha with
    | head hs =>
        subst hs
        obtain ⟨rest, rfl, -⟩ := h.eq_cons
        simp
    | next _ hn ih => exact hclosed h ih hn
  · intro ha
    induction h with
    | nil => simp at ha
    | cons _ ih =>
        rename_i b l _
        obtain rfl | ha := List.mem_cons.mp ha
        · exact .head rfl
        · exact (ih ha).cons

/-- Pushing an element on the front, with its own link redirected. -/
theorem Chain.push [DecidableEq α] {start : Option α} {l : List α} (h : Chain next start l)
    {a : α} (ha : a ∉ l) : Chain (Function.update next a start) (some a) (a :: l) := by
  have htail : Chain (Function.update next a start) start l := by
    apply h.congr
    intro b hb
    have hne : b ≠ a := by
      rintro rfl
      exact ha hb
    exact Function.update_of_ne hne _ _
  exact .cons (by rw [Function.update_self]; exact htail)

/-- Appending an element behind the last one. -/
theorem Chain.snoc [DecidableEq α] {start : Option α} {l : List α} (h : Chain next start l)
    {a b : α} (hlast : l.getLast? = some b) (ha : a ∉ l) :
    Chain (Function.update (Function.update next a none) b (some a)) start (l ++ [a]) := by
  have hb : b ∈ l := List.mem_of_getLast? hlast
  have hba : b ≠ a := by
    rintro rfl
    exact ha hb
  have hnodup := h.nodup
  induction h with
  | nil => simp at hlast
  | cons htail ih =>
      rename_i c l
      have hac : c ≠ a := fun hc => ha (by simp [hc])
      cases l with
      | nil =>
          obtain rfl : c = b := by simpa using hlast
          refine .cons ?_
          rw [Function.update_self]
          refine .cons ?_
          rw [Function.update_of_ne hba.symm, Function.update_self]
          exact .nil
      | cons d rest =>
          have hlast' : (d :: rest).getLast? = some b := by simpa using hlast
          have hb' := List.mem_of_getLast? hlast'
          obtain ⟨hc, hnodup'⟩ := List.nodup_cons.mp hnodup
          have hcb : c ≠ b := fun hcb => hc (hcb ▸ hb')
          refine .cons ?_
          rw [Function.update_of_ne hcb, Function.update_of_ne hac]
          exact ih hlast' (fun hin => ha (List.mem_cons_of_mem _ hin)) hb' hnodup'

/-- The loop rule for `for (i = 0; i < n; i++)`: what holds before iteration
`i` and is carried to iteration `i + 1` by the body holds at the end. -/
theorem foldlM_range_invariant {f : σ → Nat → Option σ} {P : Nat → σ → Prop}
    {n : Nat} {s t : σ} (hrun : (List.range n).foldlM f s = some t) (hstart : P 0 s)
    (hbody : ∀ i a b, i < n → P i a → f a i = some b → P (i + 1) b) : P n t := by
  induction n generalizing t with
  | zero =>
      obtain rfl : s = t := by simpa using hrun
      exact hstart
  | succ n ih =>
      rw [List.range_succ, List.foldlM_append] at hrun
      simp only [Option.bind_eq_bind, Option.bind_eq_some_iff, List.foldlM_cons,
        List.foldlM_nil] at hrun
      obtain ⟨u, hu, v, hv, rfl⟩ : ∃ u, (List.range n).foldlM f s = some u ∧
          ∃ v, f u n = some v ∧ v = t := by simpa using hrun
      exact hbody n u v (by omega)
        (ih hu (fun i a b hi => hbody i a b (by omega))) hv

/-- The same rule for a loop that is to come to its end. -/
theorem foldlM_range_total {f : σ → Nat → Option σ} {P : Nat → σ → Prop} {n : Nat} {s : σ}
    (hstart : P 0 s) (hbody : ∀ i a, i < n → P i a → ∃ b, f a i = some b ∧ P (i + 1) b) :
    ∃ t, (List.range n).foldlM f s = some t ∧ P n t := by
  induction n with
  | zero => exact ⟨s, rfl, hstart⟩
  | succ n ih =>
      obtain ⟨u, hu, hpu⟩ := ih (fun i a hi => hbody i a (by omega))
      obtain ⟨t, ht, hpt⟩ := hbody n u (by omega) hpu
      refine ⟨t, ?_, hpt⟩
      rw [List.range_succ, List.foldlM_append, hu]
      simp [ht]

/-- The same rule for a loop that comes to its end unless `Q` holds. -/
theorem foldlM_range_or {f : σ → Nat → Option σ} {P : Nat → σ → Prop} {Q : Prop} {n : Nat} {s : σ}
    (hstart : P 0 s) (hbody : ∀ i a, i < n → P i a →
      (∃ b, f a i = some b ∧ P (i + 1) b) ∨ f a i = none ∧ Q) :
    (∃ t, (List.range n).foldlM f s = some t ∧ P n t) ∨ (List.range n).foldlM f s = none ∧ Q := by
  induction n with
  | zero => exact .inl ⟨s, rfl, hstart⟩
  | succ n ih =>
      rw [List.range_succ, List.foldlM_append]
      obtain ⟨u, hu, hpu⟩ | ⟨hu, hQ⟩ := ih (fun i a hi => hbody i a (by omega))
      · rw [hu]
        obtain ⟨t, ht, hpt⟩ | ⟨ht, hQ⟩ := hbody n u (by omega) hpu
        · exact .inl ⟨t, by simp [ht], hpt⟩
        · exact .inr ⟨by simp [ht], hQ⟩
      · exact .inr ⟨by simp [hu], hQ⟩

/-- The same rule for a loop whose body always succeeds. -/
theorem foldl_range_invariant {f : σ → Nat → σ} {P : Nat → σ → Prop} {n : Nat} {s : σ}
    (hstart : P 0 s) (hbody : ∀ i a, i < n → P i a → P (i + 1) (f a i)) :
    P n ((List.range n).foldl f s) := by
  induction n with
  | zero => exact hstart
  | succ n ih =>
      rw [List.range_succ, List.foldl_append]
      exact hbody n _ (by omega) (ih (fun i a hi => hbody i a (by omega)))

end X86Kernel.Lib
