import Mathlib.Data.Nat.Digits.Lemmas

/-!
Numbers written in a base, the most significant digit first. A numeral has no
leading zero, so that there is one for every number; it is found from the right by
dividing by the base and from the left by dividing by falling powers of it.
-/

namespace X86Kernel.Lib

structure IsNumeral (b : Nat) (ds : List Nat) (n : Nat) : Prop where
  digit : ∀ d ∈ ds, d < b
  lead : ds = [0] ∨ ∃ d rest, ds = d :: rest ∧ d ≠ 0
  value : Nat.ofDigits b ds.reverse = n

/-- `k` digits, of which the first may be zeros. -/
structure Padded (b k : Nat) (ds : List Nat) (n : Nat) : Prop where
  length : ds.length = k
  digit : ∀ d ∈ ds, d < b
  value : Nat.ofDigits b ds.reverse = n

variable {b k n : Nat} {ds : List Nat}

theorem IsNumeral.zero_iff (h : IsNumeral b ds n) : n = 0 ↔ ds = [0] := by
  constructor
  · rintro rfl
    rcases h.lead with hzero | ⟨d, rest, rfl, hd⟩
    · exact hzero
    · have hvalue := h.value
      rw [List.reverse_cons, Nat.ofDigits_append, Nat.ofDigits_singleton, Nat.add_eq_zero_iff,
        Nat.mul_eq_zero] at hvalue
      have hb : b = 0 := (Nat.pow_eq_zero.mp (hvalue.2.resolve_right hd)).1
      exact absurd (h.digit d (by simp)) (by omega)
  · rintro rfl
    simpa using h.value.symm

/-- The digits of a number that is not 0. -/
theorem IsNumeral.reverse_eq (h : IsNumeral b ds n) (hb : 1 < b) (hn : n ≠ 0) :
    ds.reverse = Nat.digits b n := by
  rw [← h.value, Nat.digits_ofDigits b hb ds.reverse (fun d hd => h.digit d (by simpa using hd))]
  intro hne
  rcases h.lead with rfl | ⟨d, rest, rfl, hd⟩
  · exact absurd (h.zero_iff.mpr rfl) hn
  · simpa using hd

/-- A number is written in one way. -/
theorem IsNumeral.unique {ds' : List Nat} (h : IsNumeral b ds n) (h' : IsNumeral b ds' n)
    (hb : 1 < b) : ds = ds' := by
  by_cases hn : n = 0
  · rw [h.zero_iff.mp hn, h'.zero_iff.mp hn]
  · exact List.reverse_injective ((h.reverse_eq hb hn).trans (h'.reverse_eq hb hn).symm)

theorem IsNumeral.single (hn : n < b) : IsNumeral b [n] n := by
  refine ⟨by simpa using hn, ?_, by simp⟩
  by_cases hzero : n = 0
  · exact .inl (by rw [hzero])
  · exact .inr ⟨n, [], rfl, hzero⟩

/-- One more digit at the right. -/
theorem IsNumeral.snoc (h : IsNumeral b ds (n / b)) (hb : 0 < b) (hn : b ≤ n) :
    IsNumeral b (ds ++ [n % b]) n := by
  refine ⟨fun d hd => ?_, ?_, ?_⟩
  · rcases List.mem_append.mp hd with hd | hd
    · exact h.digit d hd
    · rw [List.mem_singleton.mp hd]
      exact Nat.mod_lt n hb
  · rcases h.lead with hzero | ⟨d, rest, rfl, hd⟩
    · exact absurd (h.zero_iff.mpr hzero) (Nat.div_pos hn hb).ne'
    · exact .inr ⟨d, rest ++ [n % b], rfl, hd⟩
  · rw [List.reverse_append, List.reverse_singleton, List.singleton_append, Nat.ofDigits_cons,
      h.value]
    exact Nat.mod_add_div n b

theorem Padded.nil : Padded b 0 [] 0 := ⟨rfl, by simp, rfl⟩

/-- One more digit at the left. -/
theorem Padded.cons (h : Padded b k ds (n % b ^ k)) (hn : n < b ^ (k + 1)) :
    Padded b (k + 1) (n / b ^ k :: ds) n := by
  refine ⟨by rw [List.length_cons, h.length], fun d hd => ?_, ?_⟩
  · rcases List.mem_cons.mp hd with rfl | hd
    · exact Nat.div_lt_of_lt_mul (by rwa [← Nat.pow_succ])
    · exact h.digit d hd
  · rw [List.reverse_cons, Nat.ofDigits_append, List.length_reverse, h.length, h.value,
      Nat.ofDigits_singleton]
    exact Nat.mod_add_div n (b ^ k)

/-- Digits that do not begin with 0. -/
theorem Padded.numeral {d : Nat} (h : Padded b k (d :: ds) n) (hd : d ≠ 0) :
    IsNumeral b (d :: ds) n :=
  ⟨h.digit, .inr ⟨d, ds, rfl, hd⟩, h.value⟩

end X86Kernel.Lib
