import Mathlib.Data.Set.Card

/-!
Reference counts. A map from places to the objects they refer to is given by
`m : ι → Option φ`; the count of an object is the number of places that refer
to it. Only finitely many places are in use at a time.
-/

namespace X86Kernel.Lib

variable {ι φ : Type*}

/-- The places that refer to `f`. -/
def refs (m : ι → Option φ) (f : φ) : Set ι := {x | m x = some f}

noncomputable def refCount (m : ι → Option φ) (f : φ) : Nat := (refs m f).ncard

def FiniteRefs (m : ι → Option φ) : Prop := {x | m x ≠ none}.Finite

theorem FiniteRefs.refs {m : ι → Option φ} (h : FiniteRefs m) (f : φ) :
    (Lib.refs m f).Finite := by
  apply Set.Finite.subset h
  intro x hx
  have hx' : m x = some f := hx
  simp [hx']

theorem FiniteRefs.update [DecidableEq ι] {m : ι → Option φ} (h : FiniteRefs m) (x : ι)
    (v : Option φ) : FiniteRefs (Function.update m x v) := by
  apply Set.Finite.subset (Set.Finite.insert x h)
  intro y hy
  by_cases hyx : y = x
  · exact Set.mem_insert_iff.mpr (Or.inl hyx)
  · have hy' : m y ≠ none := by simpa [Function.update_of_ne hyx] using hy
    exact Set.mem_insert_of_mem x hy'

theorem refCount_eq_zero_iff {m : ι → Option φ} (h : FiniteRefs m) (f : φ) :
    refCount m f = 0 ↔ ∀ x, m x ≠ some f := by
  unfold refCount
  rw [Set.ncard_eq_zero (h.refs f), Set.eq_empty_iff_forall_notMem]
  rfl

theorem refCount_pos {m : ι → Option φ} (h : FiniteRefs m) {x : ι} {f : φ}
    (hx : m x = some f) : 0 < refCount m f := by
  by_contra hzero
  exact (refCount_eq_zero_iff h f).mp (by omega) x hx

/-- An object with one reference is referred to from one place. -/
theorem eq_of_refCount_le_one {m : ι → Option φ} (h : FiniteRefs m) {f : φ}
    (hle : refCount m f ≤ 1) {x y : ι} (hx : m x = some f) (hy : m y = some f) : x = y :=
  (Set.ncard_le_one (h.refs f)).mp hle x hx y hy

theorem refs_update_of_ne [DecidableEq ι] (m : ι → Option φ) (x : ι) {v : Option φ} {f : φ}
    (hv : v ≠ some f) : refs (Function.update m x v) f = refs m f \ {x} := by
  ext y
  by_cases hyx : y = x
  · subst hyx
    simp [refs, hv]
  · simp [refs, hyx]

theorem refs_update_self [DecidableEq ι] (m : ι → Option φ) (x : ι) (f : φ) :
    refs (Function.update m x (some f)) f = insert x (refs m f) := by
  ext y
  by_cases hyx : y = x
  · subst hyx
    simp [refs]
  · simp [refs, hyx]

/-- Redirecting one place takes one reference away from the object it referred
to and gives one to the object it refers to now. -/
theorem refCount_update [DecidableEq ι] [DecidableEq φ] {m : ι → Option φ} (h : FiniteRefs m)
    (x : ι) (v : Option φ) (f : φ) :
    refCount (Function.update m x v) f + (if m x = some f then 1 else 0) =
      refCount m f + (if v = some f then 1 else 0) := by
  unfold refCount
  by_cases hv : v = some f
  · subst hv
    rw [refs_update_self]
    by_cases hx : m x = some f
    · have hmem : x ∈ refs m f := hx
      simp [hx, Set.insert_eq_of_mem hmem]
    · have hmem : x ∉ refs m f := hx
      simp [hx, Set.ncard_insert_of_notMem hmem (h.refs f)]
  · rw [refs_update_of_ne m x hv]
    by_cases hx : m x = some f
    · have hmem : x ∈ refs m f := hx
      simp [hx, hv, Set.ncard_sdiff_singleton_add_one hmem (h.refs f)]
    · have hmem : x ∉ refs m f := hx
      simp [hx, hv, Set.sdiff_singleton_eq_self hmem]

end X86Kernel.Lib
