import Mathlib.Data.List.FinRange
import Mathlib.Data.List.Flatten

/-!
Radix trees stored in memory. A table is an address with numbered entries; an entry
of an inner table leads to the table below it, and the entries of the last level
are what the tree is for. The tree at a table is given by the number of levels
below it, so that everything about it goes by recursion on the level.
-/

namespace X86Kernel.Lib

/-- The number of entries that count at each level, and what an entry leads to. -/
structure Radix (F W : Type*) where
  entries : Nat → Nat
  child : W → Option F

namespace Radix

variable {F W : Type*} (R : Radix F W)

/-- `f` is one of the tables of the tree at `t`. -/
def Table (word : F → Nat → W) : Nat → F → F → Prop
  | 0, t, f => f = t
  | l + 1, t, f => f = t ∨
      ∃ i, i < R.entries (l + 1) ∧ ∃ u, R.child (word t i) = some u ∧ Table word l u f

/-- No table stands at two places of the tree: none is below itself, and the trees
at two entries have no table in common. -/
def Sound (word : F → Nat → W) : Nat → F → Prop
  | 0, _ => True
  | l + 1, t =>
      (∀ i, i < R.entries (l + 1) → ∀ u, R.child (word t i) = some u →
        Sound word l u ∧ ¬ R.Table word l u t) ∧
      ∀ i j, i < R.entries (l + 1) → j < R.entries (l + 1) → i ≠ j → ∀ u v,
        R.child (word t i) = some u → R.child (word t j) = some v →
        ∀ f, R.Table word l u f → ¬ R.Table word l v f

/-- The entry of the last level that the indices `ix`, one for each level, lead to,
if it leads anywhere itself. -/
def look (word : F → Nat → W) : Nat → F → (Nat → Nat) → Option W
  | 0, t, ix => if (R.child (word t (ix 0))).isSome then some (word t (ix 0)) else none
  | l + 1, t, ix => (R.child (word t (ix (l + 1)))).bind fun u => look word l u ix

def leaves (word : F → Nat → W) : Nat → F → List W
  | 0, t => (List.range (R.entries 0)).filterMap fun i =>
      if (R.child (word t i)).isSome then some (word t i) else none
  | l + 1, t => (List.range (R.entries (l + 1))).flatMap fun i =>
      ((R.child (word t i)).map (leaves word l)).getD []

/-- The tables below `t`, each behind the one it hangs in. -/
def below (word : F → Nat → W) : Nat → F → List F
  | 0, _ => []
  | l + 1, t => (List.range (R.entries (l + 1))).flatMap fun i =>
      ((R.child (word t i)).map fun u => u :: below word l u).getD []

def Valid (l : Nat) (ix : Nat → Nat) : Prop := ∀ j ≤ l, ix j < R.entries j

variable {R} {word word' : F → Nat → W} {l : Nat} {t u f : F} {i : Nat} {ix : Nat → Nat}

theorem Table.root : R.Table word l t t := by
  cases l with
  | zero => rfl
  | succ l => exact .inl rfl

theorem Table.of_child (hi : i < R.entries (l + 1)) (hu : R.child (word t i) = some u)
    (hf : R.Table word l u f) : R.Table word (l + 1) t f :=
  .inr ⟨i, hi, u, hu, hf⟩

theorem Valid.pred (h : R.Valid (l + 1) ix) : R.Valid l ix := fun j hj => h j (by omega)

/-- The tables of the tree at `t` that are not behind its entry `i`. -/
def Beside (R : Radix F W) (word : F → Nat → W) (l : Nat) (t : F) (i : Nat) (f : F) : Prop :=
  f = t ∨ ∃ j, j < R.entries (l + 1) ∧ j ≠ i ∧ ∃ v, R.child (word t j) = some v ∧
    R.Table word l v f

/-- The tables of a tree, by an entry they are behind or not. -/
theorem table_iff (hi : i < R.entries (l + 1)) (f : F) :
    R.Table word (l + 1) t f ↔
      (∃ u, R.child (word t i) = some u ∧ R.Table word l u f) ∨ R.Beside word l t i f := by
  constructor
  · rintro (rfl | ⟨j, hj, v, hv, hf⟩)
    · exact .inr (.inl rfl)
    · by_cases hji : j = i
      · exact .inl ⟨v, hji ▸ hv, hf⟩
      · exact .inr (.inr ⟨j, hj, hji, v, hv, hf⟩)
  · rintro (⟨u, hu, hf⟩ | rfl | ⟨j, hj, -, v, hv, hf⟩)
    · exact hf.of_child hi hu
    · exact .root
    · exact hf.of_child hj hv

section Lists

theorem look_congr {ix' : Nat → Nat} (h : ∀ j ≤ l, ix' j = ix j) :
    R.look word l t ix' = R.look word l t ix := by
  induction l generalizing t with
  | zero => simp only [look, h 0 le_rfl]
  | succ l ih =>
      simp only [look, h (l + 1) le_rfl]
      exact congrArg _ (funext fun u => ih fun j hj => h j (by omega))

/-- The entries of the last level are those that can be looked up. -/
theorem mem_leaves {w : W} :
    w ∈ R.leaves word l t ↔ ∃ ix, R.Valid l ix ∧ R.look word l t ix = some w := by
  induction l generalizing t with
  | zero =>
      simp only [leaves, look, List.mem_filterMap, List.mem_range]
      constructor
      · rintro ⟨i, hi, hw⟩
        refine ⟨fun _ => i, fun j hj => ?_, hw⟩
        obtain rfl : j = 0 := by omega
        exact hi
      · rintro ⟨ix, hix, hw⟩
        exact ⟨ix 0, hix 0 le_rfl, hw⟩
  | succ l ih =>
      simp only [leaves, look, List.mem_flatMap, List.mem_range]
      constructor
      · rintro ⟨i, hi, hw⟩
        cases hu : R.child (word t i) with
        | none => simp [hu] at hw
        | some u =>
            simp only [hu, Option.map_some, Option.getD_some] at hw
            obtain ⟨ix, hix, hlook⟩ := ih.mp hw
            refine ⟨Function.update ix (l + 1) i, fun j hj => ?_, ?_⟩
            · by_cases hjl : j = l + 1
              · subst hjl
                simpa using hi
              · rw [Function.update_of_ne hjl]
                exact hix j (by omega)
            · rw [Function.update_self, hu, Option.bind_some, ← hlook]
              exact look_congr fun j hj => Function.update_of_ne (by omega) _ _
      · rintro ⟨ix, hix, hw⟩
        refine ⟨ix (l + 1), hix _ le_rfl, ?_⟩
        obtain ⟨u, hu, hw⟩ := Option.bind_eq_some_iff.mp hw
        simp only [hu, Option.map_some, Option.getD_some]
        exact ih.mpr ⟨ix, hix.pred, hw⟩

/-- The tables of a tree are its root and those below. -/
theorem table_iff_below : R.Table word l t f ↔ f = t ∨ f ∈ R.below word l t := by
  induction l generalizing t with
  | zero => simp [Table, below]
  | succ l ih =>
      simp only [Table, below, List.mem_flatMap, List.mem_range]
      refine or_congr Iff.rfl (exists_congr fun i => and_congr_right fun _ => ?_)
      cases R.child (word t i) with
      | none => simp
      | some u => simp [ih]

/-- Each of them is there once. -/
theorem Sound.nodup (h : R.Sound word l t) : (t :: R.below word l t).Nodup := by
  induction l generalizing t with
  | zero => simp [below]
  | succ l ih =>
      have hbranch : ∀ {i g}, g ∈ ((R.child (word t i)).map fun u =>
          u :: R.below word l u).getD [] → ∃ u, R.child (word t i) = some u ∧
            R.Table word l u g := by
        intro i g hg
        cases hu : R.child (word t i) with
        | none => simp [hu] at hg
        | some u => exact ⟨u, rfl, table_iff_below.mpr (by simpa [hu] using hg)⟩
      refine List.nodup_cons.mpr ⟨?_, ?_⟩
      · simp only [below, List.mem_flatMap, List.mem_range, not_exists, not_and]
        intro i hi hmem
        obtain ⟨u, hu, hg⟩ := hbranch hmem
        exact (h.1 i hi u hu).2 hg
      · refine List.nodup_flatMap.mpr ⟨?_, ?_⟩
        · intro i hi
          cases hu : R.child (word t i) with
          | none => simp
          | some u => exact ih (h.1 i (List.mem_range.mp hi) u hu).1
        · refine List.Pairwise.imp_of_mem ?_ List.nodup_range
          intro i j hi hj hij g hgi hgj
          obtain ⟨u, hu, hg⟩ := hbranch hgi
          obtain ⟨v, hv, hg'⟩ := hbranch hgj
          exact h.2 i j (List.mem_range.mp hi) (List.mem_range.mp hj) hij u v hu hv g hg hg'

end Lists

/-- Two memories have the same inner tables below `t`, and the entries of the last
level that lead anywhere have been changed by `φ`. -/
def Agree (R : Radix F W) (φ : W → W) (word word' : F → Nat → W) : Nat → F → Prop
  | 0, t => ∀ i, i < R.entries 0 →
      word' t i = if (R.child (word t i)).isSome then φ (word t i) else word t i
  | l + 1, t => ∀ i, i < R.entries (l + 1) → word' t i = word t i ∧
      ∀ u, R.child (word t i) = some u → Agree R φ word word' l u

section Agree

variable {φ : W → W}

theorem Agree.of_eq (h : ∀ g, R.Table word l t g → word' g = word g) :
    R.Agree id word word' l t := by
  induction l generalizing t with
  | zero =>
      intro i _
      rw [h t .root]
      simp
  | succ l ih =>
      intro i hi
      exact ⟨by rw [h t .root], fun u hu => ih (fun g hg => h g (hg.of_child hi hu))⟩

/-- Memory that is the same on the tables will do as well. -/
theorem Agree.frame {word'' : F → Nat → W} (h : R.Agree φ word word' l t)
    (hframe : ∀ g, R.Table word l t g → word'' g = word' g) : R.Agree φ word word'' l t := by
  induction l generalizing t with
  | zero =>
      intro i hi
      rw [hframe t .root]
      exact h i hi
  | succ l ih =>
      intro i hi
      obtain ⟨hword, hsub⟩ := h i hi
      refine ⟨by rw [hframe t .root, hword], fun u hu => ?_⟩
      exact ih (hsub u hu) (fun g hg => hframe g (hg.of_child hi hu))

theorem Agree.trans {word'' : F → Nat → W} (h : R.Agree id word word' l t)
    (h' : R.Agree φ word' word'' l t) : R.Agree φ word word'' l t := by
  induction l generalizing t with
  | zero =>
      intro i hi
      have hword := h i hi
      rw [id, ite_self] at hword
      rw [h' i hi, hword]
  | succ l ih =>
      intro i hi
      obtain ⟨hword, hsub⟩ := h i hi
      obtain ⟨hword', hsub'⟩ := h' i hi
      rw [hword] at hword' hsub'
      exact ⟨hword', fun u hu => ih (hsub u hu) (hsub' u hu)⟩

theorem Agree.table (h : R.Agree φ word word' l t) (f : F) :
    R.Table word' l t f ↔ R.Table word l t f := by
  induction l generalizing t with
  | zero => exact Iff.rfl
  | succ l ih =>
      refine or_congr Iff.rfl (exists_congr fun i => and_congr_right fun hi => ?_)
      obtain ⟨hword, hsub⟩ := h i hi
      rw [hword]
      exact exists_congr fun u => and_congr_right fun hu => ih (hsub u hu)

theorem Agree.sound (h : R.Agree φ word word' l t) (hs : R.Sound word l t) :
    R.Sound word' l t := by
  induction l generalizing t with
  | zero => exact trivial
  | succ l ih =>
      refine ⟨?_, ?_⟩
      · intro i hi u hu
        obtain ⟨hword, hsub⟩ := h i hi
        rw [hword] at hu
        obtain ⟨hchild, hroot⟩ := hs.1 i hi u hu
        exact ⟨ih (hsub u hu) hchild, by rwa [(hsub u hu).table]⟩
      · intro i j hi hj hij u v hu hv f
        rw [(h i hi).1] at hu
        rw [(h j hj).1] at hv
        rw [((h i hi).2 u hu).table, ((h j hj).2 v hv).table]
        exact hs.2 i j hi hj hij u v hu hv f

/-- The entries of the last level are found at the same indices, changed by `φ`. -/
theorem Agree.look (h : R.Agree φ word word' l t)
    (hφ : ∀ w, (R.child (φ w)).isSome = (R.child w).isSome) (hix : R.Valid l ix) :
    R.look word' l t ix = (R.look word l t ix).map φ := by
  induction l generalizing t with
  | zero =>
      have hword := h (ix 0) (hix 0 le_rfl)
      simp only [Radix.look]
      by_cases hsome : (R.child (word t (ix 0))).isSome = true
      · rw [if_pos hsome] at hword
        rw [if_pos hsome, hword, hφ, if_pos hsome]
        rfl
      · rw [if_neg hsome] at hword
        rw [hword, if_neg hsome]
        rfl
  | succ l ih =>
      obtain ⟨hword, hsub⟩ := h (ix (l + 1)) (hix (l + 1) le_rfl)
      simp only [Radix.look, hword]
      cases hu : R.child (word t (ix (l + 1))) with
      | none => rfl
      | some u => exact ih (hsub u hu) hix.pred

/-- Nothing has changed. -/
theorem Agree.look_eq (h : R.Agree id word word' l t) (hix : R.Valid l ix) :
    R.look word' l t ix = R.look word l t ix := by
  rw [h.look (fun _ => rfl) hix, Option.map_id]
  rfl

/-- What is collected from the children, when it is the same for each of them. -/
theorem Agree.flatMap_children {β : Type*} {f g : F → List β}
    (h : R.Agree φ word word' (l + 1) t)
    (hsame : ∀ u, R.Agree φ word word' l u → f u = g u) :
    ((List.range (R.entries (l + 1))).flatMap fun i =>
        ((R.child (word' t i)).map f).getD []) =
      (List.range (R.entries (l + 1))).flatMap fun i =>
        ((R.child (word t i)).map g).getD [] := by
  refine List.flatMap_congr fun i hi => ?_
  obtain ⟨hword, hsub⟩ := h i (List.mem_range.mp hi)
  rw [hword]
  cases hu : R.child (word t i) with
  | none => rfl
  | some u => simp only [Option.map_some, Option.getD_some, hsame u (hsub u hu)]

theorem Agree.leaves (h : R.Agree id word word' l t) :
    R.leaves word' l t = R.leaves word l t := by
  induction l generalizing t with
  | zero =>
      refine List.filterMap_congr fun i hi => ?_
      have hword := h i (List.mem_range.mp hi)
      rw [id, ite_self] at hword
      rw [hword]
  | succ l ih => exact h.flatMap_children fun _ hu => ih hu

theorem Agree.below (h : R.Agree φ word word' l t) :
    R.below word' l t = R.below word l t := by
  induction l generalizing t with
  | zero => rfl
  | succ l ih => exact h.flatMap_children fun u hu => by rw [ih hu]

end Agree

section Empty

/-- A table without children is a tree by itself. -/
theorem table_of_empty (h : ∀ i, i < R.entries l → R.child (word t i) = none) (f : F) :
    R.Table word l t f ↔ f = t := by
  cases l with
  | zero => exact Iff.rfl
  | succ l =>
      refine ⟨?_, .inl⟩
      rintro (rfl | ⟨i, hi, u, hu, -⟩)
      · rfl
      · simp [h i hi] at hu

theorem sound_of_empty (h : ∀ i, i < R.entries l → R.child (word t i) = none) :
    R.Sound word l t := by
  cases l with
  | zero => exact trivial
  | succ l =>
      refine ⟨?_, ?_⟩
      · intro i hi u hu
        simp [h i hi] at hu
      · intro i j hi _ _ u v hu
        simp [h i hi] at hu

theorem look_of_empty (h : ∀ i, i < R.entries l → R.child (word t i) = none)
    (hix : R.Valid l ix) : R.look word l t ix = none := by
  cases l with
  | zero => simp [look, h _ (hix 0 le_rfl)]
  | succ l => simp [look, h _ (hix (l + 1) le_rfl)]

end Empty

section Single

variable (hi : i < R.entries (l + 1)) (hu : R.child (word t i) = some u)
  (hnone : ∀ j, j ≠ i → R.child (word t j) = none)

include hi hu hnone

/-- A table with one entry that leads anywhere adds itself to the tree there. -/
theorem table_of_single (f : F) : R.Table word (l + 1) t f ↔ R.Table word l u f ∨ f = t := by
  rw [table_iff hi]
  refine or_congr (by simp [hu]) ⟨?_, .inl⟩
  rintro (rfl | ⟨j, -, hji, v, hv, -⟩)
  · rfl
  · simp [hnone j hji] at hv

theorem sound_of_single (hs : R.Sound word l u) (ht : ¬ R.Table word l u t) :
    R.Sound word (l + 1) t := by
  have honly : ∀ {j v}, R.child (word t j) = some v → j = i ∧ v = u := by
    intro j v hv
    by_cases hji : j = i
    · subst hji
      exact ⟨rfl, Option.some.inj (hv.symm.trans hu)⟩
    · simp [hnone j hji] at hv
  refine ⟨?_, ?_⟩
  · intro j _ v hv
    obtain ⟨-, rfl⟩ := honly hv
    exact ⟨hs, ht⟩
  · intro j k _ _ hjk v w hv hw
    exact absurd ((honly hv).1.trans (honly hw).1.symm) hjk

theorem leaves_of_single : R.leaves word (l + 1) t = R.leaves word l u := by
  have hpart : ∀ n, (List.range n).flatMap (fun j =>
      ((R.child (word t j)).map (R.leaves word l)).getD []) =
        if i < n then R.leaves word l u else [] := by
    intro n
    induction n with
    | zero => simp
    | succ n ih =>
        rw [List.range_succ, List.flatMap_append, ih]
        by_cases hn : n = i
        · subst hn
          simp [hu]
        · have hiff : i < n + 1 ↔ i < n := by omega
          simp [hnone n hn, hiff]
  rw [leaves, hpart, if_pos hi]

end Single

/-- Entry `i` of `t` leads to `u` now, and the other entries lead to what they led
to before. -/
structure Regraft (R : Radix F W) (word word' : F → Nat → W) (l : Nat) (t : F) (i : Nat) (u : F) :
    Prop where
  lt : i < R.entries (l + 1)
  child : R.child (word' t i) = some u
  root : ∀ j, j < R.entries (l + 1) → j ≠ i → word' t j = word t j
  other : ∀ j, j < R.entries (l + 1) → j ≠ i → ∀ v, R.child (word t j) = some v →
    R.Agree id word word' l v

section Regraft

theorem Regraft.table (h : R.Regraft word word' l t i u) (f : F) :
    R.Table word' (l + 1) t f ↔ R.Table word' l u f ∨ R.Beside word l t i f := by
  rw [table_iff h.lt]
  refine or_congr (by simp [h.child]) (or_congr Iff.rfl ?_)
  refine exists_congr fun j => and_congr_right fun hj => and_congr_right fun hji => ?_
  rw [h.root j hj hji]
  exact exists_congr fun v => and_congr_right fun hv => (h.other j hj hji v hv).table f

theorem Regraft.sound (h : R.Regraft word word' l t i u) (hs : R.Sound word (l + 1) t)
    (hu : R.Sound word' l u) (hroot : ¬ R.Table word' l u t)
    (hapart : ∀ j, j < R.entries (l + 1) → j ≠ i → ∀ v, R.child (word t j) = some v →
      ∀ f, R.Table word' l u f → ¬ R.Table word l v f) : R.Sound word' (l + 1) t := by
  refine ⟨?_, ?_⟩
  · intro j hj v hv
    by_cases hji : j = i
    · subst hji
      rw [h.child] at hv
      obtain rfl := Option.some.inj hv
      exact ⟨hu, hroot⟩
    · rw [h.root j hj hji] at hv
      obtain ⟨hsound, hnot⟩ := hs.1 j hj v hv
      have hagree := h.other j hj hji v hv
      exact ⟨hagree.sound hsound, by rwa [hagree.table]⟩
  · intro j k hj hk hjk v w hv hw f hf
    by_cases hji : j = i
    · subst hji
      rw [h.child] at hv
      obtain rfl := Option.some.inj hv
      rw [h.root k hk (Ne.symm hjk)] at hw
      rw [(h.other k hk (Ne.symm hjk) w hw).table]
      exact hapart k hk (Ne.symm hjk) w hw f hf
    · rw [h.root j hj hji] at hv
      rw [(h.other j hj hji v hv).table] at hf
      by_cases hki : k = i
      · subst hki
        rw [h.child] at hw
        obtain rfl := Option.some.inj hw
        exact fun hcon => hapart j hj hji v hv f hcon hf
      · rw [h.root k hk hki] at hw
        rw [(h.other k hk hki w hw).table]
        exact hs.2 j k hj hk hjk v w hv hw f hf

theorem Regraft.look (h : R.Regraft word word' l t i u) (hix : R.Valid (l + 1) ix) :
    R.look word' (l + 1) t ix =
      if ix (l + 1) = i then R.look word' l u ix else R.look word (l + 1) t ix := by
  simp only [Radix.look]
  split_ifs with hi
  · rw [hi, h.child]
    rfl
  · have hlt := hix (l + 1) le_rfl
    rw [h.root _ hlt hi]
    cases hv : R.child (word t (ix (l + 1))) with
    | none => rfl
    | some v => exact (h.other _ hlt hi v hv).look_eq hix.pred

end Regraft

end Radix

end X86Kernel.Lib
