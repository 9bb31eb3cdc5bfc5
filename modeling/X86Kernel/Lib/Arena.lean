import Mathlib.Algebra.BigOperators.Group.List.Basic
import Mathlib.Algebra.GroupWithZero.Nat
import Mathlib.Data.List.Pairwise
import Mathlib.Data.List.Perm.Basic
import Mathlib.Order.Interval.Finset.Nat

/-!
Blocks cut from arenas. A layout of blocks tiles its arenas when every block
lies inside one arena, no two blocks meet, and the lengths add up; splitting a
block, joining two neighbours and adding an arena keep a layout one. The second
part tells the free blocks of a layout by the others: where no two of them are
neighbours they are the holes that the others leave, and nothing else. The third
part follows a total successor function through a list of nodes, for rings that
are threaded through the blocks.
-/

namespace X86Kernel.Lib

/-- The addresses from `start` on, `len` of them. -/
structure Extent where
  start : Nat
  len : Nat
  deriving DecidableEq, Repr

namespace Extent

def stop (e : Extent) : Nat := e.start + e.len

/-- Neither reaches into the other, and they do not start together: the second
part says something only where one of them is empty. -/
def Apart (a b : Extent) : Prop :=
  (a.stop ≤ b.start ∨ b.stop ≤ a.start) ∧ a.start ≠ b.start

/-- Not even neighbours. -/
def Separated (a b : Extent) : Prop := a.stop < b.start ∨ b.stop < a.start

def Within (a b : Extent) : Prop := b.start ≤ a.start ∧ a.stop ≤ b.stop

theorem Apart.symm {a b : Extent} (h : a.Apart b) : b.Apart a :=
  ⟨h.1.symm, h.2.symm⟩

instance : Std.Symm Apart where
  symm _ _ h := h.symm

instance : Std.Symm Separated where
  symm _ _ h := Or.symm h

end Extent

open Extent

/-- The blocks fill the arenas: each lies in one, no two meet, and together
they are as long as the arenas are. -/
structure Tiled (arenas blocks : List Extent) : Prop where
  separated : arenas.Pairwise Separated
  inside : ∀ b ∈ blocks, ∃ r ∈ arenas, b.Within r
  apart : blocks.Pairwise Apart
  total : (blocks.map Extent.len).sum = (arenas.map Extent.len).sum

variable {arenas blocks rest : List Extent} {a b : Extent}

theorem Tiled.perm {blocks' : List Extent} (h : Tiled arenas blocks)
    (hp : blocks.Perm blocks') : Tiled arenas blocks' where
  separated := h.separated
  inside b hb := h.inside b (hp.mem_iff.mpr hb)
  apart := (hp.pairwise_iff (fun h => h.symm)).mp h.apart
  total := by rw [← h.total, (hp.map Extent.len).sum_eq]

/-- Two neighbours lie in the same arena, since arenas are not neighbours. -/
theorem Tiled.same_arena (h : Tiled arenas blocks) (ha : a ∈ blocks) (hb : b ∈ blocks)
    (hnext : a.stop = b.start) : ∃ r ∈ arenas, a.Within r ∧ b.Within r := by
  obtain ⟨r, hr, har⟩ := h.inside a ha
  obtain ⟨r', hr', hbr⟩ := h.inside b hb
  by_cases heq : r = r'
  · subst heq
    exact ⟨r, hr, har, hbr⟩
  · have hsep := h.separated.forall hr hr' heq
    simp only [Separated, Within, stop] at *
    omega

/-- Cutting a block in two. -/
theorem Tiled.split (h : Tiled arenas (a :: rest)) {n : Nat} (hpos : 0 < n) (hlt : n < a.len) :
    Tiled arenas (⟨a.start, n⟩ :: ⟨a.start + n, a.len - n⟩ :: rest) := by
  obtain ⟨hfirst, hrest⟩ := List.pairwise_cons.mp h.apart
  refine ⟨h.separated, ?_, ?_, ?_⟩
  · obtain ⟨r, hr, hin⟩ := h.inside a (by simp)
    intro b hb
    simp only [List.mem_cons] at hb
    obtain rfl | rfl | hb := hb
    · exact ⟨r, hr, by simp only [Within, stop] at *; omega⟩
    · exact ⟨r, hr, by simp only [Within, stop] at *; omega⟩
    · exact h.inside b (by simp [hb])
  · simp only [List.pairwise_cons, List.mem_cons, forall_eq_or_imp]
    refine ⟨⟨by simp only [Apart, stop]; omega, fun b hb => ?_⟩, fun b hb => ?_, hrest⟩
    · have hab := hfirst b hb
      simp only [Apart, stop] at *
      omega
    · have hab := hfirst b hb
      simp only [Apart, stop] at *
      omega
  · have htotal := h.total
    simp only [List.map_cons, List.sum_cons] at *
    omega

/-- Joining two neighbours. -/
theorem Tiled.join (h : Tiled arenas (a :: b :: rest)) (hnext : a.stop = b.start) :
    Tiled arenas (⟨a.start, a.len + b.len⟩ :: rest) := by
  obtain ⟨ha, hbrest⟩ := List.pairwise_cons.mp h.apart
  obtain ⟨hb, hrest⟩ := List.pairwise_cons.mp hbrest
  refine ⟨h.separated, ?_, ?_, ?_⟩
  · obtain ⟨r, hr, har, hbr⟩ := h.same_arena (by simp) (by simp) hnext
    intro c hc
    simp only [List.mem_cons] at hc
    obtain rfl | hc := hc
    · exact ⟨r, hr, by simp only [Within, stop] at *; omega⟩
    · exact h.inside c (by simp [hc])
  · refine List.pairwise_cons.mpr ⟨fun c hc => ?_, hrest⟩
    have hac := ha c (by simp [hc])
    have hbc := hb c hc
    simp only [Apart, stop] at *
    omega
  · have htotal := h.total
    simp only [List.map_cons, List.sum_cons] at *
    omega

/-- A new arena, behind every other and not touching one, comes as one block. -/
theorem Tiled.grow (h : Tiled arenas blocks) {r : Extent} (hr : ∀ s ∈ arenas, s.stop < r.start) :
    Tiled (r :: arenas) (r :: blocks) := by
  refine ⟨?_, ?_, ?_, ?_⟩
  · exact List.pairwise_cons.mpr ⟨fun s hs => .inr (hr s hs), h.separated⟩
  · intro b hb
    obtain rfl | hb := List.mem_cons.mp hb
    · exact ⟨b, by simp, Nat.le_refl _, Nat.le_refl _⟩
    · obtain ⟨s, hs, hin⟩ := h.inside b hb
      exact ⟨s, by simp [hs], hin⟩
  · refine List.pairwise_cons.mpr ⟨fun b hb => ?_, h.apart⟩
    obtain ⟨s, hs, hin⟩ := h.inside b hb
    have hlt := hr s hs
    simp only [Apart, Within, stop] at *
    omega
  · simp [h.total]

def Extent.Has (e : Extent) (x : Nat) : Prop := e.start ≤ x ∧ x < e.stop

theorem Extent.Apart.not_has {x : Nat} (h : a.Apart b) (ha : a.Has x) : ¬ b.Has x := by
  simp only [Apart, Has] at *
  omega

def span (l : List Extent) : Finset Nat :=
  l.foldr (fun e s => Finset.Ico e.start e.stop ∪ s) ∅

theorem mem_span {l : List Extent} {x : Nat} : x ∈ span l ↔ ∃ e ∈ l, e.Has x := by
  induction l with
  | nil => simp [span]
  | cons e l ih =>
      have hcons : span (e :: l) = Finset.Ico e.start e.stop ∪ span l := rfl
      simp only [hcons, Finset.mem_union, Finset.mem_Ico, ih, List.mem_cons, exists_eq_or_imp,
        Extent.Has]

theorem card_span {l : List Extent}
    (h : l.Pairwise fun a b => a.stop ≤ b.start ∨ b.stop ≤ a.start) :
    (span l).card = (l.map Extent.len).sum := by
  induction l with
  | nil => rfl
  | cons e l ih =>
      obtain ⟨he, hl⟩ := List.pairwise_cons.mp h
      have hdisj : Disjoint (Finset.Ico e.start e.stop) (span l) := by
        refine Finset.disjoint_left.mpr fun x hx hxl => ?_
        obtain ⟨b, hb, hbx⟩ := mem_span.mp hxl
        have := he b hb
        simp only [Finset.mem_Ico, Extent.Has] at hx hbx
        omega
      have hcons : span (e :: l) = Finset.Ico e.start e.stop ∪ span l := rfl
      rw [hcons, Finset.card_union_of_disjoint hdisj, ih hl, Nat.card_Ico, List.map_cons,
        List.sum_cons]
      simp [stop]

/-- No address of an arena is left out. -/
theorem Tiled.covers (h : Tiled arenas blocks) {r : Extent} (hr : r ∈ arenas) {x : Nat}
    (hx : r.Has x) : ∃ b ∈ blocks, b.Has x := by
  have hsub : span blocks ⊆ span arenas := by
    intro y hy
    obtain ⟨b, hb, hby⟩ := mem_span.mp hy
    obtain ⟨s, hs, hin⟩ := h.inside b hb
    refine mem_span.mpr ⟨s, hs, ?_⟩
    simp only [Within, Has] at *
    omega
  have hcard : (span arenas).card ≤ (span blocks).card := by
    rw [card_span (h.separated.imp fun hs => hs.imp Nat.le_of_lt Nat.le_of_lt),
      card_span (h.apart.imp fun hs => hs.1), h.total]
  have hmem : x ∈ span arenas := mem_span.mpr ⟨r, hr, hx⟩
  rw [← Finset.eq_of_subset_of_card_le hsub hcard] at hmem
  exact mem_span.mp hmem

/-- `e` is a hole that the blocks in use leave in an arena: nothing in it is in
use, and it ends on either side with the arena or with a block in use. -/
structure Hole (arenas used : List Extent) (e : Extent) : Prop where
  pos : 0 < e.len
  unused : ∀ x, e.Has x → ∀ b ∈ used, ¬ b.Has x
  within : ∃ r ∈ arenas, e.Within r ∧ (e.start ≠ r.start → ∃ b ∈ used, b.Has (e.start - 1)) ∧
    (e.stop ≠ r.stop → ∃ b ∈ used, b.Has e.stop)

section Holes

variable {free used : List Extent} {e : Extent}

theorem Hole.congr {used' : List Extent} (h : Hole arenas used e)
    (hmem : ∀ b, b ∈ used' ↔ b ∈ used) : Hole arenas used' e := by
  obtain ⟨hpos, hunused, r, hr, hin, hleft, hright⟩ := h
  refine ⟨hpos, fun x hx b hb => hunused x hx b ((hmem b).mp hb), r, hr, hin, fun hne => ?_,
    fun hne => ?_⟩
  · obtain ⟨b, hb, hx⟩ := hleft hne
    exact ⟨b, (hmem b).mpr hb, hx⟩
  · obtain ⟨b, hb, hx⟩ := hright hne
    exact ⟨b, (hmem b).mpr hb, hx⟩

/-- Where nothing is in use the holes are the arenas. -/
theorem hole_nil_iff (hpos : ∀ r ∈ arenas, 0 < r.len) : Hole arenas [] e ↔ e ∈ arenas := by
  constructor
  · rintro ⟨-, -, r, hr, -, hleft, hright⟩
    have hstart : e.start = r.start := by
      by_contra hne
      obtain ⟨b, hb, -⟩ := hleft hne
      exact List.not_mem_nil hb
    have hstop : e.stop = r.stop := by
      by_contra hne
      obtain ⟨b, hb, -⟩ := hright hne
      exact List.not_mem_nil hb
    obtain ⟨x, n⟩ := e
    obtain ⟨y, m⟩ := r
    obtain rfl : x = y := hstart
    obtain rfl : n = m := Nat.add_left_cancel hstop
    exact hr
  · intro he
    exact ⟨hpos e he, by simp, e, he, ⟨Nat.le_refl _, Nat.le_refl _⟩, fun hne => absurd rfl hne,
      fun hne => absurd rfl hne⟩

/-- The arena of an address is the only one. -/
theorem Tiled.arena_unique (h : Tiled arenas blocks) {r s : Extent} (hr : r ∈ arenas)
    (hs : s ∈ arenas) {x : Nat} (hrx : r.Has x) (hsx : s.Has x) : r = s := by
  by_contra hne
  have hsep := h.separated.forall hr hs hne
  simp only [Separated, Has] at *
  omega

theorem Tiled.not_met {b u : Extent} {x : Nat} (h : Tiled arenas (free ++ used)) (hb : b ∈ free)
    (hu : u ∈ used) (hx : b.Has x) : ¬ u.Has x :=
  ((List.pairwise_append.mp h.apart).2.2 _ hb _ hu).not_has hx

/-- A block next to a free one is in use. -/
theorem Tiled.beside {x : Nat} {r b : Extent} (h : Tiled arenas (free ++ used))
    (hpos : ∀ b ∈ free, 0 < b.len)
    (hclear : ∀ b ∈ free, ∀ a ∈ free, a ≠ b → a.stop ≠ b.start) (hr : r ∈ arenas)
    (hrx : r.Has x) (hb : b ∈ free) (hx : x + 1 = b.start ∨ x = b.stop) : ∃ u ∈ used, u.Has x := by
  obtain ⟨c, hc, hcx⟩ := h.covers hr hrx
  obtain hcf | hcu := List.mem_append.mp hc
  · exfalso
    have hbpos := hpos b hb
    have hcb : c ≠ b := by
      rintro rfl
      simp only [Has, stop] at *
      omega
    have hapart := h.apart.forall (List.mem_append_left _ hcf) (List.mem_append_left _ hb) hcb
    have hbehind := hclear b hb c hcf hcb
    have hbefore := hclear c hcf b hb (Ne.symm hcb)
    simp only [Apart, Has, stop] at *
    omega
  · exact ⟨c, hcu, hcx⟩

/-- Free blocks of which no two are neighbours are the holes between the others. -/
theorem Tiled.mem_free_iff (h : Tiled arenas (free ++ used)) (hpos : ∀ b ∈ free, 0 < b.len)
    (hclear : ∀ b ∈ free, ∀ a ∈ free, a ≠ b → a.stop ≠ b.start) :
    e ∈ free ↔ Hole arenas used e := by
  constructor
  · intro he
    have hlen := hpos e he
    obtain ⟨r, hr, hin⟩ := h.inside e (List.mem_append_left _ he)
    refine ⟨hlen, fun x hx b hb => h.not_met he hb hx, r, hr, hin, fun hne => ?_, fun hne => ?_⟩
    · refine h.beside hpos hclear hr ?_ he (.inl ?_) <;> (simp only [Within, Has, stop] at *; omega)
    · refine h.beside hpos hclear hr ?_ he (.inr rfl)
      simp only [Within, Has, stop] at *
      omega
  · rintro ⟨hlen, hunused, r, hr, hin, hleft, hright⟩
    have hne : e.start < e.stop := by
      simp only [stop]
      omega
    have hstart : r.Has e.start := by
      simp only [Within, Has] at *
      omega
    obtain ⟨b, hb, hbx⟩ := h.covers hr hstart
    have hb : b ∈ free := by
      refine (List.mem_append.mp hb).resolve_right fun hbu => ?_
      exact hunused e.start ⟨Nat.le_refl _, hne⟩ b hbu hbx
    obtain ⟨s, hs, hbs⟩ := h.inside b (List.mem_append_left _ hb)
    obtain rfl : r = s := by
      refine h.arena_unique hr hs hstart ?_
      simp only [Within, Has] at *
      omega
    -- the free block at the first address of the hole is the whole hole
    have hlow : b.start = e.start := by
      by_contra hne
      obtain ⟨u, hu, hux⟩ := hleft (by simp only [Within, Has] at *; omega)
      exact h.not_met hb hu (by simp only [Has] at *; omega) hux
    have hhigh : b.stop = e.stop := by
      obtain hlt | heq | hgt := Nat.lt_trichotomy b.stop e.stop
      · obtain ⟨u, hu, hux⟩ :=
          h.beside hpos hclear hr (by simp only [Within, Has] at *; omega) hb (.inr rfl)
        exact absurd hux (hunused b.stop (by simp only [Has] at *; omega) u hu)
      · exact heq
      · obtain ⟨u, hu, hux⟩ := hright (by simp only [Within] at *; omega)
        exact absurd hux (h.not_met hb hu (by simp only [Has] at *; omega))
    obtain rfl : b = e := by
      obtain ⟨x, n⟩ := b
      obtain ⟨y, m⟩ := e
      simp only [stop, Extent.mk.injEq] at *
      omega
    exact hb

end Holes

section Path

variable {α : Type*} {next next' : α → α} {x y z : α} {l l' : List α}

def Path (next : α → α) : α → List α → α → Prop
  | x, [], y => x = y
  | x, a :: l, y => x = a ∧ Path next (next a) l y

@[simp] theorem path_nil : Path next x [] y ↔ x = y := Iff.rfl

@[simp] theorem path_cons {a : α} : Path next x (a :: l) y ↔ x = a ∧ Path next (next a) l y :=
  Iff.rfl

theorem path_append : Path next x (l ++ l') z ↔ ∃ y, Path next x l y ∧ Path next y l' z := by
  induction l generalizing x with
  | nil => simp
  | cons a l ih => simp [ih, and_assoc]

/-- A path depends only on the successors of its own nodes. -/
theorem Path.congr (h : Path next x l y) (heq : ∀ a ∈ l, next' a = next a) :
    Path next' x l y := by
  induction l generalizing x with
  | nil => exact h
  | cons a l ih =>
      obtain ⟨rfl, htail⟩ := h
      refine ⟨rfl, ?_⟩
      rw [heq x (by simp)]
      exact ih htail (fun b hb => heq b (by simp [hb]))

/-- A path cut at one of its nodes. -/
theorem path_cut {a : α} :
    Path next x (l ++ a :: l') y ↔ Path next x l a ∧ Path next (next a) l' y := by
  simp [path_append]

/-- As many steps as there are nodes on a path lead to its end. -/
theorem Path.iterate (h : Path next x l y) : next^[l.length] x = y := by
  induction l generalizing x with
  | nil => exact h
  | cons a l ih =>
      obtain ⟨rfl, htail⟩ := h
      exact ih htail

/-- The successor of a node is the node behind it, or where the path ends. -/
theorem Path.next_cases {a : α} (h : Path next x (l ++ a :: l') y) :
    l' = [] ∧ next a = y ∨ ∃ rest, l' = next a :: rest := by
  obtain ⟨-, htail⟩ := path_cut.mp h
  cases l' with
  | nil => exact .inl ⟨rfl, htail⟩
  | cons b l' =>
      obtain ⟨rfl, -⟩ := htail
      exact .inr ⟨l', rfl⟩

end Path

/-- Where a value that is not on a sorted list, but is above its head, belongs. -/
theorem exists_insertion_point {x v : Nat} {l : List Nat} (hs : (x :: l).Pairwise (· < ·))
    (hx : x < v) (hv : v ∉ l) :
    ∃ A q C, x :: l = A ++ q :: C ∧ (∀ a ∈ A, a < v) ∧ q < v ∧ ∀ c ∈ C, v < c := by
  induction l generalizing x with
  | nil => exact ⟨[], x, [], rfl, by simp, hx, by simp⟩
  | cons y l ih =>
      obtain ⟨hxl, hyl⟩ := List.pairwise_cons.mp hs
      by_cases hlt : y < v
      · obtain ⟨A, q, C, heq, hA, hq, hC⟩ := ih hyl hlt (fun h => hv (by simp [h]))
        exact ⟨x :: A, q, C, by simp [heq], by simp [hx]; exact hA, hq, hC⟩
      · have hvy : v < y := by
          have hne : v ≠ y := fun h => hv (by simp [h])
          omega
        refine ⟨[], x, y :: l, rfl, by simp, hx, ?_⟩
        intro c hc
        obtain rfl | hc := List.mem_cons.mp hc
        · exact hvy
        · have := (List.pairwise_cons.mp hyl).1 c hc
          omega

end X86Kernel.Lib
