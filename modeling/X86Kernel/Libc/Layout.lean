import Mathlib.Data.List.Nodup
import X86Kernel.Libc.Malloc

/-!
What the library's heap looks like between two calls, and that `free` keeps it
so. The free list is a ring through `base`, the sentinel of size zero, with the
addresses rising from `base` on; the free and the live blocks together tile the
regions that `sbrk` granted. The sentinel counts as an arena of no bytes.
-/

namespace X86Kernel.Libc

open Lib

namespace Heap

def next (h : Heap) (p : Nat) : Nat := (h.mem p).ptr

/-- The bytes of the block with its header at `p`, the header included. -/
def block (h : Heap) (p : Nat) : Extent := ⟨p, sizeofHeader * (h.mem p).size⟩

@[simp] theorem block_start (h : Heap) (p : Nat) : (h.block p).start = p := rfl

end Heap

structure Layout (base : Nat) (h : Heap) (ring live : List Nat) : Prop where
  linked : Path h.next base ring base
  nonempty : ring ≠ []
  sorted : ring.Pairwise (· < ·)
  tiled : Tiled (h.regions ++ [⟨base, 0⟩]) ((ring ++ live).map h.block)
  above : ∀ r ∈ h.regions, base + sizeofHeader ≤ r.start
  bounded : ∀ r ∈ h.regions, r.len < 2 ^ 31 ∧ sizeofHeader ∣ r.len

namespace Layout

variable {base : Nat} {h : Heap} {ring live : List Nat} {a b : Nat}

theorem ring_eq (hl : Layout base h ring live) : ∃ rest, ring = base :: rest := by
  have hlinked := hl.linked
  cases hring : ring with
  | nil => exact absurd hring hl.nonempty
  | cons x rest =>
      rw [hring] at hlinked
      exact ⟨rest, by rw [hlinked.1]⟩

theorem base_mem (hl : Layout base h ring live) : base ∈ ring := by
  obtain ⟨rest, rfl⟩ := hl.ring_eq
  simp

theorem nodup (hl : Layout base h ring live) : (ring ++ live).Nodup := by
  have happart := List.pairwise_map.mp hl.tiled.apart
  exact happart.imp (fun hab => hab.2)

/-- A block is the empty sentinel, or lies behind it with room for its header. -/
theorem base_or_above (hl : Layout base h ring live) (ha : a ∈ ring ++ live) :
    a = base ∧ (h.mem a).size = 0 ∨ base + sizeofHeader ≤ a := by
  obtain ⟨r, hr, hin⟩ := hl.tiled.inside (h.block a) (List.mem_map_of_mem ha)
  obtain hr | hr := List.mem_append.mp hr
  · have := hl.above r hr
    simp only [Extent.Within, Heap.block] at hin
    omega
  · obtain rfl := List.mem_singleton.mp hr
    simp only [Extent.Within, Extent.stop, Heap.block, sizeofHeader] at hin
    omega

theorem base_size (hl : Layout base h ring live) : (h.mem base).size = 0 := by
  obtain ⟨-, hz⟩ | h16 := hl.base_or_above (List.mem_append_left _ hl.base_mem)
  · exact hz
  · simp only [sizeofHeader] at h16
    omega

theorem lt_of_mem_live (hl : Layout base h ring live) (ha : a ∈ live) : base < a := by
  have hne : a ≠ base := by
    rintro rfl
    exact (List.nodup_append.mp hl.nodup).2.2 _ hl.base_mem _ ha rfl
  obtain ⟨heq, -⟩ | h16 := hl.base_or_above (List.mem_append_right _ ha)
  · exact absurd heq hne
  · simp only [sizeofHeader] at h16
    omega

theorem base_le (hl : Layout base h ring live) (ha : a ∈ ring ++ live) : base ≤ a := by
  obtain ⟨heq, -⟩ | h16 := hl.base_or_above ha
  · omega
  · simp only [sizeofHeader] at h16
    omega

/-- Without the sentinel the blocks tile the regions. -/
theorem behind_tiled {nodes : List Nat} (hl : Layout base h (base :: nodes) live) :
    Tiled h.regions ((nodes ++ live).map h.block) := by
  have hzero : (h.block base).len = 0 := by simp [Heap.block, hl.base_size]
  refine ⟨hl.tiled.separated.sublist (List.sublist_append_left _ _), ?_, ?_, ?_⟩
  · intro b hb
    obtain ⟨a, ha, rfl⟩ := List.mem_map.mp hb
    obtain ⟨r, hr, hin⟩ := hl.tiled.inside (h.block a)
      (List.mem_map_of_mem (List.mem_cons_of_mem _ ha))
    obtain hr | hr := List.mem_append.mp hr
    · exact ⟨r, hr, hin⟩
    · -- only the sentinel itself lies in its empty arena
      obtain rfl := List.mem_singleton.mp hr
      have hne : a ≠ base := by
        rintro rfl
        exact (List.nodup_cons.mp hl.nodup).1 ha
      simp only [Extent.Within, Extent.stop, Heap.block] at hin
      omega
  · exact (List.pairwise_cons.mp hl.tiled.apart).2
  · have htotal := hl.tiled.total
    rw [List.cons_append, List.map_cons, List.map_cons, List.sum_cons, hzero] at htotal
    simpa using htotal

end Layout

/-- Only the sentinel is empty, no region is, and no free block ends where another
begins. -/
structure Coalesced (base : Nat) (h : Heap) (ring : List Nat) : Prop where
  filled : ∀ r ∈ h.regions, 0 < r.len
  sized : ∀ a ∈ ring, (h.mem a).size = 0 → a = base
  clear : ∀ b ∈ ring, ∀ a ∈ ring, a ≠ b → (h.block a).stop ≠ b

/-- Blocks that leave the ring do no harm. -/
theorem Coalesced.congr {base : Nat} {h h' : Heap} {ring ring' : List Nat}
    (hc : Coalesced base h ring) (hsub : ∀ a ∈ ring', a ∈ ring)
    (hsize : ∀ a ∈ ring', (h'.mem a).size = (h.mem a).size)
    (hfilled : ∀ r ∈ h'.regions, r ∈ h.regions ∨ 0 < r.len) : Coalesced base h' ring' := by
  refine ⟨fun r hr => (hfilled r hr).elim (hc.filled r) id, fun a ha hz => ?_, ?_⟩
  · exact hc.sized a (hsub a ha) (by rw [← hsize a ha, hz])
  · intro b hb a ha hne
    have hclear := hc.clear b (hsub b hb) a (hsub a ha) hne
    rwa [Heap.block, hsize a ha]

/-- No block is larger than the largest region. -/
theorem size_lt_of_tiled {base : Nat} {h : Heap} {l : List Nat} {a : Nat}
    (ht : Tiled (h.regions ++ [⟨base, 0⟩]) (l.map h.block))
    (hb : ∀ r ∈ h.regions, r.len < 2 ^ 31 ∧ sizeofHeader ∣ r.len) (ha : a ∈ l) :
    (h.mem a).size < 2 ^ 27 := by
  obtain ⟨r, hr, hin⟩ := ht.inside (h.block a) (List.mem_map_of_mem ha)
  obtain hr | hr := List.mem_append.mp hr
  · have := (hb r hr).1
    simp only [Extent.Within, Extent.stop, Heap.block, sizeofHeader] at hin
    omega
  · obtain rfl := List.mem_singleton.mp hr
    simp only [Extent.Within, Extent.stop, Heap.block, sizeofHeader] at hin
    omega

/-- The nodes at which the loop of `free` stops. -/
def Stops (h : Heap) (bp p : Nat) : Prop :=
  (bp > p ∧ bp < h.next p) ∨ (p ≥ h.next p ∧ (bp > p ∨ bp < h.next p))

theorem seek_stop {h : Heap} {bp p fuel : Nat} (hs : Stops h bp p) :
    seek h.mem bp (fuel + 1) p = some p := by
  unfold seek
  obtain hfirst | hsecond := hs
  · exact if_pos hfirst
  · split
    · rfl
    · exact if_pos hsecond

theorem seek_pass {h : Heap} {bp p q fuel : Nat} {l : List Nat} (hpath : Path h.next p l q)
    (hpass : ∀ a ∈ l, ¬ Stops h bp a) :
    seek h.mem bp (l.length + fuel) p = seek h.mem bp fuel q := by
  induction l generalizing p with
  | nil => simp [path_nil.mp hpath]
  | cons a l ih =>
      obtain ⟨rfl, htail⟩ := hpath
      have hgo := hpass p (by simp)
      simp only [Stops, Heap.next, not_or] at hgo
      rw [show (p :: l).length + fuel = (l.length + fuel) + 1 by simp; omega]
      conv_lhs => unfold seek
      rw [if_neg hgo.1, if_neg hgo.2]
      exact ih htail (fun b hb => hpass b (by simp [hb]))

/-- The search of `free` ends at the node behind which the block belongs. It is
enough to go once around the ring. -/
theorem seek_finds {base : Nat} {h : Heap} {bp p : Nat} {A C : List Nat} {q : Nat}
    (hlinked : Path h.next base (A ++ q :: C) base) (hsorted : (A ++ q :: C).Pairwise (· < ·))
    (hbase : ∀ a ∈ A ++ q :: C, base ≤ a) (hA : ∀ a ∈ A, a < bp) (hq : q < bp)
    (hC : ∀ c ∈ C, bp < c) (hbp : base < bp) (hp : p ∈ A ++ q :: C) :
    ∃ N, ∀ fuel ≥ N, seek h.mem bp fuel p = some q := by
  have hpassA : ∀ a ∈ A, ¬ Stops h bp a := by
    intro a ha
    obtain ⟨L, R, rfl⟩ := List.append_of_mem ha
    have hpath : Path h.next base (L ++ a :: (R ++ q :: C)) base := by simpa using hlinked
    obtain ⟨hnil, -⟩ | ⟨rest, hrest⟩ := hpath.next_cases
    · simp at hnil
    · have hnext : h.next a ∈ R ++ [q] := by
        cases R with
        | nil =>
            simp only [List.nil_append, List.cons.injEq] at hrest
            simp [← hrest.1]
        | cons b R =>
            simp only [List.cons_append, List.cons.injEq] at hrest
            simp [← hrest.1]
      have hup : a < h.next a := by
        have hpair := (List.pairwise_append.mp hsorted).1
        have htail := List.pairwise_append.mp hsorted
        obtain hR | hR := List.mem_append.mp hnext
        · exact (List.pairwise_cons.mp (List.pairwise_append.mp hpair).2.1).1 _ hR
        · obtain rfl : h.next a = q := by simpa using hR
          exact htail.2.2 a (by simp) _ (by simp)
      have hlow : h.next a < bp := by
        obtain hR | hR := List.mem_append.mp hnext
        · exact hA _ (by simp [hR])
        · obtain heq : h.next a = q := by simpa using hR
          omega
      simp only [Stops]
      omega
  have hpassC : ∀ c ∈ C, ¬ Stops h bp c := by
    intro c hc
    have hbc := hC c hc
    obtain ⟨L, R, rfl⟩ := List.append_of_mem hc
    have hpath : Path h.next base ((A ++ q :: L) ++ c :: R) base := by simpa using hlinked
    obtain ⟨-, hend⟩ | ⟨rest, rfl⟩ := hpath.next_cases
    · simp only [Stops]
      omega
    · have hup : c < h.next c := by
        have hs := List.pairwise_append.mp hsorted
        have hs := List.pairwise_append.mp (List.pairwise_cons.mp hs.2.1).2
        exact (List.pairwise_cons.mp hs.2.1).1 _ (by simp)
      simp only [Stops]
      omega
  have hstop : Stops h bp q := by
    obtain ⟨-, hend⟩ | ⟨rest, rfl⟩ := hlinked.next_cases
    · have := hbase q (by simp)
      simp only [Stops]
      omega
    · have := hC (h.next q) (by simp)
      simp only [Stops]
      omega
  obtain ⟨hpathA, hpathC⟩ := path_cut.mp hlinked
  -- from any node of the lower part, `q` is ahead
  have hlower : ∀ {x : Nat} {l : List Nat}, Path h.next x l q → (∀ a ∈ l, a ∈ A) →
      ∀ fuel ≥ l.length + 1, seek h.mem bp fuel x = some q := by
    intro x l hpath hsub fuel hfuel
    obtain ⟨k, rfl⟩ := Nat.exists_eq_add_of_le hfuel
    rw [Nat.add_assoc, seek_pass hpath (fun a ha => hpassA a (hsub a ha)), Nat.add_comm 1]
    exact seek_stop hstop
  obtain hpA | hpC := List.mem_append.mp hp
  · obtain ⟨L, R, rfl⟩ := List.append_of_mem hpA
    obtain ⟨-, htail⟩ := path_cut.mp hpathA
    exact ⟨_, hlower (l := p :: R) ⟨rfl, htail⟩ (by
      intro a ha
      exact List.mem_append_right _ ha)⟩
  · obtain rfl | hpC := List.mem_cons.mp hpC
    · exact ⟨_, hlower (l := []) rfl (by simp)⟩
    · -- the upper part leads back to `base` first
      obtain ⟨L, R, rfl⟩ := List.append_of_mem hpC
      obtain ⟨-, htail⟩ := path_cut.mp hpathC
      refine ⟨(p :: R).length + (A.length + 1), fun fuel hfuel => ?_⟩
      obtain ⟨k, rfl⟩ := Nat.exists_eq_add_of_le hfuel
      have hup : Path h.next p (p :: R) base := ⟨rfl, htail⟩
      rw [Nat.add_assoc, seek_pass hup (fun c hc => hpassC c (List.mem_append_right _ hc))]
      exact hlower hpathA (fun _ ha => ha) _ (by omega)

structure Gap (base : Nat) (h : Heap) (A : List Nat) (q bp : Nat) (C live : List Nat) : Prop where
  lower : Path h.next base A q
  upper : Path h.next (h.next bp) C base
  sorted : (A ++ q :: bp :: C).Pairwise (· < ·)
  tiled : Tiled (h.regions ++ [⟨base, 0⟩]) ((A ++ q :: bp :: (C ++ live)).map h.block)
  above : ∀ r ∈ h.regions, base + sizeofHeader ≤ r.start
  bounded : ∀ r ∈ h.regions, r.len < 2 ^ 31 ∧ sizeofHeader ∣ r.len

section Joins

variable {base : Nat} {h : Heap} {A C live : List Nat} {q bp : Nat}

/-- The blocks that a list of headers stands for do not depend on headers that
are not on it, and only on the sizes. -/
theorem map_block_congr {h h' : Heap} {l : List Nat}
    (heq : ∀ a ∈ l, (h'.mem a).size = (h.mem a).size) : l.map h'.block = l.map h.block := by
  refine List.map_congr_left (fun a ha => ?_)
  simp [Heap.block, heq a ha]

/-- Two neighbours of a layout whose headers are merged into the first one. -/
theorem Tiled.merge {arenas : List Extent} {h h' : Heap} {a b : Nat} {l : List Nat}
    (ht : Tiled arenas ((a :: b :: l).map h.block))
    (hnext : a + sizeofHeader * (h.mem a).size = b)
    (hsize : (h'.mem a).size = (h.mem a).size + (h.mem b).size)
    (hrest : ∀ x ∈ l, (h'.mem x).size = (h.mem x).size) :
    Tiled arenas ((a :: l).map h'.block) := by
  have hjoin := Tiled.join (a := h.block a) (b := h.block b) (by simpa using ht) hnext
  have hblock : h'.block a = ⟨(h.block a).start, (h.block a).len + (h.block b).len⟩ := by
    simp only [Heap.block, hsize, Nat.mul_add]
  rw [List.map_cons, map_block_congr hrest, hblock]
  exact hjoin

theorem unsigned_add {m n : Nat} (hm : m < 2 ^ 27) (hn : n < 2 ^ 27) :
    unsigned ((m : Int) + n) = m + n := by
  simp only [unsigned]
  omega

@[simp] theorem joinUpper_regions : (joinUpper h bp q).regions = h.regions := by
  unfold joinUpper
  split <;> rfl

@[simp] theorem joinLower_regions : (joinLower h bp q).regions = h.regions := by
  unfold joinLower
  split <;> rfl

theorem joinUpper_next_merge (hnext : bp + sizeofHeader * (h.mem bp).size = h.next q) (a : Nat) :
    (joinUpper h bp q).next a = if a = bp then h.next (h.next q) else h.next a := by
  simp only [joinUpper, Heap.next] at hnext ⊢
  rw [if_pos hnext]
  simp

theorem joinUpper_size_merge (hnext : bp + sizeofHeader * (h.mem bp).size = h.next q) (a : Nat) :
    ((joinUpper h bp q).mem a).size =
      if a = bp then unsigned ((h.mem bp).size + (h.mem (h.next q)).size)
      else (h.mem a).size := by
  simp only [joinUpper, Heap.next] at hnext ⊢
  rw [if_pos hnext]
  simp

theorem joinUpper_next_link (hnext : ¬ bp + sizeofHeader * (h.mem bp).size = h.next q) (a : Nat) :
    (joinUpper h bp q).next a = if a = bp then h.next q else h.next a := by
  simp only [joinUpper, Heap.next] at hnext ⊢
  rw [if_neg hnext]
  simp

theorem joinUpper_size_link (hnext : ¬ bp + sizeofHeader * (h.mem bp).size = h.next q) (a : Nat) :
    ((joinUpper h bp q).mem a).size = (h.mem a).size := by
  simp only [joinUpper, Heap.next] at hnext ⊢
  rw [if_neg hnext]
  simp

theorem joinLower_next_merge (hnext : q + sizeofHeader * (h.mem q).size = bp) (a : Nat) :
    (joinLower h bp q).next a = if a = q then h.next bp else h.next a := by
  simp only [joinLower, Heap.next]
  rw [if_pos hnext]
  simp

theorem joinLower_size_merge (hnext : q + sizeofHeader * (h.mem q).size = bp) (a : Nat) :
    ((joinLower h bp q).mem a).size =
      if a = q then unsigned ((h.mem q).size + (h.mem bp).size) else (h.mem a).size := by
  simp only [joinLower]
  rw [if_pos hnext]
  simp

theorem joinLower_next_link (hnext : ¬ q + sizeofHeader * (h.mem q).size = bp) (a : Nat) :
    (joinLower h bp q).next a = if a = q then bp else h.next a := by
  simp only [joinLower, Heap.next]
  rw [if_neg hnext]
  simp

theorem joinLower_size_link (hnext : ¬ q + sizeofHeader * (h.mem q).size = bp) (a : Nat) :
    ((joinLower h bp q).mem a).size = (h.mem a).size := by
  simp only [joinLower]
  rw [if_neg hnext]
  simp

/-- What is behind the block once it is joined with the one above it, or not. -/
def upperRest (h : Heap) (bp q : Nat) (C : List Nat) : List Nat :=
  if bp + sizeofHeader * (h.mem bp).size = h.next q then C.tail else C

/-- What is behind `q` once the block is joined with it, or not. -/
def lowerRest (h : Heap) (bp q : Nat) (C : List Nat) : List Nat :=
  if q + sizeofHeader * (h.mem q).size = bp then C else bp :: C

/-- The first half of what `free` does, at the place the loop has found. -/
theorem joinUpper_gap (hl : Layout base h (A ++ q :: C) (bp :: live)) (hA : ∀ a ∈ A, a < bp)
    (hq : q < bp) (hC : ∀ c ∈ C, bp < c) :
    Gap base (joinUpper h bp q) A q bp (upperRest h bp q C) live := by
  obtain ⟨hpathA, hpathC⟩ := path_cut.mp hl.linked
  have hbp : base < bp := hl.lt_of_mem_live (by simp)
  have hlive : bp ∉ live := by
    have hnodup := (List.nodup_append.mp hl.nodup).2.1
    exact (List.nodup_cons.mp hnodup).1
  have hsorted : (A ++ q :: bp :: C).Pairwise (· < ·) := by
    have hs := hl.sorted
    simp only [List.pairwise_append, List.pairwise_cons, List.mem_cons] at hs ⊢
    refine ⟨hs.1, ⟨?_, hC, hs.2.1.2⟩, ?_⟩
    · rintro a (rfl | ha)
      · exact hq
      · exact hs.2.1.1 a ha
    · rintro a ha b (rfl | rfl | hb)
      · exact hs.2.2 a ha b (.inl rfl)
      · exact hA a ha
      · exact hs.2.2 a ha b (.inr hb)
  have htiled : Tiled (h.regions ++ [⟨base, 0⟩]) ((bp :: (A ++ q :: (C ++ live))).map h.block) := by
    refine hl.tiled.perm (List.Perm.map _ ?_)
    simpa using @List.perm_middle _ bp (A ++ q :: C) live
  have hback : ∀ l : List Nat, (bp :: (A ++ q :: l)).Perm (A ++ q :: bp :: l) := by
    intro l
    refine List.perm_middle.symm.trans ?_
    exact List.Perm.append_left A (List.Perm.swap _ _ _)
  have hneA : ∀ a ∈ A, a ≠ bp := fun a ha => Nat.ne_of_lt (hA a ha)
  have hneC : ∀ c ∈ C, c ≠ bp := fun c hc => Nat.ne_of_gt (hC c hc)
  have hsizes : ∀ a ∈ A ++ q :: (C ++ live), a ≠ bp := by
    intro a ha
    simp only [List.mem_append, List.mem_cons] at ha
    obtain ha | rfl | ha | ha := ha
    · exact hneA a ha
    · exact Nat.ne_of_lt hq
    · exact hneC a ha
    · rintro rfl
      exact hlive ha
  by_cases hnext : bp + sizeofHeader * (h.mem bp).size = h.next q
  · -- the block behind is free: the two become one
    obtain ⟨-, hend⟩ | ⟨rest, rfl⟩ := hl.linked.next_cases
    · omega
    · have hcbp : h.next q ≠ bp := hneC _ (by simp)
      have hsum := unsigned_add (size_lt_of_tiled hl.tiled hl.bounded (a := bp) (by simp))
        (size_lt_of_tiled hl.tiled hl.bounded (a := h.next q) (by simp))
      rw [upperRest, if_pos hnext, List.tail_cons]
      refine ⟨?_, ?_, ?_, ?_, ?_, ?_⟩
      · exact hpathA.congr (fun a ha => by simp [joinUpper_next_merge hnext, hneA a ha])
      · rw [joinUpper_next_merge hnext, if_pos rfl]
        exact hpathC.2.congr (fun a ha => by
          simp [joinUpper_next_merge hnext, hneC a (by simp [ha])])
      · exact hsorted.sublist (by simp)
      · rw [joinUpper_regions]
        refine Tiled.perm ?_ ((hback (rest ++ live)).map _)
        have hpair : (bp :: (A ++ q :: (h.next q :: rest ++ live))).Perm
            (bp :: h.next q :: (A ++ q :: (rest ++ live))) := by
          refine List.Perm.cons _ ?_
          simpa using @List.perm_middle _ (h.next q) (A ++ [q]) (rest ++ live)
        refine Tiled.merge (htiled.perm (hpair.map _)) hnext ?_ ?_
        · rw [joinUpper_size_merge hnext, if_pos rfl, hsum]
        · intro x hx
          have hne := hsizes x (by
            simp only [List.mem_append, List.mem_cons] at hx ⊢
            tauto)
          rw [joinUpper_size_merge hnext, if_neg hne]
      · rw [joinUpper_regions]
        exact hl.above
      · rw [joinUpper_regions]
        exact hl.bounded
  · rw [upperRest, if_neg hnext]
    refine ⟨?_, ?_, hsorted, ?_, ?_, ?_⟩
    · exact hpathA.congr (fun a ha => by simp [joinUpper_next_link hnext, hneA a ha])
    · rw [joinUpper_next_link hnext, if_pos rfl]
      exact hpathC.congr (fun a ha => by simp [joinUpper_next_link hnext, hneC a ha])
    · rw [joinUpper_regions, map_block_congr (fun a _ => joinUpper_size_link hnext a)]
      exact htiled.perm ((hback _).map _)
    · rw [joinUpper_regions]
      exact hl.above
    · rw [joinUpper_regions]
      exact hl.bounded

/-- The second half: the ring is closed again. -/
theorem joinLower_layout (hg : Gap base h A q bp C live) :
    Layout base (joinLower h bp q) (A ++ q :: lowerRest h bp q C) live := by
  have hsorted := hg.sorted
  simp only [List.pairwise_append, List.pairwise_cons, List.mem_cons] at hsorted
  have hneA : ∀ a ∈ A, a ≠ q := fun a ha => Nat.ne_of_lt (hsorted.2.2 a ha q (.inl rfl))
  have hneC : ∀ c ∈ C, c ≠ q := fun c hc => Nat.ne_of_gt (hsorted.2.1.1 c (.inr hc))
  have hqbp : bp ≠ q := Nat.ne_of_gt (hsorted.2.1.1 bp (.inl rfl))
  have hnodup : (A ++ q :: bp :: (C ++ live)).Nodup :=
    (List.pairwise_map.mp hg.tiled.apart).imp (fun hab => hab.2)
  have hneq : ∀ a ∈ A ++ (C ++ live), a ≠ q := by
    have hmid := (List.nodup_middle.mp hnodup)
    rintro a ha rfl
    refine (List.nodup_cons.mp hmid).1 ?_
    simp only [List.mem_append, List.mem_cons] at ha ⊢
    tauto
  by_cases hnext : q + sizeofHeader * (h.mem q).size = bp
  · have hsum := unsigned_add (size_lt_of_tiled hg.tiled hg.bounded (a := q) (by simp))
      (size_lt_of_tiled hg.tiled hg.bounded (a := bp) (by simp))
    rw [lowerRest, if_pos hnext]
    refine ⟨?_, by simp, ?_, ?_, ?_, ?_⟩
    · refine path_cut.mpr ⟨?_, ?_⟩
      · exact hg.lower.congr (fun a ha => by simp [joinLower_next_merge hnext, hneA a ha])
      · rw [joinLower_next_merge hnext, if_pos rfl]
        exact hg.upper.congr (fun a ha => by simp [joinLower_next_merge hnext, hneC a ha])
    · exact hg.sorted.sublist (by simp)
    · rw [joinLower_regions]
      have hpair : (A ++ q :: bp :: (C ++ live)).Perm (q :: bp :: (A ++ (C ++ live))) := by
        refine List.perm_middle.trans (List.Perm.cons _ ?_)
        exact List.perm_middle
      have hback : (q :: (A ++ (C ++ live))).Perm ((A ++ q :: C) ++ live) := by
        simpa using (@List.perm_middle _ q A (C ++ live)).symm
      refine Tiled.perm ?_ (hback.map _)
      refine Tiled.merge (hg.tiled.perm (hpair.map _)) hnext ?_ ?_
      · rw [joinLower_size_merge hnext, if_pos rfl, hsum]
      · intro x hx
        rw [joinLower_size_merge hnext, if_neg (hneq x hx)]
    · rw [joinLower_regions]
      exact hg.above
    · rw [joinLower_regions]
      exact hg.bounded
  · rw [lowerRest, if_neg hnext]
    refine ⟨?_, by simp, hg.sorted, ?_, ?_, ?_⟩
    · refine path_cut.mpr ⟨?_, ?_⟩
      · exact hg.lower.congr (fun a ha => by simp [joinLower_next_link hnext, hneA a ha])
      · rw [joinLower_next_link hnext, if_pos rfl]
        refine ⟨rfl, ?_⟩
        rw [joinLower_next_link hnext, if_neg hqbp]
        exact hg.upper.congr (fun a ha => by simp [joinLower_next_link hnext, hneC a ha])
    · rw [joinLower_regions, map_block_congr (fun a _ => joinLower_size_link hnext a)]
      simpa using hg.tiled
    · rw [joinLower_regions]
      exact hg.above
    · rw [joinLower_regions]
      exact hg.bounded

/-- The join with the block above leaves no two neighbours, but perhaps the block
and the one below it. -/
theorem joinUpper_coalesced (hl : Layout base h (A ++ q :: C) (bp :: live))
    (hA : ∀ a ∈ A, a < bp) (hq : q < bp) (hC : ∀ c ∈ C, bp < c) (hpos : 0 < (h.mem bp).size)
    (hc : Coalesced base h (A ++ q :: C)) :
    (∀ a ∈ A ++ q :: bp :: upperRest h bp q C, ((joinUpper h bp q).mem a).size = 0 → a = base) ∧
      ∀ b ∈ A ++ q :: upperRest h bp q C, ∀ a ∈ A ++ q :: bp :: upperRest h bp q C, a ≠ b →
        ((joinUpper h bp q).block a).stop ≠ b := by
  have hring : ∀ a ∈ A ++ q :: bp :: upperRest h bp q C, a = bp ∨ a ∈ A ++ q :: C := by
    intro a ha
    have hsub : ∀ c ∈ upperRest h bp q C, c ∈ C := by
      intro c hmem
      unfold upperRest at hmem
      split_ifs at hmem
      · exact List.mem_of_mem_tail hmem
      · exact hmem
    simp only [List.mem_append, List.mem_cons] at ha ⊢
    obtain ha | ha | ha | ha := ha
    · exact .inr (.inl ha)
    · exact .inr (.inr (.inl ha))
    · exact .inl ha
    · exact .inr (.inr (.inr (hsub a ha)))
  have hne : ∀ a ∈ A ++ q :: C, a ≠ bp := by
    intro a ha
    simp only [List.mem_append, List.mem_cons] at ha
    obtain ha | rfl | ha := ha
    · exact Nat.ne_of_lt (hA a ha)
    · exact Nat.ne_of_lt hq
    · exact Nat.ne_of_gt (hC a ha)
  have hbelow : ∀ b, b ∈ A ∨ b = q → (h.block bp).stop ≠ b := by
    rintro b hb
    have hlt : b < bp := hb.elim (hA b) (fun heq => heq ▸ hq)
    simp only [Extent.stop, Heap.block]
    omega
  by_cases hnext : bp + sizeofHeader * (h.mem bp).size = h.next q
  · -- the block takes the end of the one above it
    obtain ⟨-, hend⟩ | ⟨rest, rfl⟩ := hl.linked.next_cases
    · have := hl.lt_of_mem_live (List.mem_cons_self (a := bp))
      omega
    · have hsum := unsigned_add (size_lt_of_tiled hl.tiled hl.bounded (a := bp) (by simp))
        (size_lt_of_tiled hl.tiled hl.bounded (a := h.next q) (by simp))
      have hsize := joinUpper_size_merge hnext
      have hbp : ((joinUpper h bp q).block bp).stop = (h.block (h.next q)).stop := by
        simp only [Heap.block, Extent.stop]
        rw [hsize, if_pos rfl, hsum, ← hnext]
        simp only [sizeofHeader]
        omega
      refine ⟨?_, ?_⟩
      · intro a ha hz
        rw [hsize] at hz
        obtain rfl | hmem := hring a ha
        · rw [if_pos rfl, hsum] at hz
          omega
        · rw [if_neg (hne a hmem)] at hz
          exact hc.sized a hmem hz
      · intro b hb a ha hab
        have hb' : b ∈ A ++ q :: h.next q :: rest := by
          rw [upperRest, if_pos hnext, List.tail_cons] at hb
          simp only [List.mem_append, List.mem_cons] at hb ⊢
          tauto
        obtain rfl | hmem := hring a ha
        · rw [hbp]
          refine hc.clear b hb' _ (by simp) ?_
          rintro rfl
          rw [upperRest, if_pos hnext, List.tail_cons] at hb
          have hnodup := (List.nodup_append.mp hl.nodup).1
          have hmid : (A ++ [q] ++ h.next q :: rest).Nodup := by simpa using hnodup
          exact (List.nodup_cons.mp (List.nodup_middle.mp hmid)).1 (by simpa using hb)
        · simp only [Heap.block, hsize, if_neg (hne a hmem)]
          exact hc.clear b hb' a hmem hab
  · have hsize := joinUpper_size_link hnext
    rw [upperRest, if_neg hnext] at hring ⊢
    have hblock : ∀ a, (joinUpper h bp q).block a = h.block a := by
      intro a
      simp only [Heap.block, hsize]
    refine ⟨?_, ?_⟩
    · intro a ha hz
      rw [hsize] at hz
      obtain rfl | hmem := hring a ha
      · omega
      · exact hc.sized a hmem hz
    · intro b hb a ha hab
      rw [hblock]
      obtain rfl | hmem := hring a ha
      · obtain hbA | rfl | hbC : b ∈ A ∨ b = q ∨ b ∈ C := by simpa using hb
        · exact hbelow b (.inl hbA)
        · exact hbelow b (.inr rfl)
        · -- the first block above is not a neighbour, and it is in front of the others
          intro hstop
          obtain ⟨rfl, -⟩ | ⟨rest, rfl⟩ := hl.linked.next_cases
          · simp at hbC
          · have hapart := (List.pairwise_map.mp hl.tiled.apart).forall (a := a) (b := h.next q)
              (by simp) (by simp) (Nat.ne_of_lt (hC _ (by simp)))
            have hlow := hC (h.next q) (by simp)
            have hle : h.next q ≤ b := by
              obtain rfl | hbr := List.mem_cons.mp hbC
              · exact Nat.le_refl _
              · have hs := (List.pairwise_cons.mp (List.pairwise_append.mp hl.sorted).2.1).2
                exact Nat.le_of_lt ((List.pairwise_cons.mp hs).1 b hbr)
            simp only [Extent.Apart, Extent.stop, Heap.block] at hapart hstop
            omega
      · exact hc.clear b hb a hmem hab

/-- The join with the block below leaves no two neighbours at all. -/
theorem joinLower_coalesced (hg : Gap base h A q bp C live) (hbase : base < bp)
    (hfilled : ∀ r ∈ h.regions, 0 < r.len)
    (hsized : ∀ a ∈ A ++ q :: bp :: C, (h.mem a).size = 0 → a = base)
    (hclear : ∀ b ∈ A ++ q :: C, ∀ a ∈ A ++ q :: bp :: C, a ≠ b → (h.block a).stop ≠ b) :
    Coalesced base (joinLower h bp q) (A ++ q :: lowerRest h bp q C) := by
  have hsorted := hg.sorted
  simp only [List.pairwise_append, List.pairwise_cons, List.mem_cons] at hsorted
  have hbpC : ∀ c ∈ C, bp < c := hsorted.2.1.2.1
  have hsub : ∀ a ∈ A ++ q :: C, a ∈ A ++ q :: bp :: C := by
    intro a ha
    simp only [List.mem_append, List.mem_cons] at ha ⊢
    tauto
  have hbp : 0 < (h.mem bp).size := by
    by_contra hz
    have := hsized bp (by simp) (by omega)
    omega
  by_cases hnext : q + sizeofHeader * (h.mem q).size = bp
  · have hsum := unsigned_add (size_lt_of_tiled hg.tiled hg.bounded (a := q) (by simp))
      (size_lt_of_tiled hg.tiled hg.bounded (a := bp) (by simp))
    have hsize := joinLower_size_merge hnext
    have hq : ((joinLower h bp q).block q).stop = (h.block bp).stop := by
      simp only [Heap.block, Extent.stop]
      rw [hsize, if_pos rfl, hsum, ← hnext]
      simp only [sizeofHeader]
      omega
    rw [lowerRest, if_pos hnext]
    refine ⟨by simpa using hfilled, ?_, ?_⟩
    · intro a ha hz
      rw [hsize] at hz
      split_ifs at hz with heq
      · omega
      · exact hsized a (hsub a ha) hz
    · intro b hb a ha hab
      by_cases heq : a = q
      · subst heq
        rw [hq]
        refine hclear b hb bp (by simp) ?_
        rintro rfl
        simp only [List.mem_append, List.mem_cons] at hb
        obtain hb | rfl | hb := hb
        · exact Nat.lt_irrefl _ (hsorted.2.2 bp hb bp (.inr (.inl rfl)))
        · exact hab rfl
        · exact Nat.lt_irrefl _ (hbpC bp hb)
      · simp only [Heap.block, hsize, if_neg heq]
        exact hclear b hb a (hsub a ha) hab
  · have hsize := joinLower_size_link hnext
    rw [lowerRest, if_neg hnext]
    refine ⟨by simpa using hfilled, fun a ha hz => hsized a ha (by rw [← hsize a, hz]), ?_⟩
    intro b hb a ha hab
    simp only [Heap.block, hsize]
    by_cases heq : b = bp
    · subst heq
      simp only [List.mem_append, List.mem_cons] at ha
      obtain haA | rfl | rfl | haC := ha
      · -- the block below is between the two
        have hapart := (List.pairwise_map.mp hg.tiled.apart).forall (a := a) (b := q)
          (by simp [haA]) (by simp) (Nat.ne_of_lt (hsorted.2.2 a haA q (.inl rfl)))
        have haq := hsorted.2.2 a haA q (.inl rfl)
        have hqb := hsorted.2.1.1 b (.inl rfl)
        simp only [Extent.Apart, Extent.stop, Heap.block] at hapart ⊢
        omega
      · exact hnext
      · exact absurd rfl hab
      · have := hbpC a haC
        simp only [Extent.stop]
        omega
    · refine hclear b ?_ a ha hab
      simp only [List.mem_append, List.mem_cons] at hb ⊢
      tauto

/-- Only the two headers that `free` works on change their sizes. -/
theorem joins_size {a : Nat} (hbp : a ≠ bp) (hq : a ≠ q) :
    ((joinLower (joinUpper h bp q) bp q).mem a).size = (h.mem a).size := by
  have hupper : ((joinUpper h bp q).mem a).size = (h.mem a).size := by
    by_cases hnext : bp + sizeofHeader * (h.mem bp).size = h.next q
    · rw [joinUpper_size_merge hnext, if_neg hbp]
    · exact joinUpper_size_link hnext a
  rw [← hupper]
  by_cases hnext : q + sizeofHeader * ((joinUpper h bp q).mem q).size = bp
  · rw [joinLower_size_merge hnext, if_neg hq]
  · exact joinLower_size_link hnext a

end Joins

section Free

variable {base : Nat} {h : Heap} {ring live : List Nat} {bp : Nat}

/-- The roving pointer is no part of the layout. -/
theorem Layout.rove (hl : Layout base h ring live) (p : Nat) :
    Layout base { h with freep := p } ring live :=
  ⟨hl.linked, hl.nonempty, hl.sorted, hl.tiled, hl.above, hl.bounded⟩

/-- The heap that `free` leaves when its loop has ended at `q`. -/
def freed (h : Heap) (bp q : Nat) : Heap :=
  { joinLower (joinUpper h bp q) bp q with freep := q }

/-- `free` of a live block comes back, having worked at the place where the block
belongs. -/
theorem free_runs (hl : Layout base h ring (bp :: live)) (hfreep : h.freep ∈ ring) :
    ∃ A q C, ring = A ++ q :: C ∧ (∀ a ∈ A, a < bp) ∧ q < bp ∧ (∀ c ∈ C, bp < c) ∧
      ∃ N, ∀ fuel ≥ N, free fuel h (bp + sizeofHeader) = some (freed h bp q) := by
  obtain ⟨rest, hring⟩ := hl.ring_eq
  have hbp : base < bp := hl.lt_of_mem_live (by simp)
  have hnot : bp ∉ rest := by
    intro hmem
    have hdisj := (List.nodup_append.mp hl.nodup).2.2
    exact hdisj bp (by simp [hring, hmem]) bp (by simp) rfl
  have hsorted := hl.sorted
  rw [hring] at hsorted
  obtain ⟨A, q, C, hsplit, hA, hq, hC⟩ := exists_insertion_point hsorted hbp hnot
  rw [← hring] at hsplit
  have hbase : ∀ a ∈ ring, base ≤ a := fun a ha => hl.base_le (List.mem_append_left _ ha)
  have hlinked := hl.linked
  have hsorted := hl.sorted
  rw [hsplit] at hlinked hsorted hbase hfreep
  obtain ⟨N, hN⟩ := seek_finds hlinked hsorted hbase hA hq hC hbp hfreep
  refine ⟨A, q, C, hsplit, hA, hq, hC, N, fun fuel hfuel => ?_⟩
  simp [free, freed, hN fuel hfuel]

theorem freed_layout {A C : List Nat} {q : Nat} (hl : Layout base h (A ++ q :: C) (bp :: live))
    (hA : ∀ a ∈ A, a < bp) (hq : q < bp) (hC : ∀ c ∈ C, bp < c) :
    (∃ ring', Layout base (freed h bp q) ring' live ∧ (freed h bp q).freep ∈ ring' ∧
      (0 < (h.mem bp).size → Coalesced base h (A ++ q :: C) →
        Coalesced base (freed h bp q) ring')) ∧
      ∀ a ∈ live, ((freed h bp q).mem a).size = (h.mem a).size := by
  have hgap := joinUpper_gap hl hA hq hC
  refine ⟨⟨_, (joinLower_layout hgap).rove q, by simp [freed], fun hpos hc => ?_⟩, fun a ha => ?_⟩
  · obtain ⟨hsized, hclear⟩ := joinUpper_coalesced hl hA hq hC hpos hc
    have hbase := hl.lt_of_mem_live (List.mem_cons_self (a := bp))
    refine (joinLower_coalesced hgap hbase ?_ hsized hclear).congr (fun a ha => ha) (fun a _ => rfl)
      (fun r hr => .inl hr)
    simpa using hc.filled
  have hnodup := List.nodup_append.mp hl.nodup
  refine joins_size ?_ ?_
  · rintro rfl
    exact (List.nodup_cons.mp hnodup.2.1).1 ha
  · rintro rfl
    exact hnodup.2.2 a (by simp) a (by simp [ha]) rfl

/-- `free` gives a live block back to the ring. -/
theorem free_layout (hl : Layout base h ring (bp :: live)) (hfreep : h.freep ∈ ring) :
    ∃ h' ring', (∃ N, ∀ fuel ≥ N, free fuel h (bp + sizeofHeader) = some h') ∧
      Layout base h' ring' live ∧ h'.freep ∈ ring' ∧
      (0 < (h.mem bp).size → Coalesced base h ring → Coalesced base h' ring') ∧
      h'.regions = h.regions ∧ ∀ a ∈ live, (h'.mem a).size = (h.mem a).size := by
  obtain ⟨A, q, C, rfl, hA, hq, hC, hN⟩ := free_runs hl hfreep
  obtain ⟨⟨ring', hl', hmem, hc⟩, hsizes⟩ := freed_layout hl hA hq hC
  exact ⟨_, ring', hN, hl', hmem, hc, by simp [freed], hsizes⟩

end Free

end X86Kernel.Libc
