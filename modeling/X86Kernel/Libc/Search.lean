import X86Kernel.Libc.Layout

/-!
`malloc` on the layout of the heap: the search either comes to a block that is
large enough or, once around the ring, asks for a region that is. In both cases
it returns, and what it returns is a block that was free before.
-/

namespace X86Kernel.Libc

open Lib

structure Fresh (base : Nat) (sbrk : List Extent → Int → Nat) : Prop where
  above : ∀ past increment, 0 < increment → base + sizeofHeader ≤ sbrk past increment
  higher : ∀ past increment, 0 < increment → ∀ r ∈ past, r.stop < sbrk past increment
  granted : ∀ past increment, 0 < increment → sbrk past increment ≠ refused

/-- What the kernel does for an increment of any sign: it returns the end of the
heap area, which is above `base` and behind everything that was granted. -/
structure Grows (base : Nat) (sbrk : List Extent → Int → Nat) : Prop where
  above : ∀ past increment, base + sizeofHeader ≤ sbrk past increment
  higher : ∀ past increment, ∀ r ∈ past, r.stop < sbrk past increment
  granted : ∀ past increment, sbrk past increment ≠ refused

theorem Grows.fresh {base : Nat} {sbrk : List Extent → Int → Nat} (hg : Grows base sbrk) :
    Fresh base sbrk where
  above past increment _ := hg.above past increment
  higher past increment _ := hg.higher past increment
  granted past increment _ := hg.granted past increment

/-- The requests for which neither `nunits` nor the byte count handed to `sbrk`
overflows. -/
def Fits (nbytes : Nat) : Prop :=
  (nbytes + sizeofHeader - 1) / sizeofHeader + 1 < 2 ^ 32 ∧
    max ((nbytes + sizeofHeader - 1) / sizeofHeader + 1) 1024 * sizeofHeader < 2 ^ 31

variable {base : Nat} {h : Heap} {ring live : List Nat} {nunits : Nat}

/-- A successor that is not the sentinel stands right behind its node. -/
theorem Layout.split_at (hl : Layout base h ring live) {prevp : Nat} (hprev : prevp ∈ ring)
    (hne : h.next prevp ≠ base) : ∃ A C, ring = A ++ prevp :: h.next prevp :: C := by
  obtain ⟨A, R, rfl⟩ := List.append_of_mem hprev
  obtain ⟨-, hend⟩ | ⟨C, rfl⟩ := hl.linked.next_cases
  · exact absurd hend hne
  · exact ⟨A, C, rfl⟩

/-- A block that fits exactly leaves the ring. -/
theorem unlink_layout {A C : List Nat} {prevp p : Nat}
    (hl : Layout base h (A ++ prevp :: p :: C) live) :
    Layout base (h.setPtr prevp (h.next p)) (A ++ prevp :: C) (p :: live) := by
  have hsorted := hl.sorted
  simp only [List.pairwise_append, List.pairwise_cons, List.mem_cons] at hsorted
  have hneA : ∀ a ∈ A, a ≠ prevp := fun a ha => Nat.ne_of_lt (hsorted.2.2 a ha prevp (.inl rfl))
  have hneC : ∀ c ∈ C, c ≠ prevp := fun c hc => Nat.ne_of_gt (hsorted.2.1.1 c (.inr hc))
  obtain ⟨hpathA, -, hpathC⟩ := path_cut.mp hl.linked
  refine ⟨?_, by simp, ?_, ?_, hl.above, hl.bounded⟩
  · refine path_cut.mpr ⟨?_, ?_⟩
    · exact hpathA.congr (fun a ha => by simp [Heap.next, hneA a ha])
    · rw [show (h.setPtr prevp (h.next p)).next prevp = h.next p by simp [Heap.next]]
      exact hpathC.congr (fun a ha => by simp [Heap.next, hneC a ha])
  · exact hl.sorted.sublist (by simp)
  · rw [map_block_congr (h := h) (fun a _ => by simp)]
    have hout : ((A ++ prevp :: p :: C) ++ live).Perm (p :: (A ++ prevp :: C ++ live)) := by
      simpa using @List.perm_middle _ p (A ++ [prevp]) (C ++ live)
    exact hl.tiled.perm ((hout.trans List.perm_middle.symm).map _)

/-- Cutting the request off the tail of a larger block leaves the ring alone. -/
theorem carve_layout {p : Nat} (hl : Layout base h ring live) (hp : p ∈ ring) (hpos : 0 < nunits)
    (hlt : nunits < (h.mem p).size) {a : Nat}
    (ha : a = p + sizeofHeader * ((h.mem p).size - nunits)) :
    Layout base ((h.setSize p ((h.mem p).size - nunits)).setSize a nunits) ring (a :: live) ∧
      a ∉ ring ++ live := by
  obtain ⟨A, C, rfl⟩ := List.append_of_mem hp
  have hfront : ((A ++ p :: C) ++ live).Perm (p :: (A ++ C ++ live)) := by
    simp
  have htiled : Tiled _ (h.block p :: (A ++ C ++ live).map h.block) :=
    hl.tiled.perm (hfront.map h.block)
  have hnot : ∀ x ∈ A ++ C ++ live, x ≠ p ∧ x ≠ a := by
    intro x hx
    have hapart := (List.pairwise_cons.mp htiled.apart).1 _ (List.mem_map_of_mem hx)
    simp only [Extent.Apart, Extent.stop, Heap.block, sizeofHeader] at hapart ha
    omega
  have hap : a ≠ p := by
    simp only [sizeofHeader] at ha
    omega
  have hsplit := htiled.split (n := sizeofHeader * ((h.mem p).size - nunits))
    (by simp only [sizeofHeader]; omega) (by simp only [sizeofHeader, Heap.block]; omega)
  refine ⟨⟨?_, hl.nonempty, hl.sorted, ?_, hl.above, hl.bounded⟩, ?_⟩
  · exact hl.linked.congr (fun x _ => by simp [Heap.next])
  · have hback : (p :: a :: (A ++ C ++ live)).Perm ((A ++ p :: C) ++ a :: live) := by
      refine (List.Perm.swap a p _).trans ?_
      refine (List.Perm.cons a hfront.symm).trans ?_
      exact List.perm_middle.symm
    have hhead : ((h.setSize p ((h.mem p).size - nunits)).setSize a nunits).block p =
        ⟨(h.block p).start, sizeofHeader * ((h.mem p).size - nunits)⟩ := by
      simp [Heap.block, hap.symm]
    have htail : ((h.setSize p ((h.mem p).size - nunits)).setSize a nunits).block a =
        ⟨(h.block p).start + sizeofHeader * ((h.mem p).size - nunits),
          (h.block p).len - sizeofHeader * ((h.mem p).size - nunits)⟩ := by
      simp only [Heap.block, Heap.setSize_size, if_true, Extent.mk.injEq, sizeofHeader] at ha ⊢
      omega
    have hrest : (A ++ C ++ live).map
        ((h.setSize p ((h.mem p).size - nunits)).setSize a nunits).block =
        (A ++ C ++ live).map h.block := map_block_congr (fun x hx => by simp [hnot x hx])
    refine Tiled.perm ?_ (hback.map _)
    rw [List.map_cons, List.map_cons, hhead, htail, hrest]
    exact hsplit
  · intro hmem
    obtain rfl | hx := List.mem_cons.mp (hfront.mem_iff.mp hmem)
    · exact hap rfl
    · exact (hnot a hx).2 rfl

/-- The rest of the block ends where the request begins, and there no free block
does. -/
theorem carve_coalesced {p : Nat} (prevp : Nat) (hc : Coalesced base h ring)
    (hlt : nunits < (h.mem p).size)
    (hnot : p + sizeofHeader * ((h.mem p).size - nunits) ∉ ring ++ live) :
    Coalesced base (take h nunits prevp p).2 ring := by
  have hnot : p + sizeofHeader * ((h.mem p).size - nunits) ∉ ring := by
    simp only [List.mem_append, not_or] at hnot
    exact hnot.1
  have hsize : ∀ a ∈ ring, ((take h nunits prevp p).2.mem a).size =
      if a = p then (h.mem p).size - nunits else (h.mem a).size := by
    intro a ha
    have hne : a ≠ p + sizeofHeader * ((h.mem p).size - nunits) := fun heq => hnot (heq ▸ ha)
    simp [take, if_neg (Nat.ne_of_gt hlt), hne]
  have hregions : (take h nunits prevp p).2.regions = h.regions := by
    simp [take, if_neg (Nat.ne_of_gt hlt)]
  refine ⟨by rw [hregions]; exact hc.filled, ?_, ?_⟩
  · intro a ha hz
    rw [hsize a ha] at hz
    split_ifs at hz with heq
    · omega
    · exact hc.sized a ha hz
  · intro b hb a ha hab
    by_cases heq : a = p
    · subst heq
      simp only [Heap.block, hsize a ha, if_true, Extent.stop]
      exact fun hstop => hnot (hstop ▸ hb)
    · simp only [Heap.block, hsize a ha, if_neg heq]
      exact hc.clear b hb a ha hab

/-- The block that `malloc` hands out, once the search has found one. -/
theorem take_layout (hl : Layout base h ring live) {prevp : Nat} (hprev : prevp ∈ ring)
    (hpos : 0 < nunits) (hsize : nunits ≤ (h.mem (h.next prevp)).size) :
    ∃ a h' ring', take h nunits prevp (h.next prevp) = (a + sizeofHeader, h') ∧
      Layout base h' ring' (a :: live) ∧ h'.freep ∈ ring' ∧ (h'.mem a).size = nunits ∧
      (Coalesced base h ring → Coalesced base h' ring') ∧ h'.regions = h.regions ∧
      ∀ x ∈ live, (h'.mem x).size = (h.mem x).size := by
  have hne : h.next prevp ≠ base := by
    intro heq
    rw [heq, hl.base_size] at hsize
    omega
  obtain ⟨A, C, hring⟩ := hl.split_at hprev hne
  have hp : h.next prevp ∈ ring := by simp [hring]
  by_cases hexact : (h.mem (h.next prevp)).size = nunits
  · refine ⟨h.next prevp, _, A ++ prevp :: C, by rw [take, if_pos hexact], ?_, by simp, ?_, ?_, ?_,
      ?_⟩
    · rw [hring] at hl
      exact (unlink_layout hl).rove prevp
    · simp [hexact]
    · refine fun hc => hc.congr (fun x hx => ?_) (fun x _ => by simp) (fun r hr => .inl hr)
      rw [hring]
      simp only [List.mem_append, List.mem_cons] at hx ⊢
      tauto
    · rfl
    · simp
  · have hlt : nunits < (h.mem (h.next prevp)).size := by omega
    obtain ⟨hl', hnot⟩ := carve_layout hl hp hpos hlt rfl
    refine ⟨_, _, ring, by rw [take, if_neg hexact], ?_, hprev, ?_, ?_, ?_, ?_⟩
    · simpa using hl'.rove prevp
    · simp
    · intro hc
      have hcarved := carve_coalesced prevp hc hlt hnot
      rwa [take, if_neg hexact] at hcarved
    · rfl
    · intro x hx
      have hxp : x ≠ h.next prevp := by
        rintro rfl
        exact (List.nodup_append.mp hl.nodup).2.2 _ hp _ hx rfl
      have hxa : x ≠ h.next prevp + sizeofHeader * ((h.mem (h.next prevp)).size - nunits) := by
        rintro rfl
        exact hnot (List.mem_append_right _ hx)
      simp [hxp, hxa]

theorem int_of_lt {n : Nat} (hn : n < 2 ^ 31) : int n = n :=
  Int.bmod_eq_of_le (by omega) (by omega)

/-- The units that `morecore` asks for. -/
theorem morecore_units (hsmall : max nunits 1024 * sizeofHeader < 2 ^ 31) :
    (if int nunits < NALLOC then NALLOC else int nunits) = (max nunits 1024 : Nat) := by
  have hnu : max nunits 1024 < 2 ^ 31 := by
    simp only [sizeofHeader] at hsmall
    omega
  have hnalloc : NALLOC = 1024 := rfl
  rw [int_of_lt (by omega)]
  by_cases hlt : (nunits : Int) < NALLOC
  · rw [if_pos hlt]
    omega
  · rw [if_neg hlt]
    omega

section Morecore

variable {sbrk : List Extent → Int → Nat}

/-- What lies above the regions lies above the blocks. -/
theorem Layout.stop_lt (hl : Layout base h ring live) {cp : Nat} (habove : base + sizeofHeader ≤ cp)
    (hhigher : ∀ r ∈ h.regions, r.stop < cp) {a : Nat} (ha : a ∈ ring ++ live) :
    (h.block a).stop < cp := by
  obtain ⟨r, hr, hin⟩ := hl.tiled.inside (h.block a) (List.mem_map_of_mem ha)
  have hstop : r.stop < cp := by
    obtain hr | hr := List.mem_append.mp hr
    · exact hhigher r hr
    · obtain rfl := List.mem_singleton.mp hr
      simp only [Extent.stop, sizeofHeader] at habove ⊢
      omega
  simp only [Extent.Within] at hin
  omega

/-- A region granted to the heap, before `free` puts it on the list. -/
theorem granted_layout (hf : Fresh base sbrk) (hl : Layout base h ring live) {nu : Nat}
    (hpos : 0 < nu) (hsmall : nu * sizeofHeader < 2 ^ 31) {cp : Nat}
    (hcp : cp = sbrk h.regions ((nu * sizeofHeader : Nat) : Int)) :
    Layout base (Heap.setSize { h with regions := ⟨cp, nu * sizeofHeader⟩ :: h.regions } cp nu)
      ring (cp :: live) ∧ ∀ a ∈ ring ++ live, (h.block a).stop < cp := by
  have hinc : (0 : Int) < ((nu * sizeofHeader : Nat) : Int) := by
    simp only [sizeofHeader]
    omega
  have habove := hf.above h.regions _ hinc
  rw [← hcp] at habove
  have harena : ∀ r ∈ h.regions ++ [⟨base, 0⟩], r.stop < cp := by
    intro r hr
    obtain hr | hr := List.mem_append.mp hr
    · rw [hcp]
      exact hf.higher h.regions _ hinc r hr
    · obtain rfl := List.mem_singleton.mp hr
      simp only [Extent.stop, sizeofHeader] at habove ⊢
      omega
  have hbelow : ∀ a ∈ ring ++ live, (h.block a).stop < cp :=
    fun a ha => hl.stop_lt habove (fun r hr => harena r (List.mem_append_left _ hr)) ha
  refine ⟨⟨?_, hl.nonempty, hl.sorted, ?_, ?_, ?_⟩, hbelow⟩
  · exact hl.linked.congr (fun a _ => by simp [Heap.next])
  · refine Tiled.perm ?_ (List.perm_middle.symm.map _)
    have hgrow := hl.tiled.grow (r := ⟨cp, nu * sizeofHeader⟩) harena
    have hsame : ∀ a ∈ ring ++ live, ((Heap.setSize { h with regions :=
        ⟨cp, nu * sizeofHeader⟩ :: h.regions } cp nu).mem a).size = (h.mem a).size := by
      intro a ha
      have hne : a ≠ cp := by
        have := hbelow a ha
        simp only [Extent.stop, Heap.block_start] at this
        omega
      simp [hne]
    rw [List.map_cons, map_block_congr hsame]
    simpa [Heap.block, Nat.mul_comm] using hgrow
  · intro r hr
    obtain rfl | hr := List.mem_cons.mp hr
    · exact habove
    · exact hl.above r hr
  · intro r hr
    obtain rfl | hr := List.mem_cons.mp hr
    · exact ⟨hsmall, Nat.dvd_mul_left _ _⟩
    · exact hl.bounded r hr

/-- A region that lies above every block goes to the end of the ring, and the
node in front of it is the one that `morecore` returns. -/
theorem morecore_runs {x inc : Int} {nu cp : Nat} (hl : Layout base h ring live)
    (hfreep : h.freep ∈ ring) (hnu : (if x < NALLOC then NALLOC else x) = nu)
    (hsmall : nu < 2 ^ 32) (hinc : int (nu * sizeofHeader) = inc)
    (hcp : cp = sbrk h.regions inc) (hgranted : cp ≠ refused)
    (hbelow : ∀ a ∈ ring ++ live, (h.block a).stop < cp) :
    ∃ A q h1, ring = A ++ [q] ∧
      h1 = Heap.setSize { h with regions := ⟨cp, inc.toNat⟩ :: h.regions } cp nu ∧
      (∃ N, ∀ fuel ≥ N, morecore sbrk fuel h x = some (q, freed h1 cp q)) ∧
      (freed h1 cp q).next q = cp ∧ ((freed h1 cp q).mem cp).size = nu := by
  set h1 := Heap.setSize { h with regions := ⟨cp, inc.toNat⟩ :: h.regions } cp nu with hh1
  have hlt : ∀ a ∈ ring ++ live, a < cp := by
    intro a ha
    have := hbelow a ha
    simp only [Extent.stop, Heap.block_start] at this
    omega
  have hnext1 : ∀ a, h1.next a = h.next a := fun a => by simp [hh1, Heap.next]
  obtain ⟨A, q, rfl⟩ : ∃ A q, ring = A ++ [q] :=
    ⟨_, _, (List.dropLast_concat_getLast hl.nonempty).symm⟩
  have hA : ∀ a ∈ A, a < cp := fun a ha => hlt a (by simp [ha])
  have hq : q < cp := hlt q (by simp)
  have hbase : base < cp := hlt base (List.mem_append_left _ hl.base_mem)
  have hlinked : Path h1.next base (A ++ [q]) base := hl.linked.congr (fun a _ => hnext1 a)
  obtain ⟨N, hN⟩ := seek_finds hlinked hl.sorted
    (fun a ha => hl.base_le (List.mem_append_left _ ha)) hA hq (by simp) hbase hfreep
  have hqnext : h1.next q = base := (path_cut.mp hlinked).2
  have hupper : ¬ cp + sizeofHeader * (h1.mem cp).size = h1.next q := by omega
  have hlower : ¬ q + sizeofHeader * ((joinUpper h1 cp q).mem q).size = cp := by
    have hstop := hbelow q (by simp)
    have hsize : (h1.mem q).size = (h.mem q).size := by simp [hh1, Nat.ne_of_lt hq]
    rw [joinUpper_size_link hupper, hsize]
    simp only [Extent.stop, Heap.block] at hstop
    omega
  refine ⟨A, q, h1, rfl, rfl, ⟨N, fun fuel hfuel => ?_⟩, ?_, ?_⟩
  · have hback : unsigned (nu : Int) = nu := by
      simp only [unsigned]
      omega
    have hrun : free fuel h1 (cp + sizeofHeader) = some (freed h1 cp q) := by
      have hseek : seek h1.mem cp fuel h1.freep = some q := hN fuel hfuel
      simp [free, freed, hseek]
    simp only [morecore, hnu, hinc, hback]
    rw [← hcp, if_neg hgranted]
    change (do let h' ← free fuel h1 (cp + sizeofHeader); some (h'.freep, h')) = _
    rw [hrun]
    rfl
  · have hlink := joinLower_next_link hlower q
    rwa [if_pos rfl] at hlink
  · have hlink := joinLower_size_link hlower cp
    rw [joinUpper_size_link hupper] at hlink
    exact hlink.trans (by simp [hh1])

/-- A region of an ordinary size, whatever the request that it is asked for. -/
theorem morecore_grants {x : Int} {nu : Nat} (hf : Fresh base sbrk) (hl : Layout base h ring live)
    (hfreep : h.freep ∈ ring) (hnu : (if x < NALLOC then NALLOC else x) = nu) (hpos : 0 < nu)
    (hsmall : nu * sizeofHeader < 2 ^ 31) :
    ∃ h' ring', (∃ N, ∀ fuel ≥ N, morecore sbrk fuel h x = some (h'.freep, h')) ∧
      Layout base h' ring' live ∧ h'.freep ∈ ring' ∧ (h'.mem (h'.next h'.freep)).size = nu ∧
      (Coalesced base h ring → Coalesced base h' ring') ∧
      ∀ a ∈ live, (h'.mem a).size = (h.mem a).size := by
  have hinc : int ((nu : Nat) * sizeofHeader) = (nu * sizeofHeader : Nat) := int_of_lt hsmall
  obtain ⟨hl1, hbelow⟩ := granted_layout hf hl hpos hsmall rfl
  have hgranted := hf.granted h.regions (nu * sizeofHeader : Nat) (by
    simp only [sizeofHeader]
    omega)
  obtain ⟨A, q, h1, rfl, hh1, ⟨N, hN⟩, hnext, hsize⟩ := morecore_runs hl hfreep hnu (by
    simp only [sizeofHeader] at hsmall
    omega) hinc rfl hgranted hbelow
  rw [Int.toNat_natCast] at hh1
  rw [← hh1] at hl1
  generalize sbrk h.regions ((nu * sizeofHeader : Nat) : Int) = cp at *
  have hlt : ∀ a ∈ (A ++ [q]) ++ live, a < cp ∧ (h1.mem a).size = (h.mem a).size := by
    intro a ha
    have hstop := hbelow a ha
    simp only [Extent.stop, Heap.block_start] at hstop
    have hacp : a < cp := by omega
    exact ⟨hacp, by simp [hh1, Nat.ne_of_lt hacp]⟩
  obtain ⟨⟨ring', hl', hmem, hcoal⟩, hsizes⟩ := freed_layout hl1
    (fun a ha => (hlt a (by simp [ha])).1) (hlt q (by simp)).1 (by simp)
  refine ⟨freed h1 cp q, ring', ⟨N, hN⟩, hl', hmem, ?_, fun hc => ?_, ?_⟩
  · rw [show (freed h1 cp q).freep = q from rfl, hnext, hsize]
  · refine hcoal (by simp [hh1]; omega) (hc.congr (fun a ha => ha) (fun a ha => ?_) ?_)
    · exact (hlt a (List.mem_append_left _ ha)).2
    · intro r hr
      rw [hh1] at hr
      obtain rfl | hr := List.mem_cons.mp hr
      · right
        simp only [sizeofHeader]
        omega
      · exact .inl hr
  · intro a ha
    rw [hsizes a ha, (hlt a (by simp [ha])).2]

/-- `morecore` returns, and the node it returns is followed by a block that is
large enough. -/
theorem morecore_layout (hf : Fresh base sbrk) (hl : Layout base h ring live)
    (hfreep : h.freep ∈ ring) (hsmall : max nunits 1024 * sizeofHeader < 2 ^ 31) :
    ∃ h' ring', (∃ N, ∀ fuel ≥ N, morecore sbrk fuel h (int nunits) = some (h'.freep, h')) ∧
      Layout base h' ring' live ∧ h'.freep ∈ ring' ∧
      nunits ≤ (h'.mem (h'.next h'.freep)).size ∧
      (Coalesced base h ring → Coalesced base h' ring') ∧
      ∀ a ∈ live, (h'.mem a).size = (h.mem a).size := by
  obtain ⟨h', ring', hrun, hl', hmem, hsize, hcoal, hsame⟩ :=
    morecore_grants hf hl hfreep (morecore_units hsmall) (by omega) hsmall
  exact ⟨h', ring', hrun, hl', hmem, by omega, hcoal, hsame⟩

/-- The search goes along nodes whose blocks are too small, as long as it does
not come back to the roving pointer. -/
theorem search_pass (sbrk : List Extent → Int → Nat) {prevp f : Nat} {l : List Nat}
    (hpath : Path h.next (h.next prevp) l f) (hf : h.freep ∉ l)
    (hsmall : ∀ a ∈ l, (h.mem a).size < nunits) :
    ∃ prev, (prev = prevp ∨ prev ∈ l) ∧ h.next prev = f ∧
      ∀ fuel, search sbrk nunits (l.length + fuel) h prevp (h.next prevp) =
        search sbrk nunits fuel h prev f := by
  induction l generalizing prevp with
  | nil => exact ⟨prevp, .inl rfl, hpath, fun fuel => by simp [path_nil.mp hpath]⟩
  | cons a l ih =>
      obtain ⟨ha, htail⟩ := hpath
      obtain ⟨prev, hprev, hnext, hrun⟩ := ih htail (fun h => hf (by simp [h]))
        (fun b hb => hsmall b (by simp [hb]))
      refine ⟨prev, ?_, hnext, fun fuel => ?_⟩
      · obtain rfl | hin := hprev
        · exact .inr (by simp)
        · exact .inr (by simp [hin])
      · have hgo : ¬ (h.mem a).size ≥ nunits := Nat.not_le.mpr (hsmall a (by simp))
        have hne : a ≠ h.freep := fun heq => hf (by simp [heq])
        rw [show (a :: l).length + fuel = (l.length + fuel) + 1 by simp; omega, ha]
        conv_lhs => unfold search
        rw [if_neg hgo, if_neg hne]
        exact hrun fuel

/-- The first block of a list of nodes that is large enough. -/
theorem first_fit (h : Heap) (nunits : Nat) (l : List Nat) :
    (∀ a ∈ l, (h.mem a).size < nunits) ∨
      ∃ L a R, l = L ++ a :: R ∧ (∀ b ∈ L, (h.mem b).size < nunits) ∧
        nunits ≤ (h.mem a).size := by
  induction l with
  | nil => exact .inl (by simp)
  | cons a l ih =>
      by_cases hfit : nunits ≤ (h.mem a).size
      · exact .inr ⟨[], a, l, rfl, by simp, hfit⟩
      · obtain hall | ⟨L, b, R, rfl, hL, hb⟩ := ih
        · exact .inl (by simpa [Nat.not_le.mp hfit] using hall)
        · exact .inr ⟨a :: L, b, R, rfl, by simpa [Nat.not_le.mp hfit] using hL, hb⟩

/-- Once around the ring, from behind the roving pointer and back to it. -/
theorem Layout.round (hl : Layout base h ring live) (hfreep : h.freep ∈ ring) :
    ∃ l, Path h.next (h.next h.freep) (l ++ [h.freep]) (h.next h.freep) ∧
      (l ++ [h.freep]).Perm ring := by
  obtain ⟨A, C, hring⟩ := List.append_of_mem hfreep
  refine ⟨C ++ A, ?_, ?_⟩
  · have hlinked := hl.linked
    rw [hring] at hlinked
    obtain ⟨hpathA, hpathC⟩ := path_cut.mp hlinked
    exact path_append.mpr ⟨h.freep, path_append.mpr ⟨base, hpathC, hpathA⟩, rfl, rfl⟩
  · have hswap : (C ++ A).Perm (A ++ C) := List.perm_append_comm
    have hlast : (C ++ A ++ [h.freep]).Perm (h.freep :: (C ++ A)) := List.perm_append_comm
    rw [hring]
    exact (hlast.trans (hswap.cons _)).trans List.perm_middle.symm

/-- The search asks for a new region when no block is large enough. -/
theorem search_exhausts (sbrk : List Extent → Int → Nat) (hl : Layout base h ring live)
    (hfreep : h.freep ∈ ring) (hsmall : ∀ a ∈ ring, (h.mem a).size < nunits) :
    ∃ n, ∀ fuel, search sbrk nunits (n + (fuel + 1)) h h.freep (h.next h.freep) =
      (morecore sbrk fuel h (int nunits)).bind fun r =>
        if r.1 = NULL then some (NULL, r.2)
        else search sbrk nunits fuel r.2 r.1 (r.2.mem r.1).ptr := by
  obtain ⟨l, hround, hperm⟩ := hl.round hfreep
  obtain ⟨hpath, -⟩ := path_cut.mp hround
  have hnodup : (l ++ [h.freep]).Nodup :=
    hperm.nodup_iff.mpr (List.nodup_append.mp hl.nodup).1
  have hnotin : h.freep ∉ l := fun hmem => (List.nodup_append.mp hnodup).2.2 _ hmem _ (by simp) rfl
  obtain ⟨prev, -, -, hrun⟩ := search_pass sbrk hpath hnotin
    (fun a ha => hsmall a (hperm.mem_iff.mp (List.mem_append_left _ ha)))
  refine ⟨l.length, fun fuel => ?_⟩
  have hshort : ¬ (h.mem h.freep).size ≥ nunits := Nat.not_le.mpr (hsmall _ hfreep)
  rw [hrun]
  conv_lhs => unfold search
  rw [if_neg hshort, if_pos rfl]
  rfl

/-- The search of `malloc` returns a block cut from the ring: one that was large
enough, or the region that `morecore` has put there. -/
theorem search_layout (hbase : 0 < base) (hf : Fresh base sbrk) (hl : Layout base h ring live)
    (hfreep : h.freep ∈ ring) (hpos : 0 < nunits)
    (hsmall : max nunits 1024 * sizeofHeader < 2 ^ 31) :
    ∃ a h' ring', (∃ N, ∀ fuel ≥ N,
        search sbrk nunits fuel h h.freep (h.next h.freep) = some (a + sizeofHeader, h')) ∧
      Layout base h' ring' (a :: live) ∧ h'.freep ∈ ring' ∧ (h'.mem a).size = nunits ∧
      (Coalesced base h ring → Coalesced base h' ring') ∧
      ∀ x ∈ live, (h'.mem x).size = (h.mem x).size := by
  obtain ⟨l, hround, hperm⟩ := hl.round hfreep
  obtain hnone | ⟨L, a, R, hlist, hL, hfit⟩ := first_fit h nunits (l ++ [h.freep])
  · -- every block is too small: the loop comes to the roving pointer
    obtain ⟨n, hrun⟩ := search_exhausts sbrk hl hfreep fun a ha => hnone a (hperm.mem_iff.mpr ha)
    obtain ⟨h1, ring1, ⟨N, hN⟩, hl1, hfreep1, hfit1, hcoal1, hsame1⟩ :=
      morecore_layout hf hl hfreep hsmall
    obtain ⟨a, h2, ring2, htake, hl2, hfreep2, hsize2, hcoal2, -, hsame2⟩ :=
      take_layout hl1 hfreep1 hpos hfit1
    refine ⟨a, h2, ring2, ⟨n + (N + 2), fun fuel hfuel => ?_⟩, hl2, hfreep2, hsize2,
      fun hc => hcoal2 (hcoal1 hc), fun x hx => (hsame2 x hx).trans (hsame1 x hx)⟩
    obtain ⟨k, rfl⟩ := Nat.exists_eq_add_of_le hfuel
    have hnull : h1.freep ≠ NULL := by
      have := hl1.base_le (List.mem_append_left _ hfreep1)
      simp only [NULL]
      omega
    rw [show n + (N + 2) + k = n + ((N + k + 1) + 1) by omega, hrun, hN _ (by omega),
      Option.bind_some, if_neg hnull]
    conv_lhs => unfold search
    exact (if_pos hfit1).trans (congrArg some htake)
  · obtain ⟨hpath, -⟩ : Path h.next (h.next h.freep) L a ∧ _ := path_cut.mp (hlist ▸ hround)
    have hnotinL : h.freep ∉ L := by
      intro hmem
      -- the roving pointer is the last node of the round, and occurs once
      have hlast : (L ++ a :: R).getLast? = some h.freep := by
        rw [← hlist]
        simp
      have hend : h.freep ∈ a :: R := by
        rw [List.getLast?_append_of_ne_nil _ (by simp)] at hlast
        exact List.mem_of_getLast? hlast
      have hnodup : (L ++ a :: R).Nodup := by
        rw [← hlist]
        exact hperm.nodup_iff.mpr (List.nodup_append.mp hl.nodup).1
      exact (List.nodup_append.mp hnodup).2.2 _ hmem _ hend rfl
    obtain ⟨prev, hprev, hnext, hrun⟩ := search_pass sbrk hpath hnotinL hL
    have hprev : prev ∈ ring := by
      obtain rfl | hin := hprev
      · exact hfreep
      · exact hperm.mem_iff.mp (by rw [hlist]; exact List.mem_append_left _ hin)
    subst hnext
    obtain ⟨a, h', ring', htake, hl', hfreep', hsize', hcoal', -, hsame'⟩ :=
      take_layout hl hprev hpos hfit
    refine ⟨a, h', ring', ⟨L.length + 1, fun fuel hfuel => ?_⟩, hl', hfreep', hsize', hcoal',
      hsame'⟩
    obtain ⟨k, rfl⟩ := Nat.exists_eq_add_of_le hfuel
    rw [Nat.add_assoc, hrun, Nat.add_comm 1]
    conv_lhs => unfold search
    rw [if_pos hfit]
    exact congrArg some htake

end Morecore

theorem unitsFor_eq {nbytes : Nat} (hfits : Fits nbytes) :
    unitsFor nbytes = (nbytes + sizeofHeader - 1) / sizeofHeader + 1 := by
  obtain ⟨hunits, -⟩ := hfits
  simp only [unitsFor, unsigned, sizeofHeader] at *
  omega

theorem initBase_eq (hbase : 0 < base) (hl : Layout base h ring live) (hfreep : h.freep ∈ ring) :
    initBase base h = h := by
  have hle := hl.base_le (List.mem_append_left _ hfreep)
  refine if_neg ?_
  simp only [NULL]
  omega

/-- The ring that the first call starts from. -/
theorem initBase_layout {mem : Nat → Header} :
    Layout base (initBase base ⟨mem, NULL, []⟩) [base] [] := by
  refine ⟨by simp [initBase, Heap.next], by simp, by simp, ?_, ?_, ?_⟩
  · have hblock : (initBase base ⟨mem, NULL, []⟩).block base = ⟨base, 0⟩ := by
      simp [initBase, Heap.block]
    have hregions : (initBase base ⟨mem, NULL, []⟩).regions = [] := by simp [initBase]
    simp only [hregions, hblock, List.append_nil, List.nil_append, List.map_cons, List.map_nil]
    exact ⟨by simp, by simp [Extent.Within], by simp, rfl⟩
  · simp [initBase]
  · simp [initBase]

/-- `malloc` returns a block with room for the request, which was free before. -/
theorem malloc_layout {sbrk : List Extent → Int → Nat} (hbase : 0 < base) (hf : Fresh base sbrk)
    (hl : Layout base (initBase base h) ring live) (hfreep : (initBase base h).freep ∈ ring)
    {nbytes : Nat} (hfits : Fits nbytes) :
    ∃ a h' ring', (∃ N, ∀ fuel ≥ N, malloc sbrk base fuel h nbytes = some (a + sizeofHeader, h')) ∧
      Layout base h' ring' (a :: live) ∧ h'.freep ∈ ring' ∧
      a + sizeofHeader + nbytes ≤ (h'.block a).stop ∧
      (Coalesced base (initBase base h) ring → Coalesced base h' ring') ∧
      ∀ x ∈ live, (h'.mem x).size = ((initBase base h).mem x).size := by
  have hunits := unitsFor_eq hfits
  have hpos : 0 < unitsFor nbytes := by
    rw [hunits]
    exact Nat.succ_pos _
  have hsmall : max (unitsFor nbytes) 1024 * sizeofHeader < 2 ^ 31 := by
    rw [hunits]
    exact hfits.2
  obtain ⟨a, h', ring', hrun, hl', hfreep', hsize, hcoal, hsame⟩ :=
    search_layout hbase hf hl hfreep hpos hsmall
  refine ⟨a, h', ring', hrun, hl', hfreep', ?_, hcoal, hsame⟩
  simp only [Extent.stop, Heap.block, hsize, hunits, sizeofHeader]
  omega

end X86Kernel.Libc
