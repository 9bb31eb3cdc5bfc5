import X86Kernel.Libc.Canonical

/-!
Requests of any size. `malloc` computes the units in 64 bits and keeps 32 of
them, and the bytes that it asks `sbrk` for are an `int`; up to `2 ^ 31 - 32`
bytes nothing is lost. From there on a request comes back with a block that is
too small or not mapped, or does not come back.
-/

namespace X86Kernel.Libc

open Lib

/-- The bytes that are mapped for the regions: one page more than an increment
fills. (For a negative increment this is more than the kernel maps.) -/
def Heap.Mapped (h : Heap) (x : Nat) : Prop :=
  ∃ r ∈ h.regions, r.start ≤ x ∧ x < r.start + 4096 * (r.len / 4096 + 1)

/-- At `ap` there are `nbytes` bytes of a block of their own. -/
structure Room (base : Nat) (s : Client) (h : Heap) (ap nbytes : Nat) : Prop where
  inside : sizeofHeader ≤ ap ∧ ap + nbytes ≤ (h.block (ap - sizeofHeader)).stop
  mapped : ∀ x, ap ≤ x → x < ap + nbytes → h.Mapped x
  own : ∀ x, ap ≤ x → x < ap + nbytes →
    (∀ e, h.IsFree base e → ¬ e.Has x) ∧ ∀ a ∈ s.headers, ¬ (h.block a).Has x

/-- `malloc` returns, and what it returns is `NULL` or has room for the request. -/
def Serves (sbrk : List Extent → Int → Nat) (base : Nat) (s : Client) (nbytes : Nat) : Prop :=
  ∃ N ap h', (∀ fuel ≥ N, malloc sbrk base fuel s.heap nbytes = some (ap, h')) ∧
    (ap = NULL ∨ Room base s h' ap nbytes)

variable {sbrk : List Extent → Int → Nat} {base : Nat} {s : Client} {h : Heap}
  {ring live : List Nat} {nunits : Nat}

theorem fits_iff {nbytes : Nat} : Fits nbytes ↔ nbytes ≤ 2 ^ 31 - 32 := by
  simp only [Fits, sizeofHeader]
  omega

/-- The heap that the search starts on. -/
theorem History.layout (hbase : 0 < base) (hf : Fresh base sbrk) (hs : History sbrk base s) :
    ∃ ring, Layout base (initBase base s.heap) ring s.headers ∧
      (initBase base s.heap).freep ∈ ring := by
  obtain ⟨mem, rfl⟩ | ⟨ring, hk, -⟩ := hs.kept hbase hf
  · exact ⟨[base], initBase_layout, by simp [initBase]⟩
  · rw [initBase_eq hbase hk.layout hk.roving]
    exact ⟨ring, hk.layout, hk.roving⟩

/-- No block of a layout has `2 ^ 27` units. -/
theorem Layout.size_lt (hl : Layout base h ring live) {a : Nat} (ha : a ∈ ring) :
    (h.mem a).size < 2 ^ 27 :=
  size_lt_of_tiled hl.tiled hl.bounded (List.mem_append_left _ ha)

section Search

/-- A request for no units is met by the block behind the roving pointer, with an
empty block at its end. -/
theorem take_zero (h : Heap) (prevp p : Nat) :
    ∃ a h', take h 0 prevp p = (a + sizeofHeader, h') ∧ (h'.mem a).size = 0 := by
  by_cases hz : (h.mem p).size = 0
  · exact ⟨p, _, by rw [take, if_pos hz], by simp [hz]⟩
  · exact ⟨_, _, by rw [take, if_neg hz], by simp⟩

/-- From `2 ^ 31` units on `morecore` takes the request for a negative one, and
asks for an ordinary region again and again. -/
theorem search_never (hbase : 0 < base) (hf : Fresh base sbrk) (hbig : 2 ^ 31 ≤ nunits)
    (hunits : nunits < 2 ^ 32) (fuel : Nat) {prevp : Nat} (hl : Layout base h ring live)
    (hfreep : h.freep ∈ ring) (hprev : prevp ∈ ring) :
    search sbrk nunits fuel h prevp (h.next prevp) = none := by
  induction fuel generalizing h ring prevp with
  | zero => rfl
  | succ fuel ih =>
      have hshort : ¬ (h.mem (h.next prevp)).size ≥ nunits := by
        have := hl.size_lt (hl.next_mem hprev)
        omega
      unfold search
      rw [if_neg hshort]
      by_cases hback : h.next prevp = h.freep
      · have hnu : (if int nunits < NALLOC then NALLOC else int nunits) = (1024 : Nat) := by
          have hneg : int nunits < NALLOC := by
            simp only [int, NALLOC, Int.bmod]
            omega
          rw [if_pos hneg]
          rfl
        obtain ⟨h', ring', ⟨N, hN⟩, hl', hfreep', -⟩ :=
          morecore_grants hf hl hfreep hnu (by omega) (by simp [sizeofHeader])
        rw [if_pos hback]
        cases hmore : morecore sbrk fuel h (int nunits) with
        | none => rfl
        | some r =>
            have hsame := morecore_mono (k := N) hmore
            rw [hN (fuel + N) (by omega)] at hsame
            obtain rfl := Option.some.inj hsame
            have hnull : h'.freep ≠ NULL := by
              have := hl'.base_le (List.mem_append_left _ hfreep')
              simp only [NULL]
              omega
            simp only [Option.bind_eq_bind, Option.bind_some]
            rw [if_neg hnull]
            exact ih hl' hfreep' hfreep'
      · rw [if_neg hback]
        exact ih hl hfreep (hl.next_mem hprev)

/-- Between `2 ^ 27` and `2 ^ 31` units the request goes to `sbrk` as it is, and
the bytes overflow. -/
theorem search_oversize (hbase : 0 < base) (hg : Grows base sbrk) (hl : Layout base h ring live)
    (hfreep : h.freep ∈ ring) (hbig : 2 ^ 27 ≤ nunits) (hunits : nunits < 2 ^ 31) :
    ∃ N cp h', (∀ fuel ≥ N,
        search sbrk nunits fuel h h.freep (h.next h.freep) = some (cp + sizeofHeader, h')) ∧
      h'.regions = ⟨cp, (int (nunits * sizeofHeader)).toNat⟩ :: h.regions ∧
      ∀ r ∈ h.regions, r.stop < cp := by
  have hhigher := hg.higher h.regions (int (nunits * sizeofHeader))
  have habove := hg.above h.regions (int (nunits * sizeofHeader))
  have hgranted := hg.granted h.regions (int (nunits * sizeofHeader))
  have hnu : (if int nunits < NALLOC then NALLOC else int nunits) = nunits := by
    rw [int_of_lt hunits, if_neg (by simp only [NALLOC]; omega)]
  obtain ⟨A, q, h1, hring, hh1, ⟨N, hN⟩, hnext, hsize⟩ := morecore_runs hl hfreep hnu (by omega) rfl
    rfl hgranted fun a ha => hl.stop_lt habove hhigher ha
  have hsmall : ∀ a ∈ ring, (h.mem a).size < nunits := fun a ha => by
    have := hl.size_lt ha
    omega
  obtain ⟨n, hrun⟩ := search_exhausts sbrk hl hfreep hsmall
  generalize sbrk h.regions (int (nunits * sizeofHeader)) = cp at *
  have hnull : q ≠ NULL := by
    have := hl.base_le (List.mem_append_left live (show q ∈ ring by simp [hring]))
    simp only [NULL]
    omega
  refine ⟨n + (N + 2), cp, (take (freed h1 cp q) nunits q cp).2, fun fuel hfuel => ?_, ?_, hhigher⟩
  · obtain ⟨k, rfl⟩ := Nat.exists_eq_add_of_le hfuel
    have hptr : ((freed h1 cp q).mem q).ptr = cp := hnext
    rw [show n + (N + 2) + k = n + ((N + k + 1) + 1) by omega, hrun, hN _ (by omega),
      Option.bind_some, if_neg hnull, hptr]
    unfold search
    rw [if_pos (Nat.le_of_eq hsize.symm), take, if_pos hsize]
  · rw [take, if_pos hsize]
    simp [freed, hh1]

end Search

/-- A request that is too large is not met. -/
theorem not_serves (hbase : 0 < base) (hg : Grows base sbrk) (hs : History sbrk base s)
    {nbytes : Nat} (hbig : 2 ^ 31 - 32 < nbytes) (hmax : nbytes < 2 ^ 64) :
    ¬ Serves sbrk base s nbytes := by
  rintro ⟨N, ap, h', hN, hap⟩
  obtain ⟨ring, hl, hfreep⟩ := hs.layout hbase hg.fresh
  -- whatever the call returns it returns with any other fuel that is enough
  have hresult : ∀ N' ap' h'', (∀ fuel ≥ N', search sbrk (unitsFor nbytes) fuel
      (initBase base s.heap) (initBase base s.heap).freep
      ((initBase base s.heap).next (initBase base s.heap).freep) = some (ap', h'')) →
      ap' = ap ∧ h'' = h' := by
    intro N' ap' h'' hN'
    have hsame := (hN' (max N N') (by omega)).symm.trans (hN (max N N') (by omega))
    simpa using hsame
  have hunits : unitsFor nbytes < 2 ^ 32 := by
    simp only [unitsFor, unsigned]
    omega
  have hroom : ∀ {a : Nat}, ap = a + sizeofHeader → Room base s h' ap nbytes := by
    rintro a rfl
    exact hap.resolve_left (by simp [sizeofHeader, NULL])
  have hshort : ∀ {a : Nat}, ap = a + sizeofHeader → (h'.mem a).size < 2 ^ 27 → False := by
    rintro a rfl hsize
    have hin := (hroom rfl).inside.2
    simp only [Extent.stop, Heap.block, Nat.add_sub_cancel, sizeofHeader] at hin
    omega
  by_cases hnever : 2 ^ 31 ≤ unitsFor nbytes
  · have hnone := search_never hbase hg.fresh hnever hunits N hl hfreep hfreep
    have hsome := hN N (Nat.le_refl _)
    exact absurd (hnone.symm.trans hsome) (by simp)
  by_cases hover : 2 ^ 27 ≤ unitsFor nbytes
  · obtain ⟨N', cp, h'', hN', hregions, hhigher⟩ :=
      search_oversize hbase hg hl hfreep hover (by omega)
    obtain ⟨rfl, rfl⟩ := hresult _ _ _ hN'
    -- the last byte is beyond what `sbrk` was asked for
    obtain ⟨r, hr, -, hx⟩ := (hroom rfl).mapped (cp + sizeofHeader + nbytes - 1) (by omega)
      (by omega)
    rw [hregions] at hr
    obtain rfl | hr := List.mem_cons.mp hr
    · have hlow : 16 * unitsFor nbytes ≤ nbytes + 31 := by
        simp only [unitsFor, unsigned, sizeofHeader]
        omega
      simp only [int, Int.bmod, sizeofHeader] at hx
      omega
    · have hlt := hhigher r hr
      simp only [Extent.stop, sizeofHeader] at hlt hx
      omega
  by_cases hzero : unitsFor nbytes = 0
  · obtain ⟨a, h'', htake, hsize⟩ := take_zero (initBase base s.heap) (initBase base s.heap).freep
      ((initBase base s.heap).next (initBase base s.heap).freep)
    obtain ⟨heq, rfl⟩ := hresult 1 (a + sizeofHeader) h'' (by
      intro fuel hfuel
      obtain ⟨k, rfl⟩ := Nat.exists_eq_add_of_le hfuel
      rw [Nat.add_comm, hzero]
      unfold search
      rw [if_pos (Nat.zero_le _), htake])
    exact hshort heq.symm (by omega)
  · obtain ⟨a, h'', ring', ⟨N', hN'⟩, -, -, hsize, -⟩ := search_layout hbase hg.fresh hl hfreep
      (Nat.pos_of_ne_zero hzero) (by simp only [sizeofHeader]; omega)
    obtain ⟨heq, rfl⟩ := hresult _ _ _ hN'
    exact hshort heq.symm (by omega)

/-- The bytes of a block in use are mapped, and no other block has any of them. -/
theorem Layout.room {a nbytes : Nat} (hl : Layout base h ring (a :: s.headers))
    (hroving : h.freep ∈ ring) (hroom : a + sizeofHeader + nbytes ≤ (h.block a).stop) :
    Room base s h (a + sizeofHeader) nbytes := by
  have hown : ∀ x, a + sizeofHeader ≤ x → x < a + sizeofHeader + nbytes →
      ∀ b ∈ ring ++ a :: s.headers, b ≠ a → ¬ (h.block b).Has x := by
    intro x hlow hhigh b hb hne hx
    have hapart := (List.pairwise_map.mp hl.tiled.apart).forall hb (by simp) hne
    simp only [Extent.Apart, Extent.Has, Heap.block_start] at hapart hx
    omega
  have hne : ∀ b ∈ ring ++ s.headers, b ≠ a := by
    rintro b hb rfl
    have hnodup := List.nodup_middle.mp hl.nodup
    exact (List.nodup_cons.mp hnodup).1 hb
  refine ⟨⟨Nat.le_add_left _ _, by simpa using hroom⟩, fun x hlow hhigh => ?_, fun x hlow hhigh =>
    ⟨?_, fun b hb => ?_⟩⟩
  · obtain ⟨nodes, rfl⟩ := hl.ring_eq
    obtain ⟨r, hr, hin⟩ := hl.behind_tiled.inside (h.block a) (List.mem_map_of_mem (by simp))
    refine ⟨r, hr, ?_, ?_⟩ <;> simp only [Extent.Within, Extent.stop, Heap.block_start] at hin hroom
    · omega
    · have := Nat.div_add_mod r.len 4096
      have := Nat.mod_lt r.len (show 0 < 4096 by decide)
      omega
  · rintro e ⟨-, b, -, hmet, rfl⟩
    have hb := (hl.met_iff hroving).mp hmet
    exact hown x hlow hhigh b (by simp [hb]) (hne b (by simp [hb]))
  · exact hown x hlow hhigh b (by simp [hb]) (hne b (by simp [hb]))

/-- A request that fits is met with a block of its own. -/
theorem serves_of_fits (hbase : 0 < base) (hg : Grows base sbrk) (hs : History sbrk base s)
    {nbytes : Nat} (hfits : Fits nbytes) : Serves sbrk base s nbytes := by
  obtain ⟨ring, hl, hfreep⟩ := hs.layout hbase hg.fresh
  obtain ⟨a, h', ring', ⟨N, hN⟩, hl', hfreep', hroom, -⟩ :=
    malloc_layout hbase hg.fresh hl hfreep hfits
  exact ⟨N, a + sizeofHeader, h', hN, .inr (hl'.room hfreep' hroom)⟩

/-- In every state that requests up to `2 ^ 31 - 32` bytes lead to, `malloc` keeps
its promise for these requests, and for no larger one. -/
theorem malloc_serves_iff {sbrk : List Extent → Int → Nat} {base : Nat} {s : Client}
    (hbase : 0 < base) (hg : Grows base sbrk) (hs : History sbrk base s) (nbytes : Nat)
    (hmax : nbytes < 2 ^ 64) : Serves sbrk base s nbytes ↔ nbytes ≤ 2 ^ 31 - 32 := by
  refine ⟨fun hserves => ?_, fun hsmall => serves_of_fits hbase hg hs (fits_iff.mpr hsmall)⟩
  by_contra hbig
  exact not_serves hbase hg hs (by omega) hmax hserves

/-- The bound itself, on a heap that was never used. -/
theorem malloc_serves_iff_first : Serves heapGrows 0x604000
    ⟨⟨fun _ => ⟨0, 0⟩, NULL, []⟩, []⟩ (2 ^ 31 - 32) :=
  (malloc_serves_iff (by decide) heapGrows_grows (.start _) (2 ^ 31 - 32) (by decide)).mpr
    (Nat.le_refl _)

/-- For `2 ^ 31` bytes the kernel is asked for a negative number of them. -/
theorem malloc_two_gigabytes : ¬ ∀ (s : Client) (nbytes : Nat), History heapGrows 0x604000 s →
    nbytes < 2 ^ 64 → Serves heapGrows 0x604000 s nbytes := fun hclaim =>
  not_serves (by decide) heapGrows_grows (.start fun _ => ⟨0, 0⟩) (by decide) (by decide)
    (hclaim _ (2 ^ 31) (.start _) (by decide))

end X86Kernel.Libc
