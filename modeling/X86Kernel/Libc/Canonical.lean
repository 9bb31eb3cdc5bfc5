import X86Kernel.Libc.Sound

/-!
Where the free blocks are does not depend on how they came to be free: no two of
them are neighbours, so they are the holes that the live blocks leave in the
regions. In whatever order blocks are freed, the result is the same.
-/

namespace X86Kernel.Libc

open Lib

/-- `e` is a block on the free list other than the sentinel. -/
def Heap.IsFree (h : Heap) (base : Nat) (e : Extent) : Prop :=
  h.freep ≠ NULL ∧ ∃ a, a ≠ base ∧ (∃ k, h.next^[k] h.freep = a) ∧ h.block a = e

section Ring

variable {base : Nat} {h : Heap} {ring live : List Nat} {a : Nat}

theorem Layout.next_mem (hl : Layout base h ring live) (ha : a ∈ ring) : h.next a ∈ ring := by
  obtain ⟨A, C, rfl⟩ := List.append_of_mem ha
  obtain ⟨-, hend⟩ | ⟨rest, rfl⟩ := hl.linked.next_cases
  · rw [hend]
    exact hl.base_mem
  · simp

/-- The list that is met from the roving pointer is the ring. -/
theorem Layout.met_iff (hl : Layout base h ring live) (hroving : h.freep ∈ ring) :
    (∃ k, h.next^[k] h.freep = a) ↔ a ∈ ring := by
  constructor
  · rintro ⟨k, rfl⟩
    induction k with
    | zero => exact hroving
    | succ k ih =>
        rw [Function.iterate_succ_apply']
        exact hl.next_mem ih
  · intro ha
    -- once around to `base`, and from there to the node
    obtain ⟨A, C, hA⟩ := List.append_of_mem hroving
    obtain ⟨B, D, hB⟩ := List.append_of_mem ha
    have hround := hl.linked
    have hway := hl.linked
    rw [hA] at hround
    rw [hB] at hway
    have hback := (path_cons.mpr ⟨rfl, (path_cut.mp hround).2⟩ : Path h.next h.freep (h.freep :: C)
      base).iterate
    have hthere := (path_cut.mp hway).1.iterate
    refine ⟨B.length + (h.freep :: C).length, ?_⟩
    rw [Function.iterate_add_apply, hback, hthere]

/-- The free blocks of a heap without neighbours. -/
theorem Coalesced.isFree_iff (hc : Coalesced base h ring) (hl : Layout base h ring live)
    (hbase : 0 < base) (hroving : h.freep ∈ ring) (e : Extent) :
    h.IsFree base e ↔ Hole h.regions (live.map h.block) e := by
  obtain ⟨nodes, rfl⟩ := hl.ring_eq
  have hne : ∀ a ∈ nodes, a ≠ base := by
    rintro a ha rfl
    exact (List.nodup_cons.mp hl.nodup).1 (List.mem_append_left _ ha)
  have hnull : h.freep ≠ NULL := by
    have := hl.base_le (List.mem_append_left _ hroving)
    simp only [NULL]
    omega
  have hfree : h.IsFree base e ↔ e ∈ nodes.map h.block := by
    simp only [Heap.IsFree, hl.met_iff hroving, List.mem_cons, List.mem_map]
    constructor
    · rintro ⟨-, a, ha, hmem, rfl⟩
      exact ⟨a, hmem.resolve_left ha, rfl⟩
    · rintro ⟨a, ha, rfl⟩
      exact ⟨hnull, a, hne a ha, .inr ha, rfl⟩
  have htiled := hl.behind_tiled
  rw [List.map_append] at htiled
  rw [hfree]
  refine htiled.mem_free_iff ?_ ?_
  · intro b hb
    obtain ⟨a, ha, rfl⟩ := List.mem_map.mp hb
    have hsize : (h.mem a).size ≠ 0 := fun hz =>
      hne a ha (hc.sized a (List.mem_cons_of_mem _ ha) hz)
    simp only [Heap.block, sizeofHeader]
    omega
  · intro b hb c hcb hbc
    obtain ⟨x, hx, rfl⟩ := List.mem_map.mp hb
    obtain ⟨y, hy, rfl⟩ := List.mem_map.mp hcb
    exact hc.clear x (List.mem_cons_of_mem _ hx) y (List.mem_cons_of_mem _ hy)
      (fun heq => hbc (by rw [heq]))

end Ring

section Frees

variable {sbrk : List Extent → Int → Nat} {base : Nat} {s s' : Client}

def Client.frees (sbrk : List Extent → Int → Nat) (base fuel : Nat) (s : Client)
    (aps : List Nat) : Option Client :=
  aps.foldlM (fun s ap => s.call sbrk base fuel (.free ap)) s

/-- The blocks that the client holds besides those on a list. -/
def Client.blocksBut (s : Client) (aps : List Nat) : List Extent :=
  (s.live.filter fun e => e.1 ∉ aps).map fun e => s.heap.block (e.1 - sizeofHeader)

/-- The pointers of a client are different. -/
theorem Kept.nodup {ring : List Nat} (hk : Kept base s ring) : (s.live.map Prod.fst).Nodup := by
  have hheaders := (List.nodup_append.mp hk.layout.nodup).2.1
  have hmap : s.headers = (s.live.map Prod.fst).map (· - sizeofHeader) := by
    simp [Client.headers]
  rw [hmap] at hheaders
  exact hheaders.of_map _

theorem mem_erase_key {l : List (Nat × Nat)} (h : (l.map Prod.fst).Nodup) {ap : Nat}
    {e : Nat × Nat} : e ∈ l.eraseP (fun e => e.1 = ap) ↔ e ∈ l ∧ e.1 ≠ ap := by
  induction l with
  | nil => simp
  | cons x l ih =>
      obtain ⟨hx, hl⟩ := List.nodup_cons.mp h
      have hkey : ∀ e ∈ l, e.1 ≠ x.1 := fun e he heq => hx (heq ▸ List.mem_map_of_mem he)
      by_cases heq : x.1 = ap
      · rw [List.eraseP_cons_of_pos (by simpa using heq)]
        constructor
        · exact fun he => ⟨List.mem_cons_of_mem _ he, heq ▸ hkey e he⟩
        · rintro ⟨he, hne⟩
          obtain rfl | he := List.mem_cons.mp he
          · exact absurd heq hne
          · exact he
      · rw [List.eraseP_cons_of_neg (by simpa using heq), List.mem_cons, ih hl, List.mem_cons]
        constructor
        · rintro (rfl | ⟨he, hne⟩)
          · exact ⟨.inl rfl, heq⟩
          · exact ⟨.inr he, hne⟩
        · rintro ⟨rfl | he, hne⟩
          · exact .inl rfl
          · exact .inr ⟨he, hne⟩

/-- The blocks of a list go back one after another, and what the client holds
then is the rest. -/
theorem frees_kept {ring aps : List Nat} (hk : Kept base s ring) (hc : Coalesced base s.heap ring)
    (hnodup : aps.Nodup) (hlive : ∀ ap ∈ aps, ∃ n, (ap, n) ∈ s.live) :
    ∃ N s' ring', (∀ fuel ≥ N, s.frees sbrk base fuel aps = some s') ∧ Kept base s' ring' ∧
      Coalesced base s'.heap ring' ∧ s'.heap.regions = s.heap.regions ∧
      ∀ b, b ∈ s'.headers.map s'.heap.block ↔ b ∈ s.blocksBut aps := by
  induction aps generalizing s ring with
  | nil =>
      refine ⟨0, s, ring, fun _ _ => rfl, hk, hc, rfl, fun b => ?_⟩
      simp [Client.blocksBut, Client.headers]
  | cons ap aps ih =>
      obtain ⟨hap, hnodup⟩ := List.nodup_cons.mp hnodup
      obtain ⟨n, hn⟩ := hlive ap (by simp)
      obtain ⟨N₁, s₁, ring₁, hN₁, hk₁, hc₁, hregions₁, hlive₁, hsame₁⟩ :=
        @free_kept sbrk _ _ _ hk _ _ hn
      have hmem : ∀ e, e ∈ s₁.live ↔ e ∈ s.live ∧ e.1 ≠ ap := by
        intro e
        rw [hlive₁, mem_erase_key hk.nodup]
      obtain ⟨N, s', ring', hN, hk', hc', hregions, hblocks⟩ := ih hk₁ (hc₁ hc) hnodup (by
        intro x hx
        obtain ⟨m, hm⟩ := hlive x (List.mem_cons_of_mem _ hx)
        exact ⟨m, (hmem _).mpr ⟨hm, fun heq => hap (heq ▸ hx)⟩⟩)
      refine ⟨max N₁ N, s', ring', fun fuel hfuel => ?_, hk', hc', hregions.trans hregions₁,
        fun b => ?_⟩
      · rw [Client.frees, List.foldlM_cons, hN₁ fuel (by omega)]
        exact hN fuel (by omega)
      · have hblock : ∀ e ∈ s₁.live, s₁.heap.block (e.1 - sizeofHeader) =
            s.heap.block (e.1 - sizeofHeader) := by
          intro e he
          simp only [Heap.block, hsame₁ _ (List.mem_map_of_mem he)]
        rw [hblocks]
        simp only [Client.blocksBut, List.mem_map, List.mem_filter, decide_eq_true_eq,
          List.mem_cons, not_or]
        constructor
        · rintro ⟨e, ⟨he, hout⟩, rfl⟩
          exact ⟨e, ⟨((hmem e).mp he).1, ((hmem e).mp he).2, hout⟩, (hblock e he).symm⟩
        · rintro ⟨e, ⟨he, hne, hout⟩, rfl⟩
          exact ⟨e, ⟨(hmem e).mpr ⟨he, hne⟩, hout⟩, hblock e ((hmem e).mpr ⟨he, hne⟩)⟩

/-- The free blocks after blocks were freed, in the order of a list. -/
theorem frees_isFree (hbase : 0 < base) (hf : Fresh base sbrk) (hs : History sbrk base s)
    {aps : List Nat} (hnodup : aps.Nodup) (hlive : ∀ ap ∈ aps, ∃ n, (ap, n) ∈ s.live) :
    ∃ N t, (∀ fuel ≥ N, s.frees sbrk base fuel aps = some t) ∧
      (∀ r ∈ s.heap.regions, 0 < r.len) ∧
      (∀ e, t.heap.IsFree base e ↔ Hole s.heap.regions (s.blocksBut aps) e) ∧
      ∀ a b, t.heap.IsFree base a → t.heap.IsFree base b → a.stop ≠ b.start := by
  obtain ⟨mem, rfl⟩ | ⟨ring, hk, hc⟩ := hs.kept hbase hf
  · -- nothing was ever allocated
    obtain rfl : aps = [] := by
      refine List.eq_nil_iff_forall_not_mem.mpr fun ap hap => ?_
      obtain ⟨n, hn⟩ := hlive ap hap
      simp at hn
    refine ⟨0, _, fun _ _ => rfl, by simp, fun e => iff_of_false ?_ ?_, fun a b ha => ?_⟩
    · exact fun h => h.1 rfl
    · rintro ⟨-, -, r, hr, -⟩
      simp at hr
    · exact absurd rfl ha.1
  · obtain ⟨N, t, ring', hN, hk', hc', hregions, hblocks⟩ := frees_kept hk hc hnodup hlive
    have hfree := hc'.isFree_iff hk'.layout hbase hk'.roving
    refine ⟨N, t, hN, hc.filled, fun e => ?_, ?_⟩
    · rw [hfree, hregions]
      exact ⟨fun h => h.congr fun b => (hblocks b).symm, fun h => h.congr hblocks⟩
    · rintro a b ⟨-, x, hxb, hx, rfl⟩ ⟨-, y, hyb, hy, rfl⟩
      rw [hk'.layout.met_iff hk'.roving] at hx hy
      have hpos : (t.heap.mem x).size ≠ 0 := fun hz => hxb (hc'.sized x hx hz)
      by_cases hxy : x = y
      · subst hxy
        simp only [Extent.stop, Heap.block, sizeofHeader]
        omega
      · exact hc'.clear y hy x hx hxy

end Frees

/-- The free list is canonical. In every history of permitted calls, freeing a set
of live blocks in two orders leaves the same free blocks: the holes between the
blocks that are still live, no two of them neighbours. When no block is live any
more these are the regions. -/
theorem frees_canonical {sbrk : List Extent → Int → Nat} {base : Nat} {s : Client}
    (hbase : 0 < base) (hf : Fresh base sbrk) (hs : History sbrk base s) (aps aps' : List Nat)
    (hnodup : aps.Nodup) (hlive : ∀ ap ∈ aps, ∃ n, (ap, n) ∈ s.live) (horder : aps.Perm aps') :
    ∃ N t t', (∀ fuel ≥ N, s.frees sbrk base fuel aps = some t ∧
        s.frees sbrk base fuel aps' = some t') ∧
      (∀ e, t'.heap.IsFree base e ↔ t.heap.IsFree base e) ∧
      (∀ e, t.heap.IsFree base e ↔ Hole s.heap.regions (s.blocksBut aps) e) ∧
      (∀ a b, t.heap.IsFree base a → t.heap.IsFree base b → a.stop ≠ b.start) ∧
      ((∀ e ∈ s.live, e.1 ∈ aps) → ∀ e, t.heap.IsFree base e ↔ e ∈ s.heap.regions) := by
  obtain ⟨N, t, hN, hpos, hfree, hclear⟩ := frees_isFree hbase hf hs hnodup hlive
  obtain ⟨N', t', hN', -, hfree', -⟩ := frees_isFree hbase hf hs (horder.nodup_iff.mp hnodup)
    (fun ap hap => hlive ap (horder.mem_iff.mpr hap))
  have hsame : s.blocksBut aps' = s.blocksBut aps := by
    simp only [Client.blocksBut, horder.mem_iff]
  refine ⟨max N N', t, t', fun fuel hfuel => ⟨hN fuel (by omega), hN' fuel (by omega)⟩,
    fun e => ?_, hfree, hclear, fun hall e => ?_⟩
  · rw [hfree, hfree', hsame]
  · have hnone : s.blocksBut aps = [] := by
      simpa [Client.blocksBut] using fun a b hab => hall (a, b) hab
    rw [hfree, hnone, hole_nil_iff hpos]

/-- Two blocks from one region, freed in either order: the region is one free
block again. -/
theorem frees_canonical_two :
    ∃ s p q t t', History heapGrows 0x604000 s ∧ s.live.map Prod.fst = [p, q] ∧
      (∃ N, ∀ fuel ≥ N, s.frees heapGrows 0x604000 fuel [p, q] = some t ∧
        s.frees heapGrows 0x604000 fuel [q, p] = some t') ∧
      (∀ e, t'.heap.IsFree 0x604000 e ↔ t.heap.IsFree 0x604000 e) ∧
      ∀ e, t.heap.IsFree 0x604000 e ↔ e ∈ s.heap.regions := by
  have hstart : History heapGrows 0x604000 _ := .start (fun _ => ⟨0, 0⟩)
  have hrun : (Client.calls heapGrows 0x604000 9 ⟨⟨fun _ => ⟨0, 0⟩, NULL, []⟩, []⟩
      [.malloc 10, .malloc 100]).any (fun s => s.live.map Prod.fst =
        [0x4B0FFFFF3F70, 0x4B0FFFFF3FF0]) = true := by
    decide +kernel
  obtain ⟨s, hs, hprop⟩ := Option.any_eq_true _ _ |>.mp hrun
  have hlive : s.live.map Prod.fst = [0x4B0FFFFF3F70, 0x4B0FFFFF3FF0] := of_decide_eq_true hprop
  have hhist := hstart.calls hs
  obtain ⟨N, t, t', hN, hsame, -, -, hall⟩ := frees_canonical (by decide) heapGrows_fresh hhist
    [0x4B0FFFFF3F70, 0x4B0FFFFF3FF0] [0x4B0FFFFF3FF0, 0x4B0FFFFF3F70] (by decide)
    (by
      intro ap hap
      rw [← hlive] at hap
      obtain ⟨⟨x, n⟩, he, rfl⟩ := List.mem_map.mp hap
      exact ⟨n, he⟩)
    (List.Perm.swap _ _ _)
  refine ⟨s, _, _, t, t', hhist, hlive, ⟨N, hN⟩, hsame, hall fun e he => ?_⟩
  rw [← hlive]
  exact List.mem_map_of_mem he

end X86Kernel.Libc
