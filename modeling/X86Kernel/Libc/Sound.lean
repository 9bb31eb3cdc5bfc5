import Mathlib.Algebra.BigOperators.Ring.List
import Mathlib.Algebra.Ring.Nat
import X86Kernel.Libc.Search

/-!
Whole histories of `malloc` and `free`. A client calls the two functions, and
between the calls writes what it likes into the bytes it was given; in every
state it can bring the heap to, the free list is a ring in the order of the
addresses, the free and the live blocks fill the granted regions without
meeting, and the next call returns.
-/

namespace X86Kernel.Libc

open Lib

/-- The heap, and what the client holds: the pointers that `malloc` returned and
`free` has not taken back, each with the bytes that were asked for. -/
structure Client where
  heap : Heap
  live : List (Nat × Nat)

inductive Call where
  | malloc (nbytes : Nat)
  | free (ap : Nat)
  /-- A store of the client's own, sixteen bytes wide. -/
  | store (x : Nat) (v : Header)
  deriving DecidableEq, Repr

section

variable (sbrk : List Extent → Int → Nat) (base : Nat)

def Client.call (fuel : Nat) (s : Client) : Call → Option Client
  | .malloc nbytes => do
      let (ap, h) ← malloc sbrk base fuel s.heap nbytes
      some ⟨h, if ap = NULL then s.live else (ap, nbytes) :: s.live⟩
  | .free ap => do
      let h ← free fuel s.heap ap
      some ⟨h, s.live.eraseP (fun e => e.1 = ap)⟩
  | .store x v => some ⟨{ s.heap with mem := Function.update s.heap.mem x v }, s.live⟩

/-- The calls a client may make: requests that do not overflow, `free` of what it
holds, and stores into the bytes it asked for. -/
def Permitted (s : Client) : Call → Prop
  | .malloc nbytes => Fits nbytes
  | .free ap => ∃ n, (ap, n) ∈ s.live
  | .store x _ => ∃ e ∈ s.live, e.1 ≤ x ∧ x + sizeofHeader ≤ e.1 + e.2

/-- The states that permitted calls lead to, from a heap that was never used. -/
inductive History : Client → Prop
  | start (mem : Nat → Header) : History ⟨⟨mem, NULL, []⟩, []⟩
  | next {s s' : Client} {c : Call} {fuel : Nat} : History s → Permitted s c →
      s.call sbrk base fuel c = some s' → History s'

end

def Client.headers (s : Client) : List Nat := s.live.map (fun e => e.1 - sizeofHeader)

structure Sound (base : Nat) (s : Client) (nodes : List Nat) : Prop where
  circular : Path s.heap.next base (base :: nodes) base
  ordered : (base :: nodes).Pairwise (· < ·)
  roving : s.heap.freep ∈ base :: nodes
  sentinel : (s.heap.mem base).size = 0
  disjoint : ((nodes ++ s.headers).map s.heap.block).Pairwise
    (fun a b => a.stop ≤ b.start ∨ b.stop ≤ a.start)
  inside : ∀ a ∈ nodes ++ s.headers, ∃ r ∈ s.heap.regions, (s.heap.block a).Within r
  usable : ∀ e ∈ s.live, sizeofHeader ≤ e.1 ∧
    e.1 + e.2 ≤ (s.heap.block (e.1 - sizeofHeader)).stop
  units : ((nodes ++ s.headers).map (fun a => (s.heap.mem a).size)).sum =
    (s.heap.regions.map (fun r => r.len / sizeofHeader)).sum

section Steps

variable {sbrk : List Extent → Int → Nat} {base : Nat} {s s' : Client}

structure Kept (base : Nat) (s : Client) (ring : List Nat) : Prop where
  layout : Layout base s.heap ring s.headers
  roving : s.heap.freep ∈ ring
  usable : ∀ e ∈ s.live, sizeofHeader ≤ e.1 ∧
    e.1 + e.2 ≤ (s.heap.block (e.1 - sizeofHeader)).stop

theorem Kept.sound {ring : List Nat} (hk : Kept base s ring) : ∃ nodes, Sound base s nodes := by
  obtain ⟨nodes, hring⟩ := hk.layout.ring_eq
  have hl := hk.layout
  have hmem := hk.roving
  rw [hring] at hl hmem
  have hbase := hl.base_size
  have htiled := hl.behind_tiled
  refine ⟨nodes, hl.linked, hl.sorted, hmem, hbase, htiled.apart.imp (fun hab => hab.1),
    fun a ha => htiled.inside _ (List.mem_map_of_mem ha), hk.usable, ?_⟩
  have hunits : (s.heap.regions.map Extent.len).sum =
      sizeofHeader * (s.heap.regions.map (fun r => r.len / sizeofHeader)).sum := by
    rw [← List.sum_map_mul_left]
    refine congrArg List.sum (List.map_congr_left (fun r hr => ?_))
    exact (Nat.mul_div_cancel' (hl.bounded r hr).2).symm
  have hblocks : (((nodes ++ s.headers).map s.heap.block).map Extent.len).sum =
      sizeofHeader * ((nodes ++ s.headers).map (fun a => (s.heap.mem a).size)).sum := by
    rw [← List.sum_map_mul_left, List.map_map]
    rfl
  have htotal := htiled.total
  rw [hblocks, hunits] at htotal
  exact Nat.eq_of_mul_eq_mul_left (by decide) htotal

/-- The blocks of a client that holds the same pointers do not change as long as
the sizes of its blocks do not. -/
theorem usable_congr {h h' : Heap} {live : List (Nat × Nat)}
    (husable : ∀ e ∈ live, sizeofHeader ≤ e.1 ∧ e.1 + e.2 ≤ (h.block (e.1 - sizeofHeader)).stop)
    (hsame : ∀ a ∈ live.map (fun e => e.1 - sizeofHeader), (h'.mem a).size = (h.mem a).size) :
    ∀ e ∈ live, sizeofHeader ≤ e.1 ∧ e.1 + e.2 ≤ (h'.block (e.1 - sizeofHeader)).stop := by
  intro e he
  have heq := hsame (e.1 - sizeofHeader) (List.mem_map_of_mem he)
  simp only [Heap.block, heq]
  exact husable e he

theorem malloc_kept (hbase : 0 < base) (hf : Fresh base sbrk) {ring : List Nat}
    (hl : Layout base (initBase base s.heap) ring s.headers)
    (hroving : (initBase base s.heap).freep ∈ ring)
    (husable : ∀ e ∈ s.live, sizeofHeader ≤ e.1 ∧
      e.1 + e.2 ≤ ((initBase base s.heap).block (e.1 - sizeofHeader)).stop)
    {nbytes : Nat} (hfits : Fits nbytes) :
    ∃ N s' ring', (∀ fuel ≥ N, s.call sbrk base fuel (.malloc nbytes) = some s') ∧
      Kept base s' ring' ∧
      (Coalesced base (initBase base s.heap) ring → Coalesced base s'.heap ring') := by
  obtain ⟨a, h', ring', ⟨N, hN⟩, hl', hroving', hroom, hcoal, hsame⟩ :=
    malloc_layout hbase hf hl hroving hfits
  have hback : a + sizeofHeader - sizeofHeader = a := Nat.add_sub_cancel _ _
  refine ⟨N, ⟨h', (a + sizeofHeader, nbytes) :: s.live⟩, ring', fun fuel hfuel => ?_, ?_, hcoal⟩
  · have hnull : a + sizeofHeader ≠ NULL := by simp [sizeofHeader, NULL]
    simp [Client.call, hN fuel hfuel, hnull]
  · refine ⟨?_, hroving', ?_⟩
    · simpa [Client.headers, hback] using hl'
    · intro e he
      obtain rfl | he := List.mem_cons.mp he
      · exact ⟨Nat.le_add_left _ _, by simpa [hback] using hroom⟩
      · exact usable_congr husable hsame e he

theorem free_kept {ring : List Nat} (hk : Kept base s ring) {ap n : Nat}
    (hlive : (ap, n) ∈ s.live) :
    ∃ N s' ring', (∀ fuel ≥ N, s.call sbrk base fuel (.free ap) = some s') ∧
      Kept base s' ring' ∧ (Coalesced base s.heap ring → Coalesced base s'.heap ring') ∧
      s'.heap.regions = s.heap.regions ∧ s'.live = s.live.eraseP (fun e => e.1 = ap) ∧
      ∀ a ∈ s'.headers, (s'.heap.mem a).size = (s.heap.mem a).size := by
  obtain ⟨e, L, R, -, heap, hsplit, herase⟩ :=
    List.exists_of_eraseP (p := fun e => decide (e.1 = ap)) hlive (by simp)
  obtain rfl : e.1 = ap := by simpa using heap
  have hle := (hk.usable e (by simp [hsplit])).1
  have hperm : (ring ++ s.headers).Perm
      (ring ++ (e.1 - sizeofHeader) :: (L ++ R).map (fun e => e.1 - sizeofHeader)) := by
    refine List.Perm.append_left ring ?_
    rw [Client.headers, hsplit]
    simp
  have hl : Layout base s.heap ring
      ((e.1 - sizeofHeader) :: (L ++ R).map (fun e => e.1 - sizeofHeader)) := by
    have hl := hk.layout
    exact ⟨hl.linked, hl.nonempty, hl.sorted, hl.tiled.perm (hperm.map _), hl.above, hl.bounded⟩
  obtain ⟨h', ring', ⟨N, hN⟩, hl', hroving', hcoal, hregions, hsame⟩ := free_layout hl hk.roving
  rw [Nat.sub_add_cancel hle] at hN
  have hpos : 0 < (s.heap.mem (e.1 - sizeofHeader)).size := by
    have hroom := (hk.usable e (by simp [hsplit])).2
    simp only [Extent.stop, Heap.block, sizeofHeader] at hroom hle ⊢
    omega
  refine ⟨N, ⟨h', L ++ R⟩, ring', fun fuel hfuel => ?_, ⟨hl', hroving', ?_⟩, hcoal hpos, hregions,
    herase.symm, hsame⟩
  · simp [Client.call, hN fuel hfuel, herase]
  · refine usable_congr (h := s.heap) (fun e' he' => hk.usable e' ?_) hsame
    rw [hsplit]
    simp only [List.mem_append, List.mem_cons] at he' ⊢
    tauto

/-- A store into the bytes of a live block reaches no header. -/
theorem store_kept {ring : List Nat} (hk : Kept base s ring) {x : Nat} {v : Header}
    {e : Nat × Nat} (hlive : e ∈ s.live) (hlow : e.1 ≤ x)
    (hhigh : x + sizeofHeader ≤ e.1 + e.2) :
    Kept base ⟨{ s.heap with mem := Function.update s.heap.mem x v }, s.live⟩ ring ∧
      ∀ a ∈ ring, (Function.update s.heap.mem x v a).size = (s.heap.mem a).size := by
  have hl := hk.layout
  obtain ⟨hle, hroom⟩ := hk.usable e hlive
  have hin : e.1 - sizeofHeader ∈ ring ++ s.headers :=
    List.mem_append_right _ (List.mem_map_of_mem hlive)
  have hne : ∀ a ∈ ring ++ s.headers, a ≠ x := by
    rintro a ha rfl
    by_cases heq : a = e.1 - sizeofHeader
    · simp only [sizeofHeader] at *
      omega
    · have happart := (List.pairwise_map.mp hl.tiled.apart).forall ha hin heq
      simp only [Extent.Apart, Extent.stop, Heap.block_start] at happart hroom
      simp only [sizeofHeader] at *
      omega
  have hsame : ∀ a ∈ ring ++ s.headers, Function.update s.heap.mem x v a = s.heap.mem a :=
    fun a ha => Function.update_of_ne (hne a ha) _ _
  refine ⟨⟨⟨?_, hl.nonempty, hl.sorted, ?_, hl.above, hl.bounded⟩, hk.roving, ?_⟩,
    fun a ha => congrArg Header.size (hsame a (List.mem_append_left _ ha))⟩
  · refine hl.linked.congr (fun a ha => ?_)
    simp only [Heap.next]
    rw [hsame a (List.mem_append_left _ ha)]
  · have hblocks : (ring ++ s.headers).map (Heap.block ⟨Function.update s.heap.mem x v,
        s.heap.freep, s.heap.regions⟩) = (ring ++ s.headers).map s.heap.block :=
      map_block_congr (fun a ha => congrArg Header.size (hsame a ha))
    have htiled := hl.tiled
    rw [← hblocks] at htiled
    exact htiled
  · refine usable_congr hk.usable (fun a ha => ?_)
    exact congrArg Header.size (hsame a (List.mem_append_right _ ha))

/-- Every permitted call returns, and leaves a layout again, without neighbours
among its free blocks. -/
theorem call_kept (hbase : 0 < base) (hf : Fresh base sbrk) {c : Call}
    (hs : (∃ mem, s = ⟨⟨mem, NULL, []⟩, []⟩) ∨
      ∃ ring, Kept base s ring ∧ Coalesced base s.heap ring) (hp : Permitted s c) :
    ∃ N s' ring', (∀ fuel ≥ N, s.call sbrk base fuel c = some s') ∧ Kept base s' ring' ∧
      Coalesced base s'.heap ring' := by
  obtain ⟨mem, rfl⟩ | ⟨ring, hk, hc⟩ := hs
  · -- the client holds nothing yet, so this is the first `malloc`
    cases c with
    | malloc nbytes =>
        obtain ⟨N, s', ring', hN, hk', hc'⟩ := malloc_kept hbase hf (s := ⟨⟨mem, NULL, []⟩, []⟩)
          initBase_layout (by simp [initBase]) (by simp) hp
        exact ⟨N, s', ring', hN, hk', hc' ⟨by simp [initBase], by simp, by simp⟩⟩
    | free ap => simp [Permitted] at hp
    | store x v => simp [Permitted] at hp
  · cases c with
    | malloc nbytes =>
        have hinit := initBase_eq hbase hk.layout hk.roving
        have hl : Layout base (initBase base s.heap) ring s.headers := by
          rw [hinit]
          exact hk.layout
        obtain ⟨N, s', ring', hN, hk', hc'⟩ := malloc_kept hbase hf hl
          (by rw [hinit]; exact hk.roving) (by rw [hinit]; exact hk.usable) hp
        rw [hinit] at hc'
        exact ⟨N, s', ring', hN, hk', hc' hc⟩
    | free ap =>
        obtain ⟨n, hn⟩ := hp
        obtain ⟨N, s', ring', hN, hk', hc', -⟩ := free_kept hk hn
        exact ⟨N, s', ring', hN, hk', hc' hc⟩
    | store x v =>
        obtain ⟨e, he, hlow, hhigh⟩ := hp
        obtain ⟨hk', hsame⟩ := store_kept hk he hlow hhigh
        exact ⟨0, _, ring, fun fuel _ => rfl, hk',
          hc.congr (fun a ha => ha) hsame fun r hr => .inl hr⟩

end Steps

section Fuel

variable {sbrk : List Extent → Int → Nat} {base : Nat}

theorem seek_mono {mem : Nat → Header} {bp p q f k : Nat} (h : seek mem bp f p = some q) :
    seek mem bp (f + k) p = some q := by
  induction f generalizing p with
  | zero => simp [seek] at h
  | succ f ih =>
      rw [show f + 1 + k = (f + k) + 1 by omega]
      unfold seek at h ⊢
      split_ifs at h ⊢ with h1 h2
      · exact h
      · exact h
      · exact ih h

theorem free_mono {h h' : Heap} {ap f k : Nat} (hf : free f h ap = some h') :
    free (f + k) h ap = some h' := by
  simp only [free, Option.bind_eq_bind, Option.bind_eq_some_iff] at hf ⊢
  obtain ⟨p, hp, hres⟩ := hf
  exact ⟨p, seek_mono hp, hres⟩

theorem morecore_mono {h : Heap} {nu : Int} {f k : Nat} {r : Nat × Heap}
    (hm : morecore sbrk f h nu = some r) : morecore sbrk (f + k) h nu = some r := by
  unfold morecore at hm ⊢
  generalize (if nu < NALLOC then NALLOC else nu) = n at hm ⊢
  dsimp only at hm ⊢
  split at hm
  · rename_i hrefused
    rw [if_pos hrefused]
    exact hm
  · rename_i hgranted
    rw [if_neg hgranted]
    simp only [Option.bind_eq_bind, Option.bind_eq_some_iff] at hm ⊢
    obtain ⟨h', hfree, hres⟩ := hm
    exact ⟨h', free_mono hfree, hres⟩

theorem search_mono {h : Heap} {nunits prevp p f k : Nat} {r : Nat × Heap}
    (hs : search sbrk nunits f h prevp p = some r) :
    search sbrk nunits (f + k) h prevp p = some r := by
  induction f generalizing h prevp p with
  | zero => simp [search] at hs
  | succ f ih =>
      rw [show f + 1 + k = (f + k) + 1 by omega]
      unfold search at hs ⊢
      split_ifs at hs ⊢ with hfit hback
      · exact hs
      · simp only [Option.bind_eq_bind, Option.bind_eq_some_iff] at hs ⊢
        obtain ⟨⟨p', h'⟩, hmore, hres⟩ := hs
        refine ⟨(p', h'), morecore_mono hmore, ?_⟩
        dsimp only at hres ⊢
        split_ifs at hres ⊢ with hnull
        · exact hres
        · exact ih hres
      · exact ih hs

/-- More fuel does not change what a call returns. -/
theorem call_mono {s s' : Client} {c : Call} {f k : Nat}
    (hc : s.call sbrk base f c = some s') : s.call sbrk base (f + k) c = some s' := by
  cases c with
  | malloc nbytes =>
      simp only [Client.call, malloc, Option.bind_eq_bind, Option.bind_eq_some_iff] at hc ⊢
      obtain ⟨r, hsearch, hres⟩ := hc
      exact ⟨r, search_mono hsearch, hres⟩
  | free ap =>
      simp only [Client.call, Option.bind_eq_bind, Option.bind_eq_some_iff] at hc ⊢
      obtain ⟨h', hfree, hres⟩ := hc
      exact ⟨h', free_mono hfree, hres⟩
  | store x v => exact hc

end Fuel

variable {sbrk : List Extent → Int → Nat} {base : Nat} {s : Client}

theorem History.kept (hbase : 0 < base) (hf : Fresh base sbrk) (hs : History sbrk base s) :
    (∃ mem, s = ⟨⟨mem, NULL, []⟩, []⟩) ∨ ∃ ring, Kept base s ring ∧ Coalesced base s.heap ring := by
  induction hs with
  | start mem => exact .inl ⟨mem, rfl⟩
  | next _ hp hcall ih =>
      rename_i s s' c fuel _
      obtain ⟨N, t, ring, hN, hk⟩ := call_kept hbase hf ih hp
      have hsame := call_mono (k := N) hcall
      rw [hN (fuel + N) (by omega)] at hsame
      obtain rfl := Option.some.inj hsame
      exact .inr ⟨ring, hk⟩

/-- In every history of permitted calls the heap is sound, or was never used, and
the next permitted call returns and leaves it sound. -/
theorem heap_sound (hbase : 0 < base) (hf : Fresh base sbrk) (hs : History sbrk base s) :
    ((∃ mem, s = ⟨⟨mem, NULL, []⟩, []⟩) ∨ ∃ nodes, Sound base s nodes) ∧
      ∀ c, Permitted s c → ∃ N s' nodes, (∀ fuel ≥ N, s.call sbrk base fuel c = some s') ∧
        Sound base s' nodes := by
  have hkept := hs.kept hbase hf
  refine ⟨?_, fun c hp => ?_⟩
  · obtain hstart | ⟨ring, hk, -⟩ := hkept
    · exact .inl hstart
    · exact .inr hk.sound
  · obtain ⟨N, s', ring, hN, hk, -⟩ := call_kept hbase hf hkept hp
    obtain ⟨nodes, hsound⟩ := hk.sound
    exact ⟨N, s', nodes, hN, hsound⟩

/-- The kernel's `malloc` call, as the source has it: a region starts on the page
behind the last one, and one page more than its bytes fill is mapped for it. -/
def heapGrows (past : List Extent) (_ : Int) : Nat :=
  past.foldr (fun r vmEnd => max vmEnd (4096 * (r.stop / 4096 + 1))) 0x4B0FFFFF0000

theorem heapGrows_spec (past : List Extent) (increment : Int) :
    0x4B0FFFFF0000 ≤ heapGrows past increment ∧ heapGrows past increment % 4096 = 0 ∧
      ∀ r ∈ past, r.stop < heapGrows past increment := by
  induction past with
  | nil =>
      have hnil : heapGrows [] increment = 0x4B0FFFFF0000 := rfl
      rw [hnil]
      exact ⟨Nat.le_refl _, by decide, fun r hr => absurd hr List.not_mem_nil⟩
  | cons r past ih =>
      obtain ⟨hlow, halign, hpast⟩ := ih
      have hstep : heapGrows (r :: past) increment =
          max (heapGrows past increment) (4096 * (r.stop / 4096 + 1)) := rfl
      rw [hstep]
      refine ⟨by omega, by omega, fun q hq => ?_⟩
      obtain rfl | hq := List.mem_cons.mp hq
      · omega
      · have := hpast q hq
        omega

theorem heapGrows_grows : Grows 0x604000 heapGrows where
  above past increment := by
    have := (heapGrows_spec past increment).1
    simp only [sizeofHeader]
    omega
  higher past increment := (heapGrows_spec past increment).2.2
  granted past increment := by
    have := (heapGrows_spec past increment).2.1
    simp only [refused]
    omega

theorem heapGrows_fresh : Fresh 0x604000 heapGrows := heapGrows_grows.fresh

instance (s : Client) : (c : Call) → Decidable (Permitted s c)
  | .malloc _ => inferInstanceAs (Decidable (_ ∧ _))
  | .free ap => decidable_of_iff (∃ e ∈ s.live, e.1 = ap) (by simp [Permitted])
  | .store x _ =>
      inferInstanceAs (Decidable (∃ e ∈ s.live, e.1 ≤ x ∧ x + sizeofHeader ≤ e.1 + e.2))

def Client.calls (sbrk : List Extent → Int → Nat) (base fuel : Nat) (s : Client)
    (cs : List Call) : Option Client :=
  cs.foldlM (fun s c => if Permitted s c then s.call sbrk base fuel c else none) s

theorem History.calls {fuel : Nat} {cs : List Call} {s' : Client} (hs : History sbrk base s)
    (hrun : s.calls sbrk base fuel cs = some s') : History sbrk base s' := by
  induction cs generalizing s with
  | nil =>
      obtain rfl : s = s' := by simpa [Client.calls] using hrun
      exact hs
  | cons c cs ih =>
      simp only [Client.calls, List.foldlM_cons, Option.bind_eq_bind,
        Option.bind_eq_some_iff] at hrun
      obtain ⟨t, hcall, hrest⟩ := hrun
      split_ifs at hcall with hp
      exact ih (hs.next hp hcall) hrest

/-- A request that is met from the first region and given back while a second one,
too large for it, is in use. -/
theorem heap_sound_two_regions :
    ∃ s, History heapGrows 0x604000 s ∧ s.live.map Prod.snd = [20000] ∧
      s.heap.regions.length = 2 ∧ ∃ nodes, Sound 0x604000 s nodes := by
  have hstart : History heapGrows 0x604000 _ := .start (fun _ => ⟨0, 0⟩)
  have hrun : (Client.calls heapGrows 0x604000 9 ⟨⟨fun _ => ⟨0, 0⟩, NULL, []⟩, []⟩
      [.malloc 10, .malloc 20000, .free 0x4B0FFFFF3FF0]).any (fun s => s.heap.freep ≠ NULL ∧
        s.live.map Prod.snd = [20000] ∧ s.heap.regions.length = 2) = true := by
    decide +kernel
  obtain ⟨s, hs, hprops⟩ := Option.any_eq_true _ _ |>.mp hrun
  obtain ⟨hused, hlive, hregions⟩ := of_decide_eq_true hprops
  have hhist := hstart.calls hs
  refine ⟨s, hhist, hlive, hregions, ?_⟩
  obtain ⟨mem, rfl⟩ | hsound := (heap_sound (by decide) heapGrows_fresh hhist).1
  · exact absurd rfl hused
  · exact hsound

end X86Kernel.Libc
