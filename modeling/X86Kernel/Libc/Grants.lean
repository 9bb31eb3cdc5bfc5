import X86Kernel.Libc.Limits

/-!
How the library asks for memory. A request that does not overflow asks the kernel at most
once: the region that `morecore` puts on the free list is large enough for it.
-/

namespace X86Kernel.Libc

open Lib

variable {sbrk : List Extent → Int → Nat} {base : Nat}

/-- The regions after a call: as before, or with one that `sbrk` was asked for. -/
def AsksOnce (sbrk : List Extent → Int → Nat) (past now : List Extent) : Prop :=
  now = past ∨ ∃ increment : Nat, increment < 2 ^ 31 ∧
    now = ⟨sbrk past increment, increment⟩ :: past

@[simp] theorem initBase_regions (h : Heap) : (initBase base h).regions = h.regions := by
  unfold initBase
  split_ifs <;> rfl

theorem take_regions (h : Heap) (nunits prevp p : Nat) :
    (take h nunits prevp p).2.regions = h.regions := by
  unfold take
  split_ifs <;> rfl

theorem free_regions {fuel ap : Nat} {h h' : Heap} (hrun : free fuel h ap = some h') :
    h'.regions = h.regions := by
  obtain ⟨p, -, hrun⟩ := Option.bind_eq_some_iff.mp hrun
  obtain rfl := Option.some.inj hrun
  change (joinLower (joinUpper h _ p) _ p).regions = h.regions
  rw [joinLower_regions, joinUpper_regions]

/-- Before it asks for a region the search changes nothing. -/
theorem search_first {nunits fuel prevp p a : Nat} {h h' : Heap}
    (hrun : search sbrk nunits fuel h prevp p = some (a, h')) :
    h'.regions = h.regions ∨ ∃ fuel r, morecore sbrk fuel h (int nunits) = some r ∧
      (if r.1 = NULL then some (NULL, r.2)
        else search sbrk nunits fuel r.2 r.1 (r.2.mem r.1).ptr) = some (a, h') := by
  induction fuel generalizing prevp p with
  | zero => simp [search] at hrun
  | succ fuel ih =>
      unfold search at hrun
      split_ifs at hrun with hfit hback
      · have htake : (take h nunits prevp p).2 = h' := congrArg Prod.snd (Option.some.inj hrun)
        exact .inl (by rw [← htake, take_regions])
      · obtain ⟨r, hmore, hrest⟩ := Option.bind_eq_some_iff.mp hrun
        exact .inr ⟨fuel, r, hmore, hrest⟩
      · exact ih hrun

theorem morecore_regions {fuel : Nat} {h h' : Heap} {nunits p : Nat}
    (hsmall : max nunits 1024 * sizeofHeader < 2 ^ 31)
    (hrun : morecore sbrk fuel h (int nunits) = some (p, h')) (hp : p ≠ NULL) :
    AsksOnce sbrk h.regions h'.regions := by
  have hinc : int ((max nunits 1024 : Nat) * sizeofHeader) =
      (max nunits 1024 * sizeofHeader : Nat) := int_of_lt hsmall
  unfold morecore at hrun
  rw [morecore_units hsmall] at hrun
  dsimp only at hrun
  rw [hinc] at hrun
  split_ifs at hrun with hrefused
  · exact absurd (congrArg Prod.fst (Option.some.inj hrun)).symm hp
  · obtain ⟨h₁, hfree, hrun⟩ := Option.bind_eq_some_iff.mp hrun
    obtain ⟨-, rfl⟩ := Prod.mk.inj (Option.some.inj hrun)
    refine .inr ⟨max nunits 1024 * sizeofHeader, hsmall, ?_⟩
    rw [free_regions hfree]
    rfl

/-- The search asks at most once. -/
theorem search_asks {nunits fuel prevp p a : Nat} {h h' : Heap} {ring live : List Nat}
    (hbase : 0 < base) (hf : Fresh base sbrk) (hl : Layout base h ring live)
    (hfreep : h.freep ∈ ring) (hsmall : max nunits 1024 * sizeofHeader < 2 ^ 31)
    (hrun : search sbrk nunits fuel h prevp p = some (a, h')) :
    AsksOnce sbrk h.regions h'.regions := by
  obtain hsame | ⟨f, r, hmore, hrest⟩ := search_first hrun
  · exact .inl hsame
  · obtain ⟨h₁, ring₁, ⟨N, hN⟩, hl₁, hfreep₁, hfit₁, -⟩ := morecore_layout hf hl hfreep hsmall
    have hr := morecore_mono (k := N) hmore
    rw [hN (f + N) (by omega)] at hr
    obtain rfl := Option.some.inj hr
    have hnull : h₁.freep ≠ NULL := by
      have := hl₁.base_le (List.mem_append_left _ hfreep₁)
      simp only [NULL]
      omega
    dsimp only at hrest
    rw [if_neg hnull] at hrest
    -- the block behind the roving pointer is large enough now
    have htake : h'.regions = h₁.regions := by
      cases f with
      | zero => simp [search] at hrest
      | succ f =>
          unfold search at hrest
          have htake := (if_pos hfit₁).symm.trans hrest
          have hheap : (take h₁ nunits h₁.freep (h₁.next h₁.freep)).2 = h' :=
            congrArg Prod.snd (Option.some.inj htake)
          rw [← hheap, take_regions]
    rw [htake]
    exact morecore_regions hsmall hmore hnull

/-- So does every permitted call. -/
theorem call_asks {s s' : Client} {c : Call} {fuel : Nat} (hbase : 0 < base)
    (hf : Fresh base sbrk) (hs : History sbrk base s) (hp : Permitted s c)
    (hrun : s.call sbrk base fuel c = some s') :
    AsksOnce sbrk s.heap.regions s'.heap.regions := by
  cases c with
  | malloc nbytes =>
      obtain ⟨⟨a, h⟩, hsearch, hrun⟩ := Option.bind_eq_some_iff.mp hrun
      obtain rfl := Option.some.inj hrun
      obtain ⟨ring, hl, hfreep⟩ := hs.layout hbase hf
      have hfits : max (unitsFor nbytes) 1024 * sizeofHeader < 2 ^ 31 := by
        rw [unitsFor_eq hp]
        exact hp.2
      have hasks := search_asks hbase hf hl hfreep hfits hsearch
      rwa [initBase_regions] at hasks
  | free ap =>
      obtain ⟨h, hfree, hrun⟩ := Option.bind_eq_some_iff.mp hrun
      obtain rfl := Option.some.inj hrun
      exact .inl (free_regions hfree)
  | store x v =>
      obtain rfl := Option.some.inj hrun
      exact .inl rfl

end X86Kernel.Libc
