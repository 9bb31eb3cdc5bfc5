import X86Kernel.Kern.Account

/-!
Where the areas of a process are. `isr14` takes the first area of the list for
the stack and `malloc` the second one for the heap; that is what they are in
every process, however it was loaded, executed or forked, and the heap agrees
with the page tables.
-/

namespace X86Kernel.Kern

open Lib Paging Proc

/-- The steps that keep the areas in place: as `Safe` says, with images that keep
out of the ranges of stack and heap. -/
def PlacedStep (k : System) : Action → Prop
  | .exec img args => img.Ok ∧ img.Outside ∧ FitsArgs args
  | act => Safe k act

def PlacedStart (m₀ : Mem) (k : System) : Prop :=
  Boot m₀ ∧ ∃ img name, img.Ok ∧ img.Outside ∧ name.length < 50 ∧
    System.start m₀ img name = some k

theorem PlacedStep.safe {k : System} {act : Action} (h : PlacedStep k act) :
    Safe k act ∧ ∀ img args, act = .exec img args → img.Outside := by
  cases act with
  | exec img args =>
      refine ⟨⟨h.1, h.2.2⟩, ?_⟩
      rintro _ _ ⟨rfl, rfl⟩
      exact h.2.1
  | _ => exact ⟨h, by simp⟩

/-- The stack area and the heap area at the head of the list `vm`, and the heap
mapped in the tables below `root` to its end and no further. -/
structure InPlace (m : Mem) (sp : Space) : Prop where
  stack : sp.vm ≠ 0 ∧ (vmStart m sp.vm).toNat = 0x100FFFFF0000 ∧
    (vmEnd m sp.vm).toNat = 0x100FFEFF0000
  heap : vmNext m sp.vm ≠ 0 ∧ (vmStart m (vmNext m sp.vm)).toNat = 0x4B0FFFFF0000
  heap_end : 0x4B0FFFFF0000 ≤ (vmEnd m (vmNext m sp.vm)).toNat ∧
    (vmEnd m (vmNext m sp.vm)).toNat % 4096 = 0
  mapped : ∀ a, 0x4B0FFFFF0000 ≤ a → a < (vmEnd m (vmNext m sp.vm)).toNat →
    (m.walk sp.root a).isSome
  room : m.walk sp.root (vmEnd m (vmNext m sp.vm)).toNat = none

/-- What the invariant says about one process. -/
theorem Good.inPlace {m₀ : Mem} {k : System} {G : Ghost} (h : Good m₀ k G) (hr : Roomed k G)
    {i : Nat} (hi : k.InUse i) : InPlace k.mem (k.space i) := by
  have hv := h.valid i hi
  obtain ⟨s, t, rest, hL, hvm, -, -, hnext, -⟩ := hv.nodes h.inv
  obtain ⟨hlo, hhi⟩ := hv.brk_lt h.inv
  obtain ⟨cnt, hcnt⟩ := hv.heap
  have hpages : ∀ a, a ≤ brk k.mem (k.space i) → a / 4096 < userPages := by
    intro a ha
    simp only [heapStart, capacity, userPages] at *
    omega
  refine ⟨⟨?_, ?_, ?_⟩, ⟨?_, ?_⟩, ⟨hlo, ?_⟩, ?_, ?_⟩
  · rw [hvm]
    exact kptr_ne_zero (hL.lt h.inv (by simp))
  · rw [hv.stack_start]
    rfl
  · rw [hv.stack_end]
    rfl
  · rw [hnext]
    exact kptr_ne_zero (hL.lt h.inv (by simp))
  · rw [hv.heap_start]
    rfl
  · change brk k.mem (k.space i) % 4096 = 0
    rw [hcnt]
    simp only [heapStart]
    omega
  · intro a ha hend
    change a < brk k.mem (k.space i) at hend
    rw [h.inv.walk hv.root (hpages a hend.le)]
    have hleaf := hv.heap_pages (a / 4096) (by simp only [heapPage, heapStart]; omega) (by omega)
    simpa [Option.isSome_iff_ne_none] using hleaf
  · change k.mem.walk _ (brk k.mem (k.space i)) = none
    rw [h.inv.walk hv.root (hpages _ le_rfl)]
    have hnone := hr i hi (brk k.mem (k.space i) / 4096)
      (by rw [hcnt]; simp only [heapStart]; omega)
      (by simp only [heapPage, heapStart] at *; omega)
    rw [hnone]
    rfl

/-- Stack and heap are where the fault handler and `malloc` expect them: in every
state that such steps lead to, the list of every process ends, shares no node with the list of
another process, and begins with the stack area and the heap area; the pages of
the heap are mapped, and the one behind it is not. -/
theorem areas_in_place (m₀ : Mem) (k : System)
    (h : Reachable System.step PlacedStep (PlacedStart m₀) k) (i : Nat) (hi : k.InUse i) :
    (∃ l : List Nat, l.Nodup ∧ ∀ j, nodeAt k.mem (k.space i).vm j = l[j]?) ∧
      (∀ i', k.InUse i' → i' ≠ i → ∀ j j' f, nodeAt k.mem (k.space i).vm j = some f →
        nodeAt k.mem (k.space i').vm j' ≠ some f) ∧
      InPlace k.mem (k.space i) := by
  obtain ⟨G, hgood, hroom⟩ : ∃ G, Good m₀ k G ∧ Roomed k G := by
    refine Good.reachable h ?_ (fun _ _ _ _ hok => hok.safe.1)
      fun k act k' G G' hgood hok _ hE hroom => hroom.step hgood hok.safe.2 hE
    rintro k ⟨hboot, img, name, hok, hout, hname, hrun⟩
    obtain ⟨G, hgood, hsched, hL, hbrk⟩ := hboot.start hok hname hrun
    exact ⟨G, hgood, .start hsched hL hout hbrk⟩
  have hnodes : ∀ i, k.InUse i → ∀ j f, nodeAt k.mem (k.space i).vm j = some f →
      G.role f = .vma (k.space i).root := by
    intro i hi j f hf
    obtain ⟨l, -, hl, hnode⟩ := uses_node hgood hi
    exact (hl f).mp (List.mem_of_getElem? ((hnode f j).mp ⟨hi, hf⟩))
  refine ⟨?_, ?_, hgood.inPlace hroom hi⟩
  · obtain ⟨s, t, rest, hL⟩ := (hgood.valid i hi).areas
    exact ⟨_, hL.nodup hgood.inv, nodeAt_eq hL.areas (fun f hf => hL.lt hgood.inv hf)⟩
  · intro i' hi' hne j j' f hf hf'
    have hrole := hnodes i hi j f hf
    rw [hnodes i' hi' j' f hf'] at hrole
    exact hne (hgood.distinct i' i hi' hi (by simpa using hrole))

/-- The shell forks and asks for heap. -/
theorem areas_in_place_fork :
    ∃ k, Reachable System.step PlacedStep (PlacedStart smallMem) k ∧ k.InUse 3 ∧
      InPlace k.mem (k.space 2) ∧ InPlace k.mem (k.space 3) := by
  have hrun : ((System.start smallMem emptyImage []).bind fun k =>
      (k.step (.sched (.sys .fork))).bind fun k => k.step (.malloc 4096)).any
        (fun k => (k.sched.q 2).state = .running ∧ (k.sched.q 3).state = .running) = true := by
    decide +kernel
  obtain ⟨k, hk, hstate⟩ := (Option.any_eq_true _ _).mp hrun
  obtain ⟨k₀, hk₀, hk⟩ := Option.bind_eq_some_iff.mp hk
  obtain ⟨k₁, hk₁, hk⟩ := Option.bind_eq_some_iff.mp hk
  have hstart : Reachable System.step PlacedStep (PlacedStart smallMem) k₀ :=
    .start ⟨smallMem_boot, emptyImage, [], emptyImage_ok, emptyImage_apart.2, by decide, hk₀⟩
  have hfork := hstart.next (show PlacedStep k₀ (.sched (.sys .fork)) from ⟨trivial, trivial⟩) hk₁
  have hmalloc := hfork.next (show PlacedStep k₁ (.malloc 4096) from trivial) hk
  obtain ⟨hrun₂, hrun₃⟩ := of_decide_eq_true hstate
  have huse₂ : k.InUse 2 := ⟨by decide, by rw [hrun₂]; decide⟩
  have huse₃ : k.InUse 3 := ⟨by decide, by rw [hrun₃]; decide⟩
  exact ⟨k, hmalloc, huse₃, (areas_in_place smallMem k hmalloc 2 huse₂).2.2,
    (areas_in_place smallMem k hmalloc 3 huse₃).2.2⟩

end X86Kernel.Kern
