import X86Kernel.Kern.Start

/-!
The room behind the heap. A process maps its segments where the image says, its
stack below the first page of the stack and its heap from a fixed address on;
images that keep out of the other two ranges leave every page unmapped that a
heap has still to grow into.
-/

namespace X86Kernel.Kern

open Lib Paging Proc

/-- No segment has a page in the range of the stack or of a heap, which has at
most as many pages as there are frames. -/
def Image.Outside (img : Image) : Prop :=
  ∀ ep ∈ img.phdrs, ∀ n, ep.hasPage n →
    ¬ (stackEnd / 4096 ≤ n ∧ n ≤ stackPage) ∧ ¬ (heapPage ≤ n ∧ n < heapPage + capacity)

/-- No page is mapped behind the heap of a process. -/
def Roomed (k : System) (G : Ghost) : Prop :=
  ∀ i, k.InUse i → ∀ n, brk k.mem (k.space i) ≤ n * 4096 → n < heapPage + capacity →
    G.leaf ((k.space i).root, n) = none

/-- An image brings no page into the range of a heap. -/
theorem Image.Outside.room {img : Image} (h : img.Outside) {n : Nat} (hlo : heapStart ≤ n * 4096)
    (hhi : n < heapPage + capacity) : ¬ img.brings n ∧ ¬ n ≤ stackPage := by
  have hstack : ¬ n ≤ stackPage := by
    simp only [heapStart, stackPage, stackStart] at *
    omega
  refine ⟨?_, hstack⟩
  rintro (⟨ep, hep, hn⟩ | rfl)
  · refine (h ep hep n hn).2 ⟨?_, hhi⟩
    simp only [heapPage, heapStart] at *
    omega
  · exact hstack (le_refl _)

/-- After loading, nothing is behind the start of the heap. -/
theorem Loaded.room {p : Nat} {img : Image} {m m' : Mem} {G G' : Ghost}
    (h : Loaded p img m G m' G') (hout : img.Outside) {n : Nat} (hlo : heapStart ≤ n * 4096)
    (hhi : n < heapPage + capacity) : G'.leaf (p, n) = none := by
  have hroom := hout.room hlo hhi
  by_contra hcon
  obtain hn | hn := h.pages n hcon
  · exact hroom.1 hn
  · exact hroom.2 hn.2

theorem Frame.leaf_none {S : Nat → Prop} {m m' : Mem} {G G' : Ghost} (hF : Frame S m G m' G')
    {q n : Nat} (hq : ¬ S q) (hnone : G.leaf (q, n) = none) : G'.leaf (q, n) = none := by
  have hmap := hF.mapped q n hq
  unfold Ghost.mapped at hmap
  rw [hnone] at hmap
  simpa using hmap

section Room

variable {m₀ : Mem} {k k' : System} {G G' : Ghost}

/-- Something happens in the space `p` only. -/
theorem Roomed.act {p : Nat} (h : Good m₀ k G) (hr : Roomed k G)
    (hF : Frame (· = p) k.mem G k'.mem G')
    (hslot : ∀ i, k'.InUse i → (k.InUse i ∧ k'.space i = k.space i ∧ (k.space i).root ≠ p) ∨
      ∀ n, brk k'.mem (k'.space i) ≤ n * 4096 → n < heapPage + capacity →
        G'.leaf ((k'.space i).root, n) = none) : Roomed k' G' := by
  intro i hi n hlo hhi
  obtain ⟨hold, hspace, hne⟩ | hroom := hslot i hi
  · rw [hspace] at hlo ⊢
    rw [((h.valid i hold).frame h.inv hF hne).2] at hlo
    exact Frame.leaf_none hF hne (hr i hold n hlo hhi)
  · exact hroom n hlo hhi

/-- The current process does something to its own memory. -/
theorem Roomed.own (h : Good m₀ k G) (hr : Roomed k G) (huser : k.inUser = true) {sp : Space}
    {m : Mem} (hroot : sp.root = k.cur.root) (hF : Frame (· = k.cur.root) k.mem G m G')
    (hroom : ∀ n, brk m sp ≤ n * 4096 → n < heapPage + capacity →
      G'.leaf (k.cur.root, n) = none) :
    Roomed { k with space := Function.update k.space k.sched.r sp, mem := m } G' := by
  refine hr.act h hF ?_
  intro i hi
  by_cases hir : i = k.sched.r
  · subst hir
    simp only [Function.update_self]
    rw [hroot]
    exact Or.inr hroom
  · simp only [Function.update_of_ne hir]
    exact Or.inl ⟨hi, by trivial, h.root_ne huser hi hir⟩

/-- It adds pages, none of them behind its heap. -/
theorem Roomed.own_mem (h : Good m₀ k G) (hr : Roomed k G) (huser : k.inUser = true)
    {m : Mem} {N : Nat → Prop} (hB : Builds k.cur.root True N k.mem G m G')
    (hbrk : brk k.mem k.cur ≤ brk m k.cur)
    (hroom : ∀ n, N n → brk m k.cur ≤ n * 4096 → ¬ n < heapPage + capacity) :
    Roomed { k with mem := m } G' := by
  have hroomed : Roomed
      { k with space := Function.update k.space k.sched.r k.cur, mem := m } G' := ?_
  · have hsame : Function.update k.space k.sched.r k.cur = k.space := by
      unfold System.cur
      simp
    rwa [hsame] at hroomed
  · refine hr.own h huser rfl hB.frame ?_
    intro n hlo hhi
    by_contra hcon
    obtain hold | hnew := hB.pages n hcon
    · exact hold (hr _ (h.cur_inUse huser) n (hbrk.trans hlo) hhi)
    · exact hroom n hnew hlo hhi

theorem Roomed.quiet (hr : Roomed k G) (hmem : k'.mem = k.mem) (hspace : k'.space = k.space)
    (huse : ∀ j, k'.InUse j → k.InUse j) : Roomed k' G := by
  intro i hi
  rw [hmem, hspace]
  exact hr i (huse i hi)

/-- A page of stack is not in the range of a heap. -/
theorem growsAt.room (h : Good m₀ k G) (huser : k.inUser = true) {m : Mem} {a n : Nat}
    (hbrk : brk m k.cur = brk k.mem k.cur) (hn : growsAt G k.cur.root a n)
    (hlo : brk m k.cur ≤ n * 4096) : ¬ n < heapPage + capacity := by
  have hheap := (h.cur_valid huser).brk_le h.inv
  obtain ⟨rfl, -, -, hhi⟩ := hn
  simp only [heapStart, stackStart] at *
  omega

theorem Roomed.step (h : Good m₀ k G) (hr : Roomed k G) {act : Action}
    (hout : ∀ img args, act = .exec img args → img.Outside) (hE : Effect k G act k' G') :
    Roomed k' G' := by
  cases hE with
  | fork huser hfree hv hbrk hF hheld hleaf huse hnew =>
      rename_i s c m
      refine hr.act (p := c.root) h (by rw [forked_mem]; exact hF) ?_
      intro i hi
      rw [forked_space, forked_mem]
      by_cases hn : newPID k.sched.q = some i
      · rw [if_pos hn]
        refine Or.inr ?_
        intro n hlo hhi
        rw [hbrk] at hlo
        have hnone : G.leaf (k.cur.root, n) = none := hr _ (h.cur_inUse huser) n hlo hhi
        rw [hleaf, if_pos (Or.inr rfl), hnone]
        rfl
      · rw [if_neg hn]
        have hold := ((huse i).mp hi).resolve_right hn
        refine Or.inl ⟨hold, rfl, ?_⟩
        intro hcon
        have hrole := h.root_role hold
        rw [hcon, hfree] at hrole
        cases hrole
  | reap hfork hreap hi hF hheld htab hleaf huse =>
      rename_i e s i m
      refine hr.act (p := (k.space i).root) h hF ?_
      intro j hj
      obtain ⟨hj, hji⟩ := (huse j).mp hj
      exact Or.inl ⟨hj, rfl, fun hcon => hji (h.distinct j i hj hi hcon)⟩
  | quiet hfork hreap huse => exact hr.quiet rfl rfl (fun j => (huse j).mp)
  | exec huser hroot htab hL hbrk =>
      refine hr.own h huser hroot hL.frame ?_
      intro n hlo hhi
      rw [hbrk] at hlo
      exact hL.room (hout _ _ rfl) hlo hhi
  | malloc huser hB hv hbrk hload =>
      refine hr.own_mem h huser hB (by omega) ?_
      rintro n ⟨-, hhi⟩ hlo
      omega
  | write huser hB hbrk hload =>
      exact hr.own_mem h huser hB hbrk.ge (fun n hn => growsAt.room h huser hbrk hn)
  | read huser hB hbrk =>
      exact hr.own_mem h huser hB hbrk.ge (fun n hn => growsAt.room h huser hbrk hn)
  | segv huser hact huse => exact hr.quiet rfl rfl (fun j => (huse j).mp)
  | stuck huser hact => exact hr.quiet rfl rfl (fun _ hj => hj)

/-- The first process has room behind its heap. -/
theorem Roomed.start {img : Image} (hsched : k.sched = Proc.boot)
    (hL : Loaded (k.space 2).root img m₀ G k.mem G') (hout : img.Outside)
    (hbrk : brk k.mem (k.space 2) = heapStart) : Roomed k G' := by
  intro i hi n hlo hhi
  obtain rfl := (boot_inUse hsched i).mp hi
  rw [hbrk] at hlo
  exact hL.room hout hlo hhi

end Room

end X86Kernel.Kern
