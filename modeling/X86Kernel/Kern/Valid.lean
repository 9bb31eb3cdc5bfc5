import X86Kernel.Kern.Area

/-!
What every process's memory keeps between two system calls: the stack area is
the first of its list, the heap area the second, and the heap is mapped up to
its end.
-/

namespace X86Kernel.Kern

open Lib Paging

def brk (m : Mem) (sp : Space) : Nat := (vmEnd m (vmNext m sp.vm)).toNat

def stackPage : Nat := stackStart / 4096

def heapPage : Nat := heapStart / 4096

structure Valid (m : Mem) (G : Ghost) (sp : Space) : Prop where
  aligned : sp.pml4e = sp.root * 4096
  areas : ∃ s h rest, Listed m G sp.root sp.vm (s :: h :: rest)
  stack_start : vmStart m sp.vm = BitVec.ofNat 64 stackStart
  stack_end : vmEnd m sp.vm = BitVec.ofNat 64 stackEnd
  heap_start : vmStart m (vmNext m sp.vm) = BitVec.ofNat 64 heapStart
  heap : ∃ cnt, brk m sp = heapStart + 4096 * cnt
  heap_pages : ∀ n, heapPage ≤ n → n * 4096 < brk m sp → G.leaf (sp.root, n) ≠ none

/-- The two nodes a process is asked about most. -/
theorem Valid.nodes {m : Mem} {G : Ghost} {sp : Space} (h : Valid m G sp) (hI : Inv m G) :
    ∃ s t rest, Listed m G sp.root sp.vm (s :: t :: rest) ∧ sp.vm = kptr s ∧
      m.word s 5 = kptr t ∧ frameAt sp.vm = s ∧ vmNext m sp.vm = kptr t ∧
      G.role s = .vma sp.root ∧ G.role t = .vma sp.root ∧ s ≠ t := by
  obtain ⟨s, t, rest, hL⟩ := h.areas
  obtain ⟨hvm, hnext, -⟩ := hL.areas
  have hs := hL.lt hI (f := s) (by simp)
  have hframe : frameAt sp.vm = s := by rw [hvm, frameAt_kptr hs]
  have hnodup := hL.nodup hI
  refine ⟨s, t, rest, hL, hvm, hnext, hframe, ?_, (hL.nodes s).mp (by simp),
    (hL.nodes t).mp (by simp), ?_⟩
  · unfold vmNext
    rw [hframe, hnext]
  · rintro rfl
    simp at hnodup

theorem Valid.root {m : Mem} {G : Ghost} {sp : Space} (h : Valid m G sp) :
    G.tab (sp.root, 3, 0) = some sp.root := by
  obtain ⟨s, t, rest, hL⟩ := h.areas
  exact hL.root

/-- What `isr14` and `malloc` read of the areas is in the nodes of the space. -/
theorem Valid.words_eq {m m' : Mem} {G : Ghost} {sp : Space} (h : Valid m G sp) (hI : Inv m G)
    (hword : ∀ f, G.role f = .vma sp.root → m'.word f = m.word f) :
    vmStart m' sp.vm = vmStart m sp.vm ∧ vmEnd m' sp.vm = vmEnd m sp.vm ∧
      vmNext m' sp.vm = vmNext m sp.vm ∧ brk m' sp = brk m sp := by
  obtain ⟨s, t, rest, hL, hvm, hnext, hframe, hn, hs, ht, -⟩ := h.nodes hI
  have hlt := hL.lt hI (f := t) (by simp)
  have hn' : vmNext m' sp.vm = kptr t := by
    unfold vmNext
    rw [hframe, hword s hs, hnext]
  refine ⟨?_, ?_, by rw [hn, hn'], ?_⟩
  · unfold vmStart
    rw [hframe, hword s hs]
  · unfold vmEnd
    rw [hframe, hword s hs]
  · unfold brk vmEnd
    rw [hn, hn', frameAt_kptr hlt, hword t ht]

theorem Valid.heap_start_eq {m m' : Mem} {G : Ghost} {sp : Space} (h : Valid m G sp) (hI : Inv m G)
    (hword : ∀ f, G.role f = .vma sp.root → m'.word f = m.word f) :
    vmStart m' (vmNext m' sp.vm) = BitVec.ofNat 64 heapStart := by
  obtain ⟨s, t, rest, hL, -, -, -, hn, -, ht, -⟩ := h.nodes hI
  have hstart := h.heap_start
  rw [(h.words_eq hI hword).2.2.1, hn] at *
  unfold vmStart at hstart ⊢
  rw [frameAt_kptr (hL.lt hI (by simp))] at hstart ⊢
  rw [hword t ht, hstart]

/-- A process keeps its shape when its nodes are not written and its pages stay
mapped. -/
theorem Valid.keep {m m' : Mem} {G G' : Ghost} {sp : Space} (h : Valid m G sp) (hI : Inv m G)
    (hroot : G'.tab (sp.root, 3, 0) = G.tab (sp.root, 3, 0))
    (hvma : ∀ f, G'.role f = .vma sp.root ↔ G.role f = .vma sp.root)
    (hword : ∀ f, G.role f = .vma sp.root → m'.word f = m.word f)
    (hleaf : ∀ n, G.leaf (sp.root, n) ≠ none → G'.leaf (sp.root, n) ≠ none) :
    Valid m' G' sp := by
  obtain ⟨hstart, hend, hnext, hbrk⟩ := h.words_eq hI hword
  obtain ⟨s, t, rest, hL⟩ := h.areas
  refine ⟨h.aligned, ⟨s, t, rest, hL.congr hroot hvma (fun f hf => by rw [hword f hf])⟩,
    by rw [hstart, h.stack_start], by rw [hend, h.stack_end], h.heap_start_eq hI hword,
    by rw [hbrk]; exact h.heap, ?_⟩
  intro n hlo hhi
  rw [hbrk] at hhi
  exact hleaf n (h.heap_pages n hlo hhi)

/-- While no node is written, the nodes are the same. -/
theorem Valid.vma_iff {m m' : Mem} {G G' : Ghost} {sp : Space} (h : Valid m G sp) (hI : Inv m G)
    (h' : Valid m' G' sp) (hI' : Inv m' G')
    (hword : ∀ f, G.role f = .vma sp.root → m'.word f = m.word f) (f : Nat) :
    G'.role f = .vma sp.root ↔ G.role f = .vma sp.root := by
  obtain ⟨s, t, rest, hL⟩ := h.areas
  obtain ⟨s', t', rest', hL'⟩ := h'.areas
  have hkept : AreaList m' sp.vm (s :: t :: rest) :=
    hL.areas.congr fun g hg => by rw [hword g ((hL.nodes g).mp hg)]
  rw [← hL.nodes, ← hL'.nodes, hkept.unique hL'.areas (fun _ hg => hL.lt hI hg)
    fun _ hg => hL'.lt hI' hg]

/-- What others do leaves a process alone. -/
theorem Valid.frame {S : Nat → Prop} {m m' : Mem} {G G' : Ghost} {sp : Space}
    (h : Valid m G sp) (hI : Inv m G) (hF : Frame S m G m' G') (hp : ¬ S sp.root) :
    Valid m' G' sp ∧ brk m' sp = brk m sp := by
  have hword := fun f hf => hF.node sp.root f hp hf
  refine ⟨h.keep hI (hF.root _ hp) (fun f => hF.vma _ f hp) hword ?_, (h.words_eq hI hword).2.2.2⟩
  intro n hn hcon
  have hmap := hF.mapped sp.root n hp
  unfold Ghost.mapped at hmap
  rw [hcon] at hmap
  exact hn (by simpa using hmap.symm)

/-- A heap has fewer pages than there are frames, one of which is the PML4. -/
theorem Valid.brk_lt {m : Mem} {G : Ghost} {sp : Space} (h : Valid m G sp) (hI : Inv m G) :
    heapStart ≤ brk m sp ∧ brk m sp < heapStart + 4096 * capacity := by
  obtain ⟨cnt, hcnt⟩ := h.heap
  have hpage : ∀ j, j < cnt → ∃ e, G.leaf (sp.root, heapPage + j) = some e := by
    intro j hj
    apply Option.ne_none_iff_exists'.mp
    apply h.heap_pages
    · omega
    · rw [hcnt]
      simp only [heapPage, heapStart]
      omega
  have : Nonempty Pte := ⟨⟨0, false⟩⟩
  choose! e he using hpage
  -- the pages of the heap have different frames
  have hinj : Set.InjOn (fun j => (e j).frame) (Finset.range cnt) := by
    intro i hi j hj heq
    have hpages := hI.refs.inj _ _ _ _ _ (he i (by simpa using hi)) (he j (by simpa using hj)) heq
    omega
  have hroot : G.role sp.root = .table sp.root 3 0 := (hI.trees.role _ _ _ _).mp h.root
  have hmaps : ∀ j ∈ Finset.range cnt, (e j).frame ∈ (Finset.range capacity).erase sp.root := by
    intro j hj
    have hleaf := he j (by simpa using hj)
    refine Finset.mem_erase.mpr ⟨?_, by simpa using hI.leaf_lt hleaf⟩
    intro hcon
    have hdata := hI.refs.target _ _ hleaf
    rw [hcon, hroot] at hdata
    cases hdata
  have hle := Finset.card_le_card_of_injOn _ hmaps hinj
  rw [Finset.card_range, Finset.card_erase_of_mem (by simpa using hI.tab_lt h.root),
    Finset.card_range] at hle
  rw [hcnt]
  simp only [capacity] at hle ⊢
  omega

theorem Valid.brk_le {m : Mem} {G : Ghost} {sp : Space} (h : Valid m G sp) (hI : Inv m G) :
    heapStart ≤ brk m sp ∧ brk m sp ≤ heapStart + 4096 * capacity :=
  ⟨(h.brk_lt hI).1, (h.brk_lt hI).2.le⟩

end X86Kernel.Kern
