import X86Kernel.Kern.Fault

/-!
`malloc`: the heap area grows by whole pages, each of them fresh.
-/

namespace X86Kernel.Kern

open Lib Paging

/-- Writing a node of one list leaves all other spaces alone. -/
theorem node_frame {m : Mem} {G : Ghost} {p t : Nat} (h : Inv m G) (ht : G.role t = .vma p)
    (ws : Nat → Word) : Frame (· = p) m G (m.setFrame t ws) G := by
  have hother : ∀ f, G.role f ≠ .vma p → (m.setFrame t ws).word f = m.word f := by
    intro f hf
    apply Mem.setFrame_word_of_ne
    rintro rfl
    exact hf ht
  refine ⟨fun _ _ _ _ => rfl, fun _ _ _ => rfl, ?_, fun _ _ _ => Iff.rfl, ?_, fun _ => Iff.rfl, ?_,
    rfl⟩
  · intro q n f _ hf
    obtain ⟨e, he, rfl⟩ := Option.map_eq_some_iff.mp hf
    exact hother _ (by simp [h.refs.target _ e he])
  · intro q f hq hf
    exact hother f (by simpa [hf] using hq)
  · intro f hf
    exact hother f (by simp [hf])

/-- Pages that stay as they are show the bytes they showed. -/
theorem Extends.load {p q : Nat} {m m' : Mem} {G G' : Ghost}
    (hE : Extends p (fun _ => False) m G m' G') (h : Inv m G) (h' : Inv m' G')
    (hq : G.tab (q, 3, 0) = some q) {v : Nat} (hv : v / 4096 < userPages)
    (hleaf : G'.leaf (q, v / 4096) = G.leaf (q, v / 4096)) : m'.load q v = m.load q v := by
  rw [h.load hq hv, h'.load (by rw [hE.root h h', hq]) hv]
  unfold Ghost.mapped
  rw [hleaf]
  cases he : G.leaf (q, v / 4096) with
  | none => rfl
  | some e =>
      have hdata := h.refs.target _ e he
      simp [hE.word e.frame (fun hx => hx) (by simp [hdata]) (by simp [hdata])]

/-- The pages `N` of the space `p` have been given frames off the free list, and all other
pages of all spaces are as they were. -/
structure Fresh (p : Nat) (N : Nat → Prop) (m : Mem) (G : Ghost) (m' : Mem) (G' : Ghost) :
    Prop where
  fresh : ∀ n, N n → ∃ f, G.role f = .free ∧ G'.leaf (p, n) = some ⟨f, true⟩
  other : ∀ q n, ¬ (q = p ∧ N n) → G'.leaf (q, n) = G.leaf (q, n)
  draws : Draws m G m' G'

theorem Fresh.refl (p : Nat) (m : Mem) (G : Ghost) : Fresh p (fun _ => False) m G m G :=
  ⟨fun _ hn => hn.elim, fun _ _ _ => rfl, Draws.refl m G⟩

theorem Fresh.trans {p : Nat} {N N' : Nat → Prop} {m₁ m₂ m₃ : Mem} {G₁ G₂ G₃ : Ghost}
    (h : Fresh p N m₁ G₁ m₂ G₂) (h' : Fresh p N' m₂ G₂ m₃ G₃) :
    Fresh p (fun n => N n ∨ N' n) m₁ G₁ m₃ G₃ := by
  refine ⟨?_, ?_, h.draws.trans h'.draws⟩
  · intro n hn
    by_cases hnew : N' n
    · obtain ⟨f, hfree, hleaf⟩ := h'.fresh n hnew
      exact ⟨f, (h.draws f hfree).1, hleaf⟩
    · obtain ⟨f, hfree, hleaf⟩ := h.fresh n (hn.resolve_right hnew)
      exact ⟨f, hfree, by rw [h'.other p n (fun hcon => hnew hcon.2), hleaf]⟩
  · intro q n hn
    rw [h'.other q n (fun hcon => hn ⟨hcon.1, .inr hcon.2⟩),
      h.other q n (fun hcon => hn ⟨hcon.1, .inl hcon.2⟩)]

theorem Fresh.congr {p : Nat} {N N' : Nat → Prop} {m m' : Mem} {G G' : Ghost}
    (h : Fresh p N m G m' G') (hN : ∀ n, N' n ↔ N n) : Fresh p N' m G m' G' :=
  ⟨fun n hn => h.fresh n ((hN n).mp hn),
    fun q n hn => h.other q n (fun hcon => hn ⟨hcon.1, (hN n).mpr hcon.2⟩), h.draws⟩

/-- The space has the nodes it had, and of their words only `vm_end` of the heap area
may be another. -/
structure HeapNodes (sp : Space) (m : Mem) (G : Ghost) (m' : Mem) (G' : Ghost) : Prop where
  nodes : ∀ f, G'.role f = .vma sp.root ↔ G.role f = .vma sp.root
  word : ∀ f i, G.role f = .vma sp.root → ¬ (f = frameAt (vmNext m sp.vm) ∧ i = 1) →
    m'.word f i = m.word f i

theorem HeapNodes.refl (sp : Space) (m : Mem) (G : Ghost) : HeapNodes sp m G m G :=
  ⟨fun _ => Iff.rfl, fun _ _ _ _ => rfl⟩

theorem HeapNodes.trans {sp : Space} {m₁ m₂ m₃ : Mem} {G₁ G₂ G₃ : Ghost}
    (h : HeapNodes sp m₁ G₁ m₂ G₂) (h' : HeapNodes sp m₂ G₂ m₃ G₃)
    (hnext : vmNext m₂ sp.vm = vmNext m₁ sp.vm) : HeapNodes sp m₁ G₁ m₃ G₃ := by
  refine ⟨fun f => by rw [h'.nodes, h.nodes], fun f i hf hfi => ?_⟩
  rw [h'.word f i ((h.nodes f).mpr hf) (by rwa [hnext]), h.word f i hf hfi]

/-- `vm->vm_end = vm->vm_end + 4096`, once the page is mapped. -/
theorem heapEnd_spec {m : Mem} {G : Ghost} {sp : Space} (h : Inv m G) (hhome : Homed G)
    (hv : Valid m G sp) (hmapped : G.leaf (sp.root, brk m sp / 4096) ≠ none) {m' : Mem}
    (hm' : m' = m.set (frameAt (vmNext m sp.vm)) 1 (vmEnd m (vmNext m sp.vm) + 4096)) :
    Builds sp.root True (fun _ => False) m G m' G ∧ Valid m' G sp ∧
      brk m' sp = brk m sp + 4096 ∧ vmNext m' sp.vm = vmNext m sp.vm ∧
      (∀ f, G.role f ≠ .vma sp.root → m'.word f = m.word f) ∧
      ∀ f i, ¬ (f = frameAt (vmNext m sp.vm) ∧ i = 1) → m'.word f i = m.word f i := by
  obtain ⟨s, t, rest, hL, -, hnext, hframe, hn, hs, ht, hst⟩ := hv.nodes h
  have htlt := hL.lt h (f := t) (by simp)
  have hbound := hv.brk_le h
  have hbrk : (m.word t 1).toNat = brk m sp := by
    unfold brk vmEnd
    rw [hn, frameAt_kptr htlt]
  unfold vmEnd at hm'
  rw [hn, frameAt_kptr htlt, Mem.set_eq_setFrame] at hm'
  have hw : ∀ g, g ≠ t → m'.word g = m.word g := by
    intro g hg
    rw [hm', Mem.setFrame_word_of_ne _ _ hg]
  have hwt : ∀ i, m'.word t i = if i = 1 then m.word t 1 + 4096 else m.word t i := by
    intro i
    rw [hm', Mem.setFrame_word_self, Function.update_apply]
  have hnext' : vmNext m' sp.vm = kptr t := by
    unfold vmNext
    rw [hframe, hw s hst, hnext]
  have hbrk' : brk m' sp = brk m sp + 4096 := by
    have hpage : (4096 : Word).toNat = 4096 := rfl
    have hval : brk m' sp = (m.word t 1 + 4096).toNat := by
      unfold brk vmEnd
      rw [hnext', frameAt_kptr htlt, hwt, if_pos rfl]
    rw [hval, BitVec.toNat_add, hbrk, hpage]
    simp only [capacity, heapStart] at hbound
    omega
  have hI' : Inv m' G := by
    rw [hm']
    exact h.setFrame (by simp [ht]) (by simp [ht]) _
  have hF : Frame (· = sp.root) m G m' G := by
    rw [hm']
    exact node_frame h ht _
  have hkernel : KeepsKernel sp.root False m G m' G := by
    refine .of_keeps (hF.steady h hv.root hv.root) (.of_word fun q hq => hw q ?_)
    rintro rfl
    simp [h.root_role hq] at ht
  obtain ⟨cnt, hcnt⟩ := hv.heap
  refine ⟨Builds.of_same hI' hhome hF hkernel,
    ⟨hv.aligned, ⟨s, t, rest, ?_⟩, ?_, ?_, ?_, ⟨cnt + 1, ?_⟩, ?_⟩,
    hbrk', by rw [hnext', hn], ?_, ?_⟩
  · refine hL.congr rfl (fun _ => Iff.rfl) ?_
    intro g _
    by_cases hgt : g = t
    · rw [hgt, hwt, if_neg (by decide)]
    · rw [hw g hgt]
  · unfold vmStart
    rw [hframe, hw s hst, ← hframe]
    exact hv.stack_start
  · unfold vmEnd
    rw [hframe, hw s hst, ← hframe]
    exact hv.stack_end
  · have hstart := hv.heap_start
    unfold vmStart at hstart ⊢
    rw [hn, frameAt_kptr htlt] at hstart
    rw [hnext', frameAt_kptr htlt, hwt, if_neg (by decide), hstart]
  · rw [hbrk', hcnt]
    omega
  · intro n hlo hhi
    by_cases hne : n = brk m sp / 4096
    · rwa [hne]
    · apply hv.heap_pages n hlo
      rw [hbrk', hcnt] at hhi
      rw [hcnt] at hne ⊢
      simp only [heapStart] at hne hhi ⊢
      omega
  · intro f hf
    apply hw
    rintro rfl
    exact hf ht
  · intro f i hfi
    rw [hn, frameAt_kptr htlt] at hfi
    by_cases hft : f = t
    · rw [hft, hwt, if_neg fun hi => hfi ⟨hft, hi⟩]
    · rw [hw f hft]

/-- One page more of heap. -/
theorem malloc_page {m m' : Mem} {G : Ghost} {sp : Space} {vm : Word} (h : Inv m G)
    (hhome : Homed G) (hv : Valid m G sp) (hvm : vmNext m sp.vm = vm)
    (hrun : (do
      let (add, m) ← m.allocatePage
      let m ← m.initPagesForProcess (vmEnd m vm).toNat add sp.root
      some (m.set (frameAt vm) 1 (vmEnd m vm + 4096))) = some m') :
    ∃ G', Builds sp.root True (· = brk m sp / 4096) m G m' G' ∧ Valid m' G' sp ∧
      brk m' sp = brk m sp + 4096 ∧ vmNext m' sp.vm = vm ∧
      (∀ v, v / 4096 < userPages → v / 4096 ≠ brk m sp / 4096 →
        m'.load sp.root v = m.load sp.root v) ∧
      Fresh sp.root (· = brk m sp / 4096) m G m' G' ∧ HeapNodes sp m G m' G' := by
  obtain ⟨⟨a, m₁⟩, halloc, hrun⟩ := Option.bind_eq_some_iff.mp hrun
  obtain ⟨m₂, hmap, hrun⟩ := Option.bind_eq_some_iff.mp hrun
  have hbound := hv.brk_le h
  have hvend : (vmEnd m₁ vm).toNat = brk m sp := by
    obtain ⟨f, -, -, hw, -⟩ := h.alloc halloc
    unfold brk vmEnd
    rw [hvm, hw]
  have hpage : brk m sp / 4096 < userPages := by
    simp only [capacity, heapStart, userPages] at *
    omega
  rw [hvend] at hmap
  obtain ⟨f, G₂, hfree, h₂, hE₂, hleaf₂, hheld₂, -, hdraws₂⟩ := h.mapNew hv.root hpage halloc hmap
  have hsame : ∀ n, n ≠ brk m sp / 4096 → G₂.leaf (sp.root, n) = G.leaf (sp.root, n) := by
    intro n hne
    rw [hleaf₂, Function.update_of_ne (by simpa using hne)]
  have hB₂ : Builds sp.root True (· = brk m sp / 4096) m G m₂ G₂ := by
    refine Builds.of_extends hE₂ h hhome h₂ ?_ hsame ?_ ?_ ?_
    · intro q n hq
      rw [hleaf₂, Function.update_of_ne (by simp [hq])]
    · rintro n rfl
      simp [hleaf₂]
    · intro hnone
      funext g
      rw [hheld₂ g]
      simp [Ghost.mapped, hnone _ rfl]
    · exact .of_map h (hE₂.steady h h₂ hv.root fun _ hx => hx.elim) hv.root hpage halloc hmap
  have hnode : ∀ g, G.role g = .vma sp.root → m₂.word g = m.word g := by
    intro g hg
    exact hE₂.word g (fun hx => hx) (by simp [hg]) (by simp [hg])
  have hv₂ := hv.keep h (hE₂.root h h₂ _) (fun f => hE₂.vma _ f) hnode hB₂.kept
  obtain ⟨-, -, hnext₂, hbrk₂⟩ := hv.words_eq h hnode
  have hm' : m' = m₂.set (frameAt (vmNext m₂ sp.vm)) 1 (vmEnd m₂ (vmNext m₂ sp.vm) + 4096) := by
    rw [hnext₂, hvm]
    exact (Option.some.inj hrun).symm
  obtain ⟨hB₃, hv₃, hbrk₃, hnext₃, hword₃, hend₃⟩ := heapEnd_spec h₂ hB₂.homed hv₂
    (by rw [hbrk₂]; exact hB₂.added _ rfl) hm'
  refine ⟨G₂, (hB₂.trans hB₃).congr ?_ ?_, hv₃, by rw [hbrk₃, hbrk₂],
    by rw [hnext₃, hnext₂, hvm], ?_, ⟨?_, ?_, hdraws₂.trans ?_⟩, fun f => hE₂.vma _ f, ?_⟩
  · intro n
    simp
  · simp
  · intro v hvu hne
    rw [← Extends.load hE₂ h h₂ hv.root hvu (hsame _ hne), h₂.load hv₂.root hvu,
      hB₃.inv.load hv₂.root hvu]
    cases hf : G₂.mapped (sp.root, v / 4096) with
    | none => rfl
    | some g =>
        obtain ⟨e, he, rfl⟩ := Option.map_eq_some_iff.mp hf
        simp [hword₃ e.frame (by simp [h₂.refs.target _ e he])]
  · rintro n rfl
    exact ⟨f, hfree, by rw [hleaf₂, Function.update_self]⟩
  · intro q n hn
    rw [hleaf₂, Function.update_of_ne (by simpa using hn)]
  · exact fun g hg => ⟨hg, hword₃ g (by simp [hg])⟩
  · intro f i hf hfi
    rw [hend₃ f i (by rwa [hnext₂]), hnode f hf]

/-- `malloc`: the pages from the old end of the heap to the new one. -/
theorem malloc_spec {m m' : Mem} {G : Ghost} {sp : Space} {bytes : Int} (h : Inv m G)
    (hhome : Homed G) (hv : Valid m G sp) (hrun : malloc m sp bytes = some m') :
    ∃ G', Builds sp.root True (fun n => brk m sp ≤ n * 4096 ∧ n * 4096 < brk m' sp) m G m' G' ∧
      Valid m' G' sp ∧ brk m' sp = brk m sp + 4096 * mallocPages bytes ∧
      (∀ v, v / 4096 < userPages → ¬ (brk m sp ≤ v ∧ v < brk m' sp) →
        m'.load sp.root v = m.load sp.root v) ∧
      Fresh sp.root (fun n => brk m sp ≤ n * 4096 ∧ n * 4096 < brk m' sp) m G m' G' ∧
      HeapNodes sp m G m' G' := by
  obtain ⟨cnt, hcnt⟩ := hv.heap
  have hdvd : brk m sp % 4096 = 0 := by
    rw [hcnt]
    simp only [heapStart]
    omega
  unfold malloc at hrun
  have hloop := foldlM_range_invariant (P := fun j m₁ => ∃ G₁,
    Builds sp.root True (fun n => brk m sp ≤ n * 4096 ∧ n * 4096 < brk m sp + 4096 * j) m G m₁ G₁ ∧
    Valid m₁ G₁ sp ∧ brk m₁ sp = brk m sp + 4096 * j ∧ vmNext m₁ sp.vm = vmNext m sp.vm ∧
    (∀ v, v / 4096 < userPages → ¬ (brk m sp ≤ v ∧ v < brk m sp + 4096 * j) →
      m₁.load sp.root v = m.load sp.root v) ∧
    Fresh sp.root (fun n => brk m sp ≤ n * 4096 ∧ n * 4096 < brk m sp + 4096 * j) m G m₁ G₁ ∧
    HeapNodes sp m G m₁ G₁) hrun ?_ ?_
  · obtain ⟨G', hB, hv', hbrk, -, hload, hfresh, hnodes⟩ := hloop
    rw [hbrk]
    exact ⟨G', hB, hv', rfl, hload, hfresh, hnodes⟩
  · have hnone : ∀ n, (brk m sp ≤ n * 4096 ∧ n * 4096 < brk m sp + 4096 * 0) ↔ False := by
      intro n
      simp only [iff_false]
      omega
    exact ⟨G, (Builds.refl h hhome).congr hnone (fun hD => hD), hv, rfl, rfl,
      fun _ _ _ => rfl, (Fresh.refl _ m G).congr hnone, .refl sp m G⟩
  · rintro j m₁ m₂ hj ⟨G₁, hB₁, hv₁, hbrk₁, hnext₁, hload₁, hfresh₁, hnodes₁⟩ hbody
    obtain ⟨G₂, hB₂, hv₂, hbrk₂, hnext₂, hload₂, hfresh₂, hnodes₂⟩ :=
      malloc_page hB₁.inv hB₁.homed hv₁ hnext₁ hbody
    rw [hbrk₁] at hB₂ hbrk₂ hload₂ hfresh₂
    have hmore : ∀ n, (brk m sp ≤ n * 4096 ∧ n * 4096 < brk m sp + 4096 * (j + 1)) ↔
        (brk m sp ≤ n * 4096 ∧ n * 4096 < brk m sp + 4096 * j) ∨
          n = (brk m sp + 4096 * j) / 4096 := by
      intro n
      omega
    refine ⟨G₂, (hB₁.trans hB₂).congr hmore ?_, hv₂, by rw [hbrk₂]; omega, hnext₂, ?_,
      (hfresh₁.trans hfresh₂).congr hmore, hnodes₁.trans hnodes₂ hnext₁⟩
    · refine fun hD => ⟨hD, hD, ?_⟩
      intro n hn
      omega
    · intro v hvu hout
      rw [hload₂ v hvu (by omega), hload₁ v hvu (by omega)]

end X86Kernel.Kern
