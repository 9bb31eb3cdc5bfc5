import X86Kernel.Kern.Area

/-!
`removeProcess`: the nodes of the area list, the pages and tables, and the
PML4 go back to the allocator, each once.
-/

namespace X86Kernel.Kern

open Lib Paging

/-- An operation that moves no word. -/
theorem frame_of_word_eq {S : Nat → Prop} {m m' : Mem} {G G' : Ghost} (hword : m'.word = m.word)
    (hkp : m'.kpml4 = m.kpml4) (htab : ∀ q l k, ¬ S q → G'.tab (q, l, k) = G.tab (q, l, k))
    (hmap : ∀ q n, ¬ S q → G'.mapped (q, n) = G.mapped (q, n))
    (hvma : ∀ q f, ¬ S q → (G'.role f = .vma q ↔ G.role f = .vma q))
    (hkern : ∀ f, G'.role f = .kernel ↔ G.role f = .kernel) : Frame S m G m' G' :=
  ⟨htab, hmap, fun _ _ _ _ _ => by rw [hword], hvma, fun _ _ _ _ => by rw [hword], hkern,
    fun _ _ => by rw [hword], hkp⟩

/-- The loop over the areas frees every node and touches nothing else. -/
theorem freeAreas_spec {n : Nat} {m : Mem} {G : Ghost} {p : Nat} {vm : Word} {l : List Nat}
    (h : Inv m G) (hl : AreaList m vm l) (hrole : ∀ f ∈ l, G.role f = .vma p)
    (hnodup : l.Nodup) (hn : l.length < n) :
    ∃ m' G', freeAreas n m vm = some m' ∧ Inv m' G' ∧ m'.word = m.word ∧ m'.kpml4 = m.kpml4 ∧
      G'.tab = G.tab ∧ G'.leaf = G.leaf ∧ G'.held = G.held ∧
      ∀ g, G'.role g = if g ∈ l then .free else G.role g := by
  induction l generalizing n m G vm with
  | nil =>
      obtain rfl : vm = 0 := hl
      obtain ⟨n, rfl⟩ : ∃ n', n = n' + 1 := ⟨n - 1, by simp at hn; omega⟩
      exact ⟨m, G, by simp [freeAreas], h, rfl, rfl, rfl, rfl, rfl, by simp⟩
  | cons f l ih =>
      obtain ⟨rfl, htail⟩ := hl
      obtain ⟨n, rfl⟩ : ∃ n', n = n' + 1 := ⟨n - 1, by simp at hn; omega⟩
      obtain ⟨hfl, hnodup'⟩ := List.nodup_cons.mp hnodup
      have hf : G.role f = .vma p := hrole f (by simp)
      have hlt : f < capacity := h.role_lt (by simp [hf])
      have hheld₀ := h.refs.held f (by simp [hf])
      have h₁ := h.fromVma hf
      obtain ⟨G₂, h₂, htab₂, hleaf₂, hheld₂, hrole₂⟩ := h₁.free (f := f)
        (by simp [Ghost.setHeld, Ghost.setRole]) (by simp [Ghost.setHeld])
      have hrc : (m.page f).refCount ≤ 1 := (h.refs.vma f p hf).le
      have hrole₂' : ∀ g, G₂.role g = if g = f then .free else G.role g := by
        intro g
        rw [hrole₂ g]
        by_cases hg : g = f <;> simp [hg, hrc, Ghost.setHeld, Ghost.setRole]
      obtain ⟨m', G', hrun, h', hw, hkp, htab, hleaf, hheld, hrole'⟩ := ih (n := n) h₂
        (htail.congr (fun g _ => by rw [Mem.free_word])) (by
          intro g hg
          have hne : g ≠ f := by
            rintro rfl
            exact hfl hg
          rw [hrole₂', if_neg hne]
          exact hrole g (by simp [hg])) hnodup' (by simp at hn; omega)
      have hstep : freeAreas (n + 1) m (kptr f) = some m' := by
        rw [freeAreas, if_neg (kptr_ne_zero hlt), kptr_toNat hlt, kptr_sub, vmNext,
          frameAt_kptr hlt]
        exact hrun
      refine ⟨m', G', hstep, h', by rw [hw, Mem.free_word], by rw [hkp, Mem.free_kpml4],
        by rw [htab, htab₂]; rfl, by rw [hleaf, hleaf₂]; rfl, ?_, ?_⟩
      · rw [hheld, hheld₂]
        funext g
        by_cases hg : g = f <;> simp [Ghost.setHeld, Ghost.setRole, hg, hheld₀]
      · intro g
        rw [hrole', hrole₂']
        by_cases hg : g = f
        · simp [hg]
        · simp [hg]

/-- `removeProcess` always comes to its end, and the address space is gone. -/
theorem removeProcess_spec {m : Mem} {G : Ghost} {sp : Space} {l : List Nat} (h : Inv m G)
    (hL : Listed m G sp.root sp.vm l) (halign : sp.pml4e = sp.root * 4096) :
    ∃ m' G', removeProcess m sp = some m' ∧ Inv m' G' ∧ Frame (· = sp.root) m G m' G' ∧
      G'.held = G.held ∧ G'.tab (sp.root, 3, 0) = none ∧
      (∀ f, G'.role f ≠ .vma sp.root) ∧
      (∀ q n, G'.leaf (q, n) = if q = sp.root then none else G.leaf (q, n)) := by
  obtain ⟨m₁, G₁, hrun₁, h₁, hw₁, hkp₁, htab₁, hleaf₁, hheld₁, hrole₁⟩ :=
    freeAreas_spec (n := fuel) (p := sp.root) h hL.areas (fun f hf => (hL.nodes f).mp hf)
      (hL.nodup h) (by
        have hlen := hL.length_le h
        simp only [capacity, fuel] at *
        omega)
  have hroot₁ : G₁.tab (sp.root, 3, 0) = some sp.root := by rw [htab₁, hL.root]
  obtain ⟨G₂, h₂, hs₂, hroot₂, hheld₂, hleaf₂, hzero₂⟩ := h₁.deallocPml4 hroot₁
  have hprole₂ := (h₂.trees.role _ _ _ _).mp hroot₂
  have h₃ := h₂.uproot hroot₂ hzero₂
  obtain ⟨G₄, h₄, htab₄, hleaf₄, hheld₄, hrole₄⟩ := h₃.free (f := sp.root)
    (by simp [Ghost.setTab, Ghost.setHeld, Ghost.setRole]) (by simp [Ghost.setTab, Ghost.setHeld])
  have hrc : ((m₁.deallocPml4 sp.root).page sp.root).refCount ≤ 1 :=
    (h₂.refs.table _ _ _ _ hprole₂).le
  have hrole₄' : ∀ g, G₄.role g = if g = sp.root then .free else G₂.role g := by
    intro g
    rw [hrole₄ g]
    by_cases hg : g = sp.root <;> simp [hg, hrc, Ghost.setTab, Ghost.setHeld, Ghost.setRole]
  have hrun : removeProcess m sp = some ((m₁.deallocPml4 sp.root).free sp.pml4e) := by
    unfold removeProcess
    rw [hrun₁]
    rfl
  rw [halign] at hrun
  refine ⟨_, G₄, hrun, h₄, ?_, ?_, ?_, ?_, ?_⟩
  · -- the nodes, then the tree, then the PML4
    have hF₁ : Frame (· = sp.root) m G m₁ G₁ := by
      refine frame_of_word_eq hw₁ hkp₁ (fun q _ _ _ => by rw [htab₁]) ?_ ?_ ?_
      · intro q n _
        unfold Ghost.mapped
        rw [hleaf₁]
      · intro q f hq
        rw [hrole₁ f]
        split_ifs with hf
        · simp [(hL.nodes f).mp hf, Ne.symm hq]
        · exact Iff.rfl
      · intro f
        rw [hrole₁ f]
        split_ifs with hf
        · simp [(hL.nodes f).mp hf]
        · exact Iff.rfl
    have hF₂ : Frame (· = sp.root) m₁ G₁ (m₁.deallocPml4 sp.root) G₂ := by
      apply hs₂.frame h₁ h₂
      intro q n hq
      unfold Ghost.mapped
      rw [hleaf₂, if_neg hq]
    have hF₃ : Frame (· = sp.root) (m₁.deallocPml4 sp.root) G₂
        ((m₁.deallocPml4 sp.root).free (sp.root * 4096)) G₄ := by
      refine frame_of_word_eq (by simp) (by simp) ?_ ?_ ?_ ?_
      · intro q l k hq
        rw [htab₄]
        simp [Ghost.setTab, Ghost.setHeld, Ghost.setRole, hq]
      · intro q n _
        unfold Ghost.mapped
        rw [hleaf₄]
        rfl
      · intro q f _
        rw [hrole₄']
        split_ifs with hf
        · simp [hf, hprole₂]
        · exact Iff.rfl
      · intro f
        rw [hrole₄']
        split_ifs with hf
        · simp [hf, hprole₂]
        · exact Iff.rfl
    exact (hF₁.trans hF₂).trans hF₃
  · have hheld₀ := h₂.refs.held sp.root (by simp [hprole₂])
    rw [hheld₄, ← hheld₁, ← hheld₂]
    funext g
    by_cases hg : g = sp.root <;>
      simp [Ghost.setTab, Ghost.setHeld, Ghost.setRole, hg, hheld₀]
  · rw [htab₄]
    simp [Ghost.setTab]
  · intro f hf
    rw [hrole₄'] at hf
    split_ifs at hf with hfr
    obtain hsame | ⟨hfree, -⟩ := hs₂.role f
    · rw [hsame, hrole₁ f] at hf
      split_ifs at hf with hfl
      exact hfl ((hL.nodes f).mpr hf)
    · rw [hfree] at hf
      cases hf
  · intro q n
    rw [hleaf₄]
    change G₂.leaf (q, n) = _
    rw [hleaf₂, hleaf₁]

end X86Kernel.Kern
