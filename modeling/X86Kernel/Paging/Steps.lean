import X86Kernel.Paging.Effects

/-!
The elementary effects on the whole invariant. Each lemma names the ghost
state after the effect, so that the specifications of the functions of
`paging.c` can say exactly what they changed.
-/

namespace X86Kernel.Paging

open Lib

theorem Linear.congr {m m' : Mem} {role role' : Nat → Role} (h : Linear m role)
    (hrole : ∀ f, role' f = .kernel ↔ role f = .kernel)
    (hword : ∀ f, role f = .kernel → m'.word f = m.word f)
    (hkp : m'.kpml4 = m.kpml4) : Linear m' role' := by
  intro f hf
  obtain ⟨h4, h3, h2, hr4, hr3, hr2, hr1, hleaf⟩ := h f (fun hk => hf ((hrole f).mpr hk))
  simp only [hkp, hword _ hr4, hword _ hr3, hword _ hr2, hword _ hr1]
  exact ⟨h4, h3, h2, (hrole _).mpr hr4, (hrole _).mpr hr3, (hrole _).mpr hr2,
    (hrole _).mpr hr1, hleaf⟩

theorem Inv.role_lt {m : Mem} {G : Ghost} (h : Inv m G) {f : Nat} (hf : G.role f ≠ .kernel) :
    f < capacity := (h.pool.managed f hf).1

theorem Inv.leaf_lt {m : Mem} {G : Ghost} (h : Inv m G) {x : Nat × Nat} {e : Pte}
    (he : G.leaf x = some e) : e.frame < capacity :=
  h.role_lt (by simp [h.refs.target x e he])

theorem Inv.tab_lt {m : Mem} {G : Ghost} (h : Inv m G) {p l k t : Nat}
    (ht : G.tab (p, l, k) = some t) : t < capacity :=
  h.role_lt (by simp [(h.trees.role p l k t).mp ht])

/-- Words outside of the trees and of the kernel do not matter, nor does the
kernel's entry of a PML4. -/
theorem Inv.congr_word {m m' : Mem} {G : Ghost} (h : Inv m G) (hpage : m'.page = m.page)
    (hhead : m'.head = m.head) (hkp : m'.kpml4 = m.kpml4)
    (hkern : ∀ f, G.role f = .kernel → m'.word f = m.word f)
    (hword : ∀ t p l k i, G.role t = .table p l k → i < 512 → (l = 3 → i < 511) →
      m'.word t i = m.word t i) : Inv m' G := by
  refine ⟨h.pool.congr_mem hhead ?_, h.linear.congr (fun _ => Iff.rfl) hkern hkp,
    h.trees.congr_word hword, ?_⟩
  · intro f
    simp [hpage]
  · rw [hpage]
    exact h.refs

/-- A user page or an area node is written. -/
theorem Inv.setFrame {m : Mem} {G : Ghost} (h : Inv m G) {f : Nat} (hk : G.role f ≠ .kernel)
    (ht : ∀ p l k, G.role f ≠ .table p l k) (ws : Nat → Word) : Inv (m.setFrame f ws) G := by
  refine h.congr_word rfl rfl rfl ?_ ?_
  · intro g hg
    exact m.setFrame_word_of_ne ws (fun hcon => hk (hcon ▸ hg))
  · intro t p l k i hrole _ _
    have hne : t ≠ f := by
      rintro rfl
      exact ht p l k hrole
    rw [m.setFrame_word_of_ne ws hne]

theorem Mem.set_eq_setFrame (m : Mem) (f i : Nat) (w : Word) :
    m.set f i w = m.setFrame f (Function.update (m.word f) i w) := rfl

theorem Inv.alloc {m m' : Mem} {G : Ghost} {a : Nat} (h : Inv m G)
    (halloc : m.allocatePage = some (a, m')) :
    ∃ f, G.role f = .free ∧ a = f * 4096 ∧ m'.word = m.word ∧ m'.kpml4 = m.kpml4 ∧
      (m'.page f).refCount = 1 ∧ Inv m' ((G.setRole f .data).setHeld f 1) := by
  obtain ⟨f, hfree, ha, hword, hkp, hrc, hpool⟩ := h.pool.alloc halloc
  refine ⟨f, hfree, ha, hword, hkp, by simpa using congrFun hrc f, hpool, ?_, ?_, ?_⟩
  · refine h.linear.congr ?_ (fun g _ => by rw [hword]) hkp
    intro g
    simp only [Ghost.setHeld, Ghost.setRole, Function.update_apply]
    split_ifs with hg
    · simp [hg, hfree]
    · exact Iff.rfl
  · rw [hword]
    exact h.trees.setRole_setHeld (by simp [hfree]) (by simp) 1
  · rw [hrc]
    apply h.refs.setRole
    · intro g hg
      simp [hg]
    · rintro x e he rfl
      simp [h.refs.target x e he] at hfree
    all_goals simp

/-- `free` on a frame the kernel holds a reference to: the frame goes back to
the list with its last reference. -/
theorem Inv.free {m : Mem} {G : Ghost} {f : Nat} (h : Inv m G) (hf : G.role f = .data)
    (hheld : 0 < G.held f) :
    ∃ G', Inv (m.free (f * 4096)) G' ∧ G'.tab = G.tab ∧ G'.leaf = G.leaf ∧
      G'.held = Function.update G.held f (G.held f - 1) ∧
      ∀ g, G'.role g = if g = f ∧ (m.page f).refCount ≤ 1 then .free else G.role g := by
  have hnk : G.role f ≠ .kernel := by simp [hf]
  have haddr := (h.pool.managed f hnk).2
  have hcount := h.refs.count f hf
  have hidx := frame_div f
  by_cases hrc : 1 < (m.page f).refCount
  · have hmem : m.free (f * 4096) =
        m.setPage f { m.page f with refCount := (m.page f).refCount - 1 } := by
      simp [Mem.free, hidx, haddr, hrc]
    refine ⟨G.setHeld f (G.held f - 1), ?_, rfl, rfl, rfl, ?_⟩
    swap
    · intro g
      rw [if_neg (by omega)]
      rfl
    rw [hmem]
    refine ⟨?_, h.linear, h.trees.congr_role rfl rfl (fun _ _ _ _ => Iff.rfl), ?_⟩
    · refine h.pool.congr_mem rfl ?_
      intro g
      by_cases hg : g = f <;> simp [Mem.setPage, hg]
    · have hupd : (fun g => ((m.setPage f { m.page f with
          refCount := (m.page f).refCount - 1 }).page g).refCount) =
          Function.update (fun g => (m.page g).refCount) f ((m.page f).refCount - 1) := by
        funext g
        by_cases hg : g = f <;> simp [Mem.setPage, hg]
      rw [hupd]
      apply h.refs.setCount hf
      · omega
      · omega
      · rintro x e he ho rfl
        have := h.refs.own x e he ho
        omega
  · have hmem : m.free (f * 4096) =
        { m.setPage f { m.page f with free := true, next := m.head } with head := some f } := by
      simp [Mem.free, hidx, haddr, hrc]
    have hone : G.held f - 1 = 0 := by omega
    refine ⟨(G.setRole f .free).setHeld f 0, ?_, rfl, rfl, by rw [hone]; rfl, ?_⟩
    · rw [hmem]
      refine ⟨h.pool.push (by simp [hf]) hnk, ?_, ?_, ?_⟩
      · refine h.linear.congr ?_ (fun g _ => rfl) rfl
        intro g
        simp only [Ghost.setHeld, Ghost.setRole, Function.update_apply]
        split_ifs with hg
        · simp [hg, hf]
        · exact Iff.rfl
      · exact h.trees.setRole_setHeld (by simp [hf]) (by simp) 0
      · apply h.refs.setRole
        · intro g hg
          simp [Mem.setPage, hg]
        · intro x e he
          exact h.refs.unmapped_of_held hf (by omega) he
        all_goals simp
    · intro g
      have hle : (m.page f).refCount ≤ 1 := by omega
      by_cases hg : g = f <;> simp [Ghost.setHeld, Ghost.setRole, hg, hle]

/-- `increfcount` on a page nobody may write. -/
theorem Inv.incref {m : Mem} {G : Ghost} {f : Nat} (h : Inv m G) (hf : G.role f = .data)
    (hshared : ∀ x e, G.leaf x = some e → e.own = true → e.frame ≠ f) :
    Inv (m.increfcount (f * 4096)) (G.setHeld f (G.held f + 1)) := by
  have hcount := h.refs.count f hf
  have hidx := frame_div f
  refine ⟨?_, h.linear, h.trees.congr_role rfl rfl (fun _ _ _ _ => Iff.rfl), ?_⟩
  · refine h.pool.congr_mem rfl ?_
    intro g
    by_cases hg : g = f <;> simp [Mem.increfcount, Mem.setPage, hg, hidx]
  · have hupd : (fun g => ((m.increfcount (f * 4096)).page g).refCount) =
        Function.update (fun g => (m.page g).refCount) f ((m.page f).refCount + 1) := by
      funext g
      by_cases hg : g = f <;> simp [Mem.increfcount, Mem.setPage, hg, hidx]
    rw [hupd]
    apply h.refs.setCount hf
    · omega
    · omega
    · exact hshared

/-- The roles of frames other than `f` and the kernel's own do not change when
`f` becomes a table, a node or a page. -/
theorem Pool.setRole {m : Mem} {role : Nat → Role} (h : Pool m role) {f : Nat} {r : Role}
    (hf : role f ≠ .free) (hk : role f ≠ .kernel) (hr : r ≠ .free) (hr' : r ≠ .kernel) :
    Pool m (Function.update role f r) := by
  apply h.congr_role
  · intro g
    by_cases hg : g = f
    · simp [hg, hf, hr]
    · simp [hg]
  · intro g
    by_cases hg : g = f
    · simp [hg, hk, hr']
    · simp [hg]

theorem Linear.setRole {m m' : Mem} {role : Nat → Role} (h : Linear m role) {f : Nat}
    {r : Role} (hk : role f ≠ .kernel) (hr : r ≠ .kernel)
    (hword : ∀ g, role g = .kernel → m'.word g = m.word g) (hkp : m'.kpml4 = m.kpml4) :
    Linear m' (Function.update role f r) := by
  refine h.congr ?_ hword hkp
  intro g
  by_cases hg : g = f
  · simp [hg, hk, hr]
  · simp [hg]

/-- A table or area node is not a user page, so no entry points at it. -/
theorem Inv.not_mapped {m : Mem} {G : Ghost} (h : Inv m G) {f : Nat} (hf : G.role f ≠ .data)
    {x : Nat × Nat} {e : Pte} (he : G.leaf x = some e) : e.frame ≠ f := by
  rintro rfl
  exact hf (h.refs.target x e he)

/-- A cleared frame in the kernel's hands becomes the table behind entry `i` of
the table `t`. -/
theorem Inv.hang {m : Mem} {G : Ghost} (h : Inv m G) {p l k t i f : Nat}
    (ht : G.tab (p, l + 1, k) = some t) (hi : i < 512) (hkey : k * 512 + i < keys l)
    (hnone : G.tab (p, l, k * 512 + i) = none) (hf : G.role f = .data)
    (hrc : (m.page f).refCount = 1) (hheld : G.held f = 1)
    (hzero : ∀ j < 512, m.word f j = 0) :
    Inv (m.set t i (tableWord (some f)))
      (((G.setRole f (.table p l (k * 512 + i))).setHeld f 0).setTab p l (k * 512 + i)
        (some f)) := by
  have htrole := (h.trees.role _ _ _ _).mp ht
  refine ⟨?_, ?_, ?_, ?_⟩
  · exact (h.pool.setRole (by simp [hf]) (by simp [hf]) (by simp) (by simp)).congr_mem rfl
      (fun g => ⟨rfl, rfl, rfl⟩)
  · refine h.linear.setRole (by simp [hf]) (by simp) ?_ rfl
    intro g hg
    exact m.set_word_of_ne _ (fun hcon => by simp [hcon, htrole] at hg)
  · exact (h.trees.hang ht hi hkey hnone hf hzero).congr_role rfl rfl (fun _ _ _ _ => Iff.rfl)
  · refine Refs.setTab ?_ _ _ _ _
    apply h.refs.setRole
    · exact fun g _ => rfl
    · intro x e he
      exact h.refs.unmapped_of_held hf (by omega) he
    all_goals simp [hrc]

/-- A table whose entries are all clear is taken out of its parent and is in
the kernel's hands again. -/
theorem Inv.cut {m : Mem} {G : Ghost} (h : Inv m G) {p l k t f : Nat}
    (hf : G.tab (p, l, k) = some f) (hl : l < 3) (ht : G.tab (p, l + 1, k / 512) = some t)
    (hzero : ∀ j < 512, m.word f j = 0) :
    Inv (m.set t (k % 512) 0)
      (((G.setRole f .data).setHeld f 1).setTab p l k none) := by
  have hfrole := (h.trees.role _ _ _ _).mp hf
  have htrole := (h.trees.role _ _ _ _).mp ht
  refine ⟨?_, ?_, ?_, ?_⟩
  · exact (h.pool.setRole (by simp [hfrole]) (by simp [hfrole]) (by simp) (by simp)).congr_mem rfl
      (fun g => ⟨rfl, rfl, rfl⟩)
  · refine h.linear.setRole (by simp [hfrole]) (by simp) ?_ rfl
    intro g hg
    exact m.set_word_of_ne _ (fun hcon => by simp [hcon, htrole] at hg)
  · exact (h.trees.cut hf hl ht hzero).congr_role rfl rfl (fun _ _ _ _ => Iff.rfl)
  · refine Refs.setTab ?_ _ _ _ _
    apply h.refs.setRole
    · exact fun g _ => rfl
    · intro x e he
      exact h.not_mapped (by simp [hfrole]) he
    all_goals simp [h.refs.table f p l k hfrole]

/-- A cleared frame in the kernel's hands becomes a PML4. -/
theorem Inv.plant {m : Mem} {G : Ghost} (h : Inv m G) {f : Nat} (hf : G.role f = .data)
    (hrc : (m.page f).refCount = 1) (hheld : G.held f = 1)
    (hzero : ∀ j < 511, m.word f j = 0) :
    Inv m (((G.setRole f (.table f 3 0)).setHeld f 0).setTab f 3 0 (some f)) := by
  refine ⟨?_, ?_, ?_, ?_⟩
  · exact h.pool.setRole (by simp [hf]) (by simp [hf]) (by simp) (by simp)
  · exact h.linear.setRole (by simp [hf]) (by simp) (fun _ _ => rfl) rfl
  · exact (h.trees.plant hf hzero).congr_role rfl rfl (fun _ _ _ _ => Iff.rfl)
  · refine Refs.setTab ?_ _ _ _ _
    apply h.refs.setRole
    · exact fun g _ => rfl
    · intro x e he
      exact h.refs.unmapped_of_held hf (by omega) he
    all_goals simp [hrc]

/-- A PML4 whose user entries are all clear is in the kernel's hands again. -/
theorem Inv.uproot {m : Mem} {G : Ghost} (h : Inv m G) {p : Nat}
    (hp : G.tab (p, 3, 0) = some p) (hzero : ∀ j < 511, m.word p j = 0) :
    Inv m (((G.setRole p .data).setHeld p 1).setTab p 3 0 none) := by
  have hrole := (h.trees.role _ _ _ _).mp hp
  refine ⟨?_, ?_, ?_, ?_⟩
  · exact h.pool.setRole (by simp [hrole]) (by simp [hrole]) (by simp) (by simp)
  · exact h.linear.setRole (by simp [hrole]) (by simp) (fun _ _ => rfl) rfl
  · exact (h.trees.uproot hp hzero).congr_role rfl rfl (fun _ _ _ _ => Iff.rfl)
  · refine Refs.setTab ?_ _ _ _ _
    apply h.refs.setRole
    · exact fun g _ => rfl
    · intro x e he
      exact h.not_mapped (by simp [hrole]) he
    all_goals simp [h.refs.table p p 3 0 hrole]

/-- A frame in the kernel's hands becomes a node of an area list. -/
theorem Inv.toVma {m : Mem} {G : Ghost} (h : Inv m G) {f : Nat} (hf : G.role f = .data)
    (hrc : (m.page f).refCount = 1) (hheld : G.held f = 1) (p : Nat) :
    Inv m ((G.setRole f (.vma p)).setHeld f 0) := by
  refine ⟨?_, ?_, ?_, ?_⟩
  · exact h.pool.setRole (by simp [hf]) (by simp [hf]) (by simp) (by simp)
  · exact h.linear.setRole (by simp [hf]) (by simp) (fun _ _ => rfl) rfl
  · exact h.trees.setRole_setHeld (by simp [hf]) (by simp) 0
  · apply h.refs.setRole
    · exact fun g _ => rfl
    · intro x e he
      exact h.refs.unmapped_of_held hf (by omega) he
    all_goals simp [hrc]

/-- A node of an area list is taken back into the kernel's hands. -/
theorem Inv.fromVma {m : Mem} {G : Ghost} (h : Inv m G) {f p : Nat}
    (hf : G.role f = .vma p) : Inv m ((G.setRole f .data).setHeld f 1) := by
  refine ⟨?_, ?_, ?_, ?_⟩
  · exact h.pool.setRole (by simp [hf]) (by simp [hf]) (by simp) (by simp)
  · exact h.linear.setRole (by simp [hf]) (by simp) (fun _ _ => rfl) rfl
  · exact h.trees.setRole_setHeld (by simp [hf]) (by simp) 1
  · apply h.refs.setRole
    · exact fun g _ => rfl
    · intro x e he
      exact h.not_mapped (by simp [hf]) he
    all_goals simp [h.refs.vma f p hf]

/-- One page table entry is rewritten. -/
theorem Inv.setLeaf {m : Mem} {G : Ghost} (h : Inv m G) {p k t i : Nat}
    (ht : G.tab (p, 0, k) = some t) (hi : i < 512) {v : Option Pte} (held : Nat → Nat)
    (hv : ∀ e, v = some e → G.role e.frame = .data ∧
      (e.own = true → (m.page e.frame).refCount = 1) ∧
      ∀ n' e', n' ≠ k * 512 + i → G.leaf (p, n') = some e' → e'.frame ≠ e.frame)
    (hheld : ∀ f, held f + (if v.map Pte.frame = some f then 1 else 0) =
      G.held f + (if G.mapped (p, k * 512 + i) = some f then 1 else 0)) :
    Inv (m.set t i (leafWord v))
      { G with leaf := Function.update G.leaf (p, k * 512 + i) v, held := held } := by
  have htrole := (h.trees.role _ _ _ _).mp ht
  refine ⟨?_, ?_, h.trees.setLeaf ht hi v held, h.refs.setLeaf hv hheld⟩
  · exact h.pool.congr_mem rfl (fun g => ⟨rfl, rfl, rfl⟩)
  · refine h.linear.congr (fun _ => Iff.rfl) ?_ rfl
    intro g hg
    exact m.set_word_of_ne _ (fun hcon => by simp [hcon, htrole] at hg)

end X86Kernel.Paging
