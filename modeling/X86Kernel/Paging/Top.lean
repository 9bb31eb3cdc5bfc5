import X86Kernel.Paging.Extend
import X86Kernel.Paging.Release

/-!
The kernel's half of an address space: entry 511 of its PML4. `init_pages_for_process`
writes it, `copytables` copies it and `dealloc_pml4` stops in front of it; for
everything else it is out of reach.
-/

namespace X86Kernel.Paging

open Lib

/-- The entry for the kernel's half: `(k_cr3[511] & 0xFFFFFFFFFFFFF000) | 7`. -/
def Mem.kernelEntry (m : Mem) : Word := entry (addrOf (m.word m.kpml4 511)) 7

/-- Entry 511 stays what it is, or becomes the kernel's, in the PML4 of every
address space. -/
def KeepsTop (G : Ghost) (m m' : Mem) : Prop :=
  ∀ q, G.tab (q, 3, 0) = some q →
    m'.word q 511 = m.word q 511 ∨ m'.word q 511 = m.kernelEntry

structure Steady (m : Mem) (G : Ghost) (m' : Mem) (G' : Ghost) : Prop where
  root : ∀ q, G.tab (q, 3, 0) = some q → G'.tab (q, 3, 0) = some q
  entry : m'.kernelEntry = m.kernelEntry

theorem KeepsTop.trans {m₁ m₂ m₃ : Mem} {G G₂ : Ghost} (h : KeepsTop G m₁ m₂)
    (hs : Steady m₁ G m₂ G₂) (h' : KeepsTop G₂ m₂ m₃) : KeepsTop G m₁ m₃ := by
  intro q hq
  obtain hsame | hkernel := h' q (hs.root q hq)
  · rw [hsame]
    exact h q hq
  · rw [hs.entry] at hkernel
    exact Or.inr hkernel

theorem Steady.refl (m : Mem) (G : Ghost) : Steady m G m G := ⟨fun _ hq => hq, rfl⟩

theorem Steady.trans {m₁ m₂ m₃ : Mem} {G₁ G₂ G₃ : Ghost} (h : Steady m₁ G₁ m₂ G₂)
    (h' : Steady m₂ G₂ m₃ G₃) : Steady m₁ G₁ m₃ G₃ :=
  ⟨fun q hq => h'.root q (h.root q hq), by rw [h'.entry, h.entry]⟩

section Op

variable {m m' : Mem} {G G' : Ghost} {p q t : Nat}

theorem Inv.root_role (h : Inv m G) (hq : G.tab (q, 3, 0) = some q) :
    G.role q = .table q 3 0 := (h.trees.role _ _ _ _).mp hq

/-- The kernel's PML4 is the kernel's. -/
theorem Inv.kpml4_kernel (h : Inv m G) (hq : G.tab (q, 3, 0) = some q) :
    G.role m.kpml4 = .kernel :=
  (h.linear q (by simp [h.root_role hq])).2.2.2.1

theorem kernelEntry_eq (hkp : m'.kpml4 = m.kpml4) (hword : m'.word m.kpml4 = m.word m.kpml4) :
    m'.kernelEntry = m.kernelEntry := by
  unfold Mem.kernelEntry
  rw [hkp, hword]

theorem KeepsTop.of_word (h : ∀ q, G.tab (q, 3, 0) = some q → m'.word q = m.word q) :
    KeepsTop G m m' := fun q hq => Or.inl (by rw [h q hq])

theorem Extends.steady {X : Nat → Prop} (hE : Extends p X m G m' G') (h : Inv m G)
    (h' : Inv m' G') (hp : G.tab (p, 3, 0) = some p) (hX : ∀ g, X g → G.role g ≠ .kernel) :
    Steady m G m' G' := by
  have hkernel := h.kpml4_kernel hp
  refine ⟨fun q hq => by rw [hE.root h h' q, hq], kernelEntry_eq hE.kpml4 ?_⟩
  exact hE.word _ (fun hx => hX _ hx hkernel) (by simp [hkernel]) (by simp [hkernel])

theorem Frame.steady (hF : Frame (· = p) m G m' G') (h : Inv m G)
    (hp : G.tab (p, 3, 0) = some p) (hp' : G'.tab (p, 3, 0) = some p) : Steady m G m' G' := by
  refine ⟨fun q hq => ?_, kernelEntry_eq hF.kpml4 (hF.kword _ (h.kpml4_kernel hp))⟩
  by_cases hqp : q = p
  · rw [hqp, hp']
  · rw [hF.root q hqp, hq]

/-- The descent writes the entries below 511 of a PML4 only. -/
theorem Inv.ensure_top {l k i f : Nat} (h : Inv m G) (ht : G.tab (p, l + 1, k) = some t)
    (hi : i < 512) (hkey : k * 512 + i < keys l) (hrun : m.ensure t i = some (f, m'))
    (hq : G.tab (q, 3, 0) = some q) : m'.word q 511 = m.word q 511 := by
  have hqrole := h.root_role hq
  by_cases hpres : present (m.word t i) = true
  · rw [Mem.ensure_present hpres] at hrun
    obtain ⟨-, rfl⟩ : _ ∧ m = m' := by simpa using hrun
    rfl
  · rw [Mem.ensure_absent hpres] at hrun
    obtain ⟨⟨a, m₁⟩, halloc, hrun⟩ := Option.bind_eq_some_iff.mp hrun
    obtain ⟨f', hfree, rfl, hw, -⟩ := h.alloc halloc
    simp only [if_true, Option.some.injEq, Prod.mk.injEq, frame_div] at hrun
    obtain ⟨-, rfl⟩ := hrun
    have hqf : q ≠ f' := by
      rintro rfl
      simp [hqrole] at hfree
    rw [Mem.memset0, Mem.setFrame_word_of_ne _ _ hqf, Mem.set_word, if_neg, hw]
    rintro ⟨rfl, rfl⟩
    have htrole := (h.trees.role _ _ _ _).mp ht
    rw [hqrole] at htrole
    obtain ⟨-, rfl, rfl⟩ : q = p ∧ l = 2 ∧ 0 = k := by simpa using htrole
    simp [keys] at hkey

/-- `init_pages_for_process` gives the process the kernel's entry, and the entries of
the others are what they were. -/
theorem Inv.initPages_top {v a : Nat} (h : Inv m G) (hp : G.tab (p, 3, 0) = some p)
    (hv : v / 4096 < userPages) (hrun : m.initPagesForProcess v a p = some m')
    (hq : G.tab (q, 3, 0) = some q) :
    m'.word q 511 = if q = p then m.kernelEntry else m.word q 511 := by
  have h₀ := h.linkKernel hp m.kernelEntry
  unfold Mem.initPagesForProcess at hrun
  rw [Mem.mapAt_eq] at hrun
  simp only [idx_39, idx_30, idx_21, idx_12] at hrun
  generalize v / 4096 = n at *
  have hn : n < 68585259008 := hv
  obtain ⟨hkey, hkey', -⟩ := page_keys hv
  obtain ⟨⟨p3, m₃⟩, hrun₃, hrun⟩ := Option.bind_eq_some_iff.mp hrun
  obtain ⟨⟨p2, m₂⟩, hrun₂, hrun⟩ := Option.bind_eq_some_iff.mp hrun
  obtain ⟨⟨p1, m₁⟩, hrun₁, hrun⟩ := Option.bind_eq_some_iff.mp hrun
  obtain rfl := Option.some.inj hrun
  have hi₃ : n / 134217728 % 512 < 512 := by omega
  have hk₃ : 0 * 512 + n / 134217728 % 512 < keys 2 := by
    simp only [keys]
    omega
  obtain ⟨G₃, h₃, hg₃, -, -, ht₃, -⟩ := h₀.ensure hp hi₃ hk₃ hrun₃
  have hi₂ : n / 262144 % 512 < 512 := by omega
  have hk₂ : (0 * 512 + n / 134217728 % 512) * 512 + n / 262144 % 512 < keys 1 := by
    rw [hkey, keys]
    omega
  obtain ⟨G₂, h₂, hg₂, -, -, ht₂, -⟩ := h₃.ensure ht₃ hi₂ hk₂ hrun₂
  have hi₁ : n / 512 % 512 < 512 := by omega
  have hk₁ : ((0 * 512 + n / 134217728 % 512) * 512 + n / 262144 % 512) * 512 + n / 512 % 512 <
      keys 0 := by
    rw [hkey, hkey', keys]
    omega
  obtain ⟨G₁, h₁, hg₁, -, -, ht₁, -⟩ := h₂.ensure ht₂ hi₁ hk₁ hrun₁
  have hq₃ : G₃.tab (q, 3, 0) = some q := by
    rw [(hg₃.extends fun _ => False).root h₀ h₃, hq]
  have hq₂ : G₂.tab (q, 3, 0) = some q := by
    rw [(hg₂.extends fun _ => False).root h₃ h₂, hq₃]
  have hq₁ : G₁.tab (q, 3, 0) = some q := by
    rw [(hg₁.extends fun _ => False).root h₂ h₁, hq₂]
  have hlast : q ≠ p1 := by
    rintro rfl
    have hrole := h₁.root_role hq₁
    rw [(h₁.trees.role _ _ _ _).mp ht₁] at hrole
    simp at hrole
  rw [Mem.set_word_of_ne _ _ hlast, h₂.ensure_top ht₂ hi₁ hk₁ hrun₁ hq₂,
    h₃.ensure_top ht₃ hi₂ hk₂ hrun₂ hq₃, h₀.ensure_top hp hi₃ hk₃ hrun₃ hq, Mem.set_word]
  by_cases hqp : q = p <;> simp [hqp, Mem.kernelEntry]

/-- A page on top of a fresh frame. -/
theorem Inv.mapNew_top {m₁ : Mem} {v a : Nat} (h : Inv m G) (hp : G.tab (p, 3, 0) = some p)
    (hv : v / 4096 < userPages) (halloc : m.allocatePage = some (a, m₁)) (ws : Nat → Word)
    (hrun : (m₁.setFrame (a / 4096) ws).initPagesForProcess v a p = some m')
    (hq : G.tab (q, 3, 0) = some q) :
    m'.word q 511 = if q = p then m.kernelEntry else m.word q 511 := by
  obtain ⟨f, hfree, rfl, hw, hkp, -, h₁⟩ := h.alloc halloc
  rw [frame_div] at hrun
  have h₂ := h₁.setFrame (f := f) (by simp [Ghost.setHeld, Ghost.setRole])
    (by simp [Ghost.setHeld, Ghost.setRole]) ws
  have hne : ∀ g, G.role g ≠ .free → (m₁.setFrame f ws).word g = m.word g := by
    intro g hg
    have hgf : g ≠ f := by
      rintro rfl
      exact hg hfree
    rw [Mem.setFrame_word_of_ne _ _ hgf, hw]
  have hentry : (m₁.setFrame f ws).kernelEntry = m.kernelEntry :=
    kernelEntry_eq hkp (hne _ (by simp [h.kpml4_kernel hp]))
  rw [h₂.initPages_top (p := p) (q := q) hp hv hrun hq, hentry, hne q (by simp [h.root_role hq])]

/-- A store goes to a page. -/
theorem Inv.store_top {v : Nat} {g : Word → Word} (h : Inv m G) (hp : G.tab (p, 3, 0) = some p)
    (hv : v / 4096 < userPages) (hrun : m.store p v g = some m') : KeepsTop G m m' := by
  obtain ⟨e, he, -, rfl, -, -⟩ := h.store hp hv hrun
  refine .of_word fun q hq => Mem.set_word_of_ne _ _ ?_
  rintro rfl
  have htarget := h.refs.target _ e he
  simp [h.root_role hq] at htarget

/-- `dealloc_pml4` stops in front of the kernel's entry. -/
theorem Inv.dealloc_top (h : Inv m G) (hp : G.tab (p, 3, 0) = some p) :
    KeepsTop G m (m.deallocPml4 p) := by
  obtain ⟨_, -, hs, -⟩ := h.deallocPml4 hp
  obtain ⟨ws, hrun, hcleared⟩ := deallocLevel_spec 3 m p (h.sound_tree hp)
  intro q hq
  refine Or.inl ?_
  by_cases hqp : q = p
  · have hword : (m.deallocPml4 p).word = ws := by
      unfold Mem.deallocPml4
      rw [hrun, freeAll_word]
      rfl
    rw [hqp, hword, hcleared.past 511 le_rfl]
  · rw [hs.word q]
    rw [h.root_role hq]
    intro l k hcon
    exact hqp (by simpa using hcon : q = p ∧ _).1

end Op

/-- What an operation on the space `p` does to the kernel's half of all of them; where
`P` it leaves the PML4 `p` with the kernel's entry, whatever the entry was before. -/
structure KeepsKernel (p : Nat) (P : Prop) (m : Mem) (G : Ghost) (m' : Mem) (G' : Ghost) :
    Prop extends Steady m G m' G' where
  keeps : KeepsTop G m m'
  own : P → G.tab (p, 3, 0) = some p → m'.word p 511 = m.kernelEntry

namespace KeepsKernel

variable {p : Nat} {P P' : Prop} {m m' m₁ m₂ m₃ : Mem} {G G' G₁ G₂ G₃ : Ghost}

theorem of_keeps (hs : Steady m G m' G') (hk : KeepsTop G m m') : KeepsKernel p False m G m' G' :=
  ⟨hs, hk, fun hf => hf.elim⟩

theorem refl (p : Nat) (m : Mem) (G : Ghost) : KeepsKernel p False m G m G :=
  .of_keeps (.refl m G) fun _ _ => Or.inl rfl

theorem mono (h : KeepsKernel p P m G m' G') (hP : P' → P) : KeepsKernel p P' m G m' G' :=
  ⟨h.toSteady, h.keeps, fun hp => h.own (hP hp)⟩

theorem trans (h : KeepsKernel p P m₁ G₁ m₂ G₂) (h' : KeepsKernel p P' m₂ G₂ m₃ G₃) :
    KeepsKernel p (P ∨ P') m₁ G₁ m₃ G₃ := by
  refine ⟨h.toSteady.trans h'.toSteady, h.keeps.trans h.toSteady h'.keeps, ?_⟩
  rintro hP hp
  have hp₂ := h.root p hp
  by_cases hP' : P'
  · rw [h'.own hP' hp₂, h.entry]
  · obtain hsame | hkernel := h'.keeps p hp₂
    · rw [hsame, h.own (hP.resolve_right hP') hp]
    · rw [hkernel, h.entry]

/-- A new page comes with the kernel's entry. -/
theorem of_mapNew {m₁ : Mem} {v a : Nat} (h : Inv m G) (hs : Steady m G m' G')
    (hp : G.tab (p, 3, 0) = some p) (hv : v / 4096 < userPages)
    (halloc : m.allocatePage = some (a, m₁)) (ws : Nat → Word)
    (hrun : (m₁.setFrame (a / 4096) ws).initPagesForProcess v a p = some m') :
    KeepsKernel p P m G m' G' := by
  refine ⟨hs, fun q hq => ?_, fun _ _ => ?_⟩
  · rw [h.mapNew_top hp hv halloc ws hrun hq]
    split_ifs
    · exact Or.inr rfl
    · exact Or.inl rfl
  · rw [h.mapNew_top hp hv halloc ws hrun hp, if_pos rfl]

theorem of_map {m₁ : Mem} {v a : Nat} (h : Inv m G) (hs : Steady m G m' G')
    (hp : G.tab (p, 3, 0) = some p) (hv : v / 4096 < userPages)
    (halloc : m.allocatePage = some (a, m₁)) (hrun : m₁.initPagesForProcess v a p = some m') :
    KeepsKernel p P m G m' G' := by
  rw [← Mem.setFrame_self m₁ (a / 4096)] at hrun
  exact of_mapNew h hs hp hv halloc _ hrun

end KeepsKernel

end X86Kernel.Paging
