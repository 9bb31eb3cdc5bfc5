import X86Kernel.Kern.Space
import X86Kernel.Paging.Extend

/-!
Area lists in memory. The nodes of a process's list are exactly the frames
with the role of a node of its address space, so a list shares nothing with
another list, with a table or with a user page.
-/

namespace X86Kernel.Kern

open Lib Paging

theorem Space.root_mk (c : Nat) (vm : Word) :
    ({ pml4e := c * 4096, vm := vm } : Space).root = c := by
  unfold Space.root
  dsimp only
  omega

def kptr (f : Nat) : Word := BitVec.ofNat 64 (kernBase + f * 4096)

/-- The list at `vm` has the nodes `l`. -/
def AreaList (m : Mem) : Word → List Nat → Prop
  | vm, [] => vm = 0
  | vm, f :: l => vm = kptr f ∧ AreaList m (m.word f 5) l

theorem kptr_toNat {f : Nat} (hf : f < capacity) : (kptr f).toNat = kernBase + f * 4096 := by
  unfold kptr
  rw [BitVec.toNat_ofNat]
  simp only [capacity, kernBase] at *
  omega

@[simp] theorem kptr_sub {f : Nat} : kernBase + f * 4096 - kernBase = f * 4096 :=
  Nat.add_sub_cancel_left _ _

theorem frameAt_kptr {f : Nat} (hf : f < capacity) : frameAt (kptr f) = f := by
  unfold frameAt
  rw [kptr_toNat hf, kptr_sub]
  omega

theorem kptr_ne_zero {f : Nat} (hf : f < capacity) : kptr f ≠ 0 := by
  intro hcon
  have hnat := congrArg BitVec.toNat hcon
  rw [kptr_toNat hf] at hnat
  simp [kernBase] at hnat

theorem toNode_kptr {f : Nat} (hf : f < capacity) : toNode (kptr f) = some f := by
  unfold toNode
  rw [if_neg (kptr_ne_zero hf), frameAt_kptr hf]

/-- The list is a chain of `next` links. -/
theorem AreaList.chain {m : Mem} {vm : Word} {l : List Nat} (h : AreaList m vm l)
    (hl : ∀ f ∈ l, f < capacity) : Chain (fun f => toNode (m.word f 5)) (toNode vm) l := by
  induction l generalizing vm with
  | nil =>
      obtain rfl : vm = 0 := h
      exact .nil
  | cons f l ih =>
      obtain ⟨rfl, htail⟩ := h
      rw [toNode_kptr (hl f (by simp))]
      exact .cons (ih htail (fun g hg => hl g (by simp [hg])))

/-- A list has no more nodes than there are frames. -/
theorem AreaList.length_le {m : Mem} {vm : Word} {l : List Nat} (h : AreaList m vm l)
    (hl : ∀ f ∈ l, f < capacity) : l.length ≤ capacity := by
  have hsub : l.toFinset ⊆ Finset.range capacity := by
    intro f hf
    simpa using hl f (List.mem_toFinset.mp hf)
  have hcard := Finset.card_le_card hsub
  rwa [List.toFinset_card_of_nodup (h.chain hl).nodup, Finset.card_range] at hcard

/-- There is one list at a pointer. -/
theorem AreaList.unique {m : Mem} {vm : Word} {l l' : List Nat} (h : AreaList m vm l)
    (h' : AreaList m vm l') (hl : ∀ f ∈ l, f < capacity) (hl' : ∀ f ∈ l', f < capacity) : l = l' :=
  (h.chain hl).unique (h'.chain hl')

/-- The list depends on the links of its own nodes only. -/
theorem AreaList.congr {m m' : Mem} {vm : Word} {l : List Nat} (h : AreaList m vm l)
    (heq : ∀ f ∈ l, m'.word f 5 = m.word f 5) : AreaList m' vm l := by
  induction l generalizing vm with
  | nil => exact h
  | cons f l ih =>
      obtain ⟨rfl, htail⟩ := h
      refine ⟨rfl, ?_⟩
      rw [heq f (by simp)]
      exact ih htail (fun g hg => heq g (by simp [hg]))

structure Listed (m : Mem) (G : Ghost) (p : Nat) (vm : Word) (l : List Nat) : Prop where
  root : G.tab (p, 3, 0) = some p
  areas : AreaList m vm l
  nodes : ∀ f, f ∈ l ↔ G.role f = .vma p

theorem Listed.lt {m : Mem} {G : Ghost} {p : Nat} {vm : Word} {l : List Nat}
    (h : Listed m G p vm l) (hI : Inv m G) {f : Nat} (hf : f ∈ l) : f < capacity :=
  hI.role_lt (by simp [(h.nodes f).mp hf])

theorem Listed.nodup {m : Mem} {G : Ghost} {p : Nat} {vm : Word} {l : List Nat}
    (h : Listed m G p vm l) (hI : Inv m G) : l.Nodup :=
  (h.areas.chain (fun _ hf => h.lt hI hf)).nodup

theorem Listed.length_le {m : Mem} {G : Ghost} {p : Nat} {vm : Word} {l : List Nat}
    (h : Listed m G p vm l) (hI : Inv m G) : l.length ≤ capacity :=
  h.areas.length_le (fun _ hf => h.lt hI hf)

theorem Listed.congr {m m' : Mem} {G G' : Ghost} {p : Nat} {vm : Word} {l : List Nat}
    (h : Listed m G p vm l) (hroot : G'.tab (p, 3, 0) = G.tab (p, 3, 0))
    (hrole : ∀ f, G'.role f = .vma p ↔ G.role f = .vma p)
    (hword : ∀ f, G.role f = .vma p → m'.word f 5 = m.word f 5) : Listed m' G' p vm l := by
  refine ⟨by rw [hroot, h.root], ?_, fun f => (h.nodes f).trans (hrole f).symm⟩
  exact h.areas.congr (fun f hf => hword f ((h.nodes f).mp hf))

/-- What others do leaves a list alone. -/
theorem Listed.frame {S : Nat → Prop} {m m' : Mem} {G G' : Ghost} {p : Nat} {vm : Word}
    {l : List Nat} (h : Listed m G p vm l) (hF : Frame S m G m' G') (hp : ¬ S p) :
    Listed m' G' p vm l :=
  h.congr (hF.root p hp) (fun f => hF.vma p f hp) (fun f hf => by rw [hF.node p f hp hf])

/-- Every node belongs to a space that exists. -/
def Homed (G : Ghost) : Prop := ∀ f p, G.role f = .vma p → G.tab (p, 3, 0) = some p

theorem kmalloc_vmaSize (m : Mem) : kmalloc m vmaSize = m.allocatePageForProcess := by
  unfold kmalloc vmaSize
  cases m.allocatePageForProcess with
  | none => rfl
  | some r => rfl

/-- A frame for a node of the space `p`, whatever is then written to it. -/
theorem kmalloc_node {m m₁ : Mem} {G : Ghost} {a : Nat} (h : Inv m G)
    (hrun : kmalloc m vmaSize = some (a, m₁)) (p : Nat) :
    ∃ f, G.role f = .free ∧ a = kernBase + f * 4096 ∧ m₁.word = m.word ∧ m₁.kpml4 = m.kpml4 ∧
      ∀ ws, Inv (m₁.setFrame f ws) ((G.setRole f (.vma p)).setHeld f 0) := by
  rw [kmalloc_vmaSize] at hrun
  obtain ⟨f, hfree, rfl, hw, hkp, hrc, h₁⟩ := h.allocForProcess hrun
  refine ⟨f, hfree, rfl, hw, hkp, ?_⟩
  intro ws
  have hdata : ((G.setRole f .data).setHeld f 1).role f = .data := by
    simp [Ghost.setHeld, Ghost.setRole]
  have h₂ := h₁.setFrame (f := f) (by simp [hdata]) (by simp [hdata]) ws
  have h₃ := h₂.toVma hdata (by simpa using hrc) (by simp [Ghost.setHeld]) p
  have hghost : (((G.setRole f .data).setHeld f 1).setRole f (.vma p)).setHeld f 0 =
      (G.setRole f (.vma p)).setHeld f 0 := by
    simp [Ghost.setRole, Ghost.setHeld]
  rwa [hghost] at h₃

theorem Mem.setFrame_set (m : Mem) (f i : Nat) (ws : Nat → Word) (w : Word) :
    (m.setFrame f ws).set f i w = m.setFrame f (Function.update ws i w) := by
  unfold Mem.set Mem.setFrame
  simp

/-- A new node for the space `p`; only its frame is written. -/
theorem newVma_inv {m m' : Mem} {G : Ghost} (h : Inv m G) {start stop next w : Word} (p : Nat)
    (hrun : newVma m start stop next = some (w, m')) :
    ∃ f, G.role f = .free ∧ w = kptr f ∧
      Inv m' ((G.setRole f (.vma p)).setHeld f 0) ∧ m'.kpml4 = m.kpml4 ∧
      (∀ g, g ≠ f → m'.word g = m.word g) ∧
      m'.word f 0 = start ∧ m'.word f 1 = stop ∧ m'.word f 5 = next := by
  obtain ⟨⟨a, m₁⟩, halloc, hrun⟩ := Option.bind_eq_some_iff.mp hrun
  obtain ⟨f, hfree, rfl, hw, hkp, hnode⟩ := kmalloc_node h halloc p
  have hidx := frame_div f
  simp only [kptr_sub, hidx, Option.some.injEq, Prod.mk.injEq] at hrun
  obtain ⟨rfl, rfl⟩ := hrun
  rw [Mem.set_eq_setFrame m₁, Mem.setFrame_set, Mem.setFrame_set]
  refine ⟨f, hfree, rfl, hnode _, hkp, ?_, ?_, ?_, ?_⟩
  · intro g hg
    rw [Mem.setFrame_word_of_ne _ _ hg, hw]
  all_goals simp

/-- New nodes of one list leave all other spaces alone, also when nodes that
the list had before are written. -/
theorem nodes_frame {m m' : Mem} {G G' : Ghost} {c : Nat} (lc : List Nat) {X : Nat → Prop}
    (h : Inv m G) (htab : G'.tab = G.tab) (hleaf : G'.leaf = G.leaf)
    (hrole : ∀ g, G'.role g = if g ∈ lc then .vma c else G.role g)
    (hfresh : ∀ g ∈ lc, G.role g = .free) (hX : ∀ g, X g → G.role g = .vma c)
    (hword : ∀ g, g ∉ lc → ¬ X g → m'.word g = m.word g) (hkp : m'.kpml4 = m.kpml4) :
    Frame (· = c) m G m' G' := by
  have hnot : ∀ g, G.role g ≠ .free → g ∉ lc := fun g hg hin => hg (hfresh g hin)
  refine ⟨fun q _ _ _ => by rw [htab], ?_, ?_, ?_, ?_, ?_, ?_, hkp⟩
  · intro q n _
    unfold Ghost.mapped
    rw [hleaf]
  · intro q n f _ hf
    obtain ⟨e, he, rfl⟩ := Option.map_eq_some_iff.mp hf
    have hdata := h.refs.target _ e he
    refine hword _ (hnot _ (by simp [hdata])) (fun hx => ?_)
    simp [hX _ hx] at hdata
  · intro q f hq
    rw [hrole]
    split_ifs with hf
    · simp [hfresh f hf, Ne.symm hq]
    · exact Iff.rfl
  · intro q f hq hf
    refine hword f (hnot f (by simp [hf])) (fun hx => hq ?_)
    rw [hX f hx] at hf
    simpa using hf.symm
  · intro f
    rw [hrole]
    split_ifs with hf
    · simp [hfresh f hf]
    · exact Iff.rfl
  · intro f hf
    refine hword f (hnot f (by simp [hf])) (fun hx => ?_)
    simp [hX f hx] at hf

/-- A new node belongs to its own process only. -/
theorem newVma_frame {m m' : Mem} {G : Ghost} {f p : Nat} (hfree : G.role f = .free)
    (hI : Inv m G) (hkp : m'.kpml4 = m.kpml4) (hword : ∀ g, g ≠ f → m'.word g = m.word g) :
    Frame (· = p) m G m' ((G.setRole f (.vma p)).setHeld f 0) := by
  refine nodes_frame [f] (X := fun _ => False) hI rfl rfl ?_ ?_ (fun _ hx => hx.elim) ?_
    hkp
  · intro g
    by_cases hg : g = f <;> simp [Ghost.setHeld, Ghost.setRole, hg]
  · simpa using hfree
  · intro g hg _
    exact hword g (by simpa using hg)

/-- The new node is the head of the list. -/
theorem Listed.push {m m' : Mem} {G : Ghost} {p f : Nat} {vm : Word} {l : List Nat}
    (h : Listed m G p vm l) (hfree : G.role f = .free)
    (hword : ∀ g, g ≠ f → m'.word g = m.word g) (hnext : m'.word f 5 = vm) :
    Listed m' ((G.setRole f (.vma p)).setHeld f 0) p (kptr f) (f :: l) := by
  refine ⟨h.root, ⟨rfl, ?_⟩, ?_⟩
  · rw [hnext]
    apply h.areas.congr
    intro g hg
    rw [hword g]
    rintro rfl
    simp [(h.nodes g).mp hg] at hfree
  · intro g
    by_cases hg : g = f
    · simp [Ghost.setHeld, Ghost.setRole, hg]
    · simp [Ghost.setHeld, Ghost.setRole, hg, h.nodes g]

end X86Kernel.Kern
