import X86Kernel.Kern.Remove
import X86Kernel.Paging.Top

/-!
`copytask`: a new PML4, the shared tables, and a copy of the area list.
-/

namespace X86Kernel.Kern

open Lib Paging

/-- The areas of two lists, node by node. -/
def Copied (m : Mem) (l : List Nat) (m' : Mem) (l' : List Nat) : Prop :=
  List.Forall₂ (fun f f' => m'.word f' 0 = m.word f 0 ∧ m'.word f' 1 = m.word f 1) l l'

theorem Copied.congr {m m₁ m' m₁' : Mem} {l l' : List Nat} (h : Copied m l m' l')
    (hl : ∀ f ∈ l, m₁.word f = m.word f) (hl' : ∀ f ∈ l', m₁'.word f = m'.word f) :
    Copied m₁ l m₁' l' := by
  unfold Copied at h ⊢
  induction h with
  | nil => exact .nil
  | cons hf _ ih =>
      rename_i f f' l l' _
      refine .cons ?_ (ih (fun g hg => hl g (by simp [hg])) (fun g hg => hl' g (by simp [hg])))
      rw [hl f (by simp), hl' f' (by simp)]
      exact hf

/-- The frames `lc` have become nodes of the space `c`. Of what there was before, only
the nodes `X` have been written. -/
structure NodesAdded (c : Nat) (X : Nat → Prop) (lc : List Nat) (m : Mem) (G : Ghost) (m' : Mem)
    (G' : Ghost) : Prop where
  inv : Inv m' G'
  tab : G'.tab = G.tab
  leaf : G'.leaf = G.leaf
  held : G'.held = G.held
  kpml4 : m'.kpml4 = m.kpml4
  role : ∀ g, G'.role g = if g ∈ lc then .vma c else G.role g
  fresh : ∀ g ∈ lc, G.role g = .free
  word : ∀ g, g ∉ lc → ¬ X g → m'.word g = m.word g

namespace NodesAdded

variable {c : Nat} {X Y : Nat → Prop} {lc lc' : List Nat} {m m' m'' : Mem} {G G' G'' : Ghost}

theorem refl (h : Inv m G) : NodesAdded c X [] m G m G :=
  ⟨h, rfl, rfl, rfl, rfl, by simp, by simp, fun _ _ _ => rfl⟩

theorem not_mem (h : NodesAdded c X lc m G m' G') {g : Nat} (hg : G.role g ≠ .free) : g ∉ lc :=
  fun hin => hg (h.fresh g hin)

/-- More nodes, which may be written behind the first ones. -/
theorem trans (h : NodesAdded c X lc m G m' G') (h' : NodesAdded c Y lc' m' G' m'' G'')
    (hY : ∀ g, Y g → X g ∨ g ∈ lc) : NodesAdded c X (lc ++ lc') m G m'' G'' := by
  refine ⟨h'.inv, h'.tab.trans h.tab, h'.leaf.trans h.leaf, h'.held.trans h.held,
    h'.kpml4.trans h.kpml4, ?_, ?_, ?_⟩
  · intro g
    rw [h'.role, h.role]
    by_cases hg : g ∈ lc <;> by_cases hg' : g ∈ lc' <;> simp [hg, hg']
  · intro g hg
    rcases List.mem_append.mp hg with hg | hg
    · exact h.fresh g hg
    · have hfree := h'.fresh g hg
      rw [h.role] at hfree
      split_ifs at hfree
      exact hfree
  · intro g hg hX
    have hlc : g ∉ lc := fun hin => hg (List.mem_append_left _ hin)
    have hlc' : g ∉ lc' := fun hin => hg (List.mem_append_right _ hin)
    rw [h'.word g hlc' (fun hin => (hY g hin).elim hX hlc), h.word g hlc hX]

/-- A word of a node is written. -/
theorem write (h : NodesAdded c X lc m G m' G') {f : Nat} (hf : G'.role f = .vma c) (hX : X f)
    (i : Nat) (w : Word) : NodesAdded c X lc m G (m'.set f i w) G' := by
  have hinv := h.inv.setFrame (f := f) (by simp [hf]) (by simp [hf])
    (Function.update (m'.word f) i w)
  rw [← Mem.set_eq_setFrame] at hinv
  refine ⟨hinv, h.tab, h.leaf, h.held, h.kpml4, h.role, h.fresh, fun g hg hXg => ?_⟩
  have hgf : g ≠ f := by
    rintro rfl
    exact hXg hX
  rw [Mem.set_word_of_ne _ _ hgf, h.word g hg hXg]

/-- The other spaces see nothing of it. -/
theorem frame (h : NodesAdded c X lc m G m' G') (hinv : Inv m G)
    (hX : ∀ g, X g → G.role g = .vma c) : Frame (· = c) m G m' G' :=
  nodes_frame lc hinv h.tab h.leaf h.role h.fresh hX h.word h.kpml4

theorem homed (h : NodesAdded c X lc m G m' G') (hhome : Homed G)
    (hroot : G.tab (c, 3, 0) = some c) : Homed G' := by
  intro g p hg
  rw [h.tab]
  rw [h.role] at hg
  split_ifs at hg
  · obtain rfl : c = p := by simpa using hg
    exact hroot
  · exact hhome g p hg

/-- A space that had no nodes has just these. -/
theorem listed (h : NodesAdded c X lc m G m' G') (hL : Listed m G c 0 []) {vm : Word}
    (hlist : AreaList m' vm lc) : Listed m' G' c vm lc := by
  refine ⟨by rw [h.tab]; exact hL.root, hlist, fun g => ?_⟩
  have hnone : G.role g ≠ .vma c := fun hg => by simpa using (hL.nodes g).mpr hg
  rw [h.role]
  by_cases hg : g ∈ lc <;> simp [hg, hnone]

end NodesAdded

/-- A new node for the space `c`, with the words of the node `b`. -/
theorem copyNode_added {m m₁ : Mem} {G : Ghost} {v b : Nat} (h : Inv m G) (c : Nat)
    (hb : b < capacity) (halloc : kmalloc m vmaSize = some (v, m₁)) :
    ∃ f G', v = kernBase + f * 4096 ∧
      NodesAdded c (fun _ => False) [f] m G (copyNode m₁ f (kptr b)) G' ∧
      ∀ i < 6, (copyNode m₁ f (kptr b)).word f i = m.word b i := by
  obtain ⟨f, hfree, rfl, hw, hkp, hnode⟩ := kmalloc_node h halloc c
  refine ⟨f, _, rfl, ⟨hnode _, rfl, rfl, ?_, hkp, ?_, by simpa using hfree, ?_⟩, ?_⟩
  · have hzero := h.refs.held f (by simp [hfree])
    funext g
    by_cases hg : g = f <;> simp [Ghost.setHeld, Ghost.setRole, hg, hzero]
  · intro g
    by_cases hg : g = f <;> simp [Ghost.setHeld, Ghost.setRole, hg]
  · intro g hg _
    rw [copyNode, Mem.setFrame_word_of_ne _ _ (by simpa using hg), hw]
  · intro i hi
    have hin : i < vmaSize / 8 := by simpa [vmaSize] using hi
    rw [copyNode, Mem.setFrame_word_self, if_pos hin, frameAt_kptr hb, hw]

/-- The loop of `copytask` behind the node `last` of the child `c`. The last
node carries the link it was copied with until the next iteration sets it. -/
theorem copyAreas_spec {n : Nat} {m m' : Mem} {G : Ghost} {q c last : Nat} {a : Word}
    {la : List Nat} (hqc : q ≠ c) (h : Inv m G) (hla : AreaList m a la)
    (hq : ∀ f ∈ la, G.role f = .vma q) (hlast : G.role last = .vma c)
    (hlink : m.word last 5 = a) (hrun : copyAreas n m a (kptr last) = some m') :
    ∃ G' lc, NodesAdded c (· = last) lc m G m' G' ∧ AreaList m' (m'.word last 5) lc ∧
      Copied m la m' lc ∧ ∀ i < 5, m'.word last i = m.word last i := by
  induction la generalizing n m G a last with
  | nil =>
      obtain rfl : a = 0 := hla
      cases n with
      | zero => simp [copyAreas] at hrun
      | succ n =>
          obtain rfl : m = m' := by simpa [copyAreas] using hrun
          exact ⟨G, [], .refl h, hlink, .nil, fun _ _ => rfl⟩
  | cons b la ih =>
      obtain ⟨rfl, htail⟩ := hla
      cases n with
      | zero => simp [copyAreas] at hrun
      | succ n =>
          have hb : G.role b = .vma q := hq b (by simp)
          have hblt : b < capacity := h.role_lt (by simp [hb])
          have hllt : last < capacity := h.role_lt (by simp [hlast])
          rw [copyAreas, if_neg (kptr_ne_zero hblt)] at hrun
          obtain ⟨⟨v, m₁⟩, halloc, hrun⟩ := Option.bind_eq_some_iff.mp hrun
          obtain ⟨f, G₂, rfl, hadd, hcopy⟩ := copyNode_added h c hblt halloc
          simp only [kptr_sub, frame_div f, frameAt_kptr hllt] at hrun
          generalize copyNode m₁ f (kptr b) = m₂ at hadd hcopy hrun
          have hfree : G.role f = .free := hadd.fresh f (by simp)
          have hne : ∀ {g p}, G.role g = .vma p → g ≠ f := by
            rintro g p hg rfl
            simp [hg] at hfree
          have hlf : last ≠ f := hne hlast
          -- memory after the link to the copy
          have hlast₂ : G₂.role last = .vma c := by
            rw [hadd.role, if_neg (by simpa using hlf), hlast]
          have hadd' : NodesAdded c (· = last) [f] m G m₂ G₂ :=
            { hadd with word := fun g hg _ => hadd.word g hg not_false }
          have hadd₃ := hadd'.write hlast₂ rfl 5 (kptr f)
          have hold : ∀ g, G.role g = .vma q → (m₂.set last 5 (kptr f)).word g = m.word g := by
            intro g hg
            refine hadd₃.word g (by simpa using hne hg) ?_
            rintro rfl
            rw [hg] at hlast
            exact hqc (by simpa using hlast)
          have hf₃ : ∀ i < 6, (m₂.set last 5 (kptr f)).word f i = m.word b i := by
            intro i hi
            rw [Mem.set_word_of_ne _ _ hlf.symm, hcopy i hi]
          have hnext : vmNext (m₂.set last 5 (kptr f)) (kptr b) = m.word b 5 := by
            rw [vmNext, frameAt_kptr hblt, hold b hb]
          change copyAreas n (m₂.set last 5 (kptr f)) (vmNext (m₂.set last 5 (kptr f)) (kptr b))
            (kptr f) = some m' at hrun
          rw [hnext] at hrun
          obtain ⟨G', lc, hrest, hlist, hcopied, hkept⟩ := ih hadd₃.inv
            (htail.congr fun g hg => by rw [hold g (hq g (by simp [hg]))])
            (fun g hg => by
              rw [hadd.role, if_neg (by simpa using hne (hq g (by simp [hg])))]
              exact hq g (by simp [hg]))
            (by rw [hadd.role, if_pos (by simp)]) (hf₃ 5 (by omega)) hrun
          have hlast' : m'.word last = (m₂.set last 5 (kptr f)).word last :=
            hrest.word last (hrest.not_mem (by simp [hlast₂])) hlf
          refine ⟨G', f :: lc, hadd₃.trans hrest (by simp), ⟨?_, hlist⟩, .cons ?_ ?_, ?_⟩
          · rw [hlast', Mem.set_word, if_pos ⟨rfl, rfl⟩]
          · exact ⟨by rw [hkept 0 (by omega), hf₃ 0 (by omega)],
              by rw [hkept 1 (by omega), hf₃ 1 (by omega)]⟩
          · exact hcopied.congr (fun g hg => (hold g (hq g (by simp [hg]))).symm) fun _ _ => rfl
          · intro i hi
            rw [hlast', Mem.set_word, if_neg (by omega), hadd.word last (by simpa using hlf)
              not_false]

/-- A cleared frame from the list becomes the PML4 of a new space. -/
theorem newRoot {m m₁ : Mem} {G : Ghost} {a : Nat} (h : Inv m G)
    (hrun : m.allocatePageForProcess = some (a, m₁)) :
    ∃ c G₂, G.role c = .free ∧ a = kernBase + c * 4096 ∧ Inv (m₁.memset0 c) G₂ ∧
      G₂.leaf = G.leaf ∧ G₂.held = G.held ∧ G₂.tab = Function.update G.tab (c, 3, 0) (some c) ∧
      (∀ n, G.leaf (c, n) = none) ∧ (∀ l k, G.tab (c, l, k) = none) ∧
      (∀ g, G₂.role g = if g = c then .table c 3 0 else G.role g) ∧
      (∀ g, g ≠ c → (m₁.memset0 c).word g = m.word g) ∧ m₁.kpml4 = m.kpml4 := by
  obtain ⟨c, hfree, rfl, hw, hkp, hrc, h₁⟩ := h.allocForProcess hrun
  have hdata : ((G.setRole c .data).setHeld c 1).role c = .data := by
    simp [Ghost.setHeld, Ghost.setRole]
  have h₂ := h₁.setFrame (f := c) (by simp [hdata]) (by simp [hdata]) (fun _ => 0)
  have h₃ := h₂.plant hdata (by simpa using hrc) (by simp [Ghost.setHeld]) (by simp)
  have hnotab : ∀ l k, G.tab (c, l, k) = none := by
    intro l k
    by_contra hcon
    have hrole := (h.trees.role _ _ _ _).mp (h.trees.to_root hcon)
    simp [hfree] at hrole
  refine ⟨c, _, hfree, rfl, h₃, rfl, ?_, rfl, ?_, hnotab, ?_, ?_, hkp⟩
  · have hzero := h.refs.held c (by simp [hfree])
    funext g
    by_cases hg : g = c <;> simp [Ghost.setTab, Ghost.setHeld, Ghost.setRole, hg, hzero]
  · intro n
    by_contra hcon
    exact h.trees.leaf _ _ hcon (hnotab _ _)
  · intro g
    by_cases hg : g = c <;> simp [Ghost.setTab, Ghost.setHeld, Ghost.setRole, hg]
  · intro g hg
    rw [Mem.memset0, Mem.setFrame_word_of_ne _ _ hg, hw]

/-- A new PML4 belongs to no other space. -/
theorem newRoot_frame {m m₂ : Mem} {G G₂ : Ghost} {c : Nat} (h : Inv m G)
    (hfree : G.role c = .free) (hleaf : G₂.leaf = G.leaf)
    (htab : G₂.tab = Function.update G.tab (c, 3, 0) (some c))
    (hrole : ∀ g, G₂.role g = if g = c then .table c 3 0 else G.role g)
    (hword : ∀ g, g ≠ c → m₂.word g = m.word g) (hkp : m₂.kpml4 = m.kpml4) :
    Frame (· = c) m G m₂ G₂ := by
  have hne : ∀ g, G.role g ≠ .free → g ≠ c := by
    rintro g hg rfl
    exact hg hfree
  refine ⟨?_, ?_, ?_, ?_, ?_, ?_, ?_, hkp⟩
  · intro q l k hq
    rw [htab, Function.update_of_ne (fun hcon => hq (congrArg Prod.fst hcon))]
  · intro q n _
    unfold Ghost.mapped
    rw [hleaf]
  · intro q n f _ hf
    obtain ⟨e, he, rfl⟩ := Option.map_eq_some_iff.mp hf
    exact hword _ (hne _ (by simp [h.refs.target _ e he]))
  · intro q f _
    rw [hrole]
    split_ifs with hf
    · simp [hf, hfree]
    · exact Iff.rfl
  · intro q f _ hf
    exact hword f (hne f (by simp [hf]))
  · intro f
    rw [hrole]
    split_ifs with hf
    · simp [hf, hfree]
    · exact Iff.rfl
  · intro f hf
    exact hword f (hne f (by simp [hf]))

/-- Nobody's entry for the kernel changes. -/
theorem newRoot_kernel {m m₂ : Mem} {G G₂ : Ghost} {c : Nat} (h : Inv m G)
    (hfree : G.role c = .free) (htab : G₂.tab = Function.update G.tab (c, 3, 0) (some c))
    (hword : ∀ g, g ≠ c → m₂.word g = m.word g) (hkp : m₂.kpml4 = m.kpml4) :
    KeepsKernel c False m G m₂ G₂ := by
  have hne : ∀ g, G.role g ≠ .free → g ≠ c := by
    rintro g hg rfl
    exact hg hfree
  have hold : ∀ q, G.tab (q, 3, 0) = some q → q ≠ c :=
    fun q hq => hne q (by simp [h.root_role hq])
  have hkernel : G.role m.kpml4 = .kernel := (h.linear c (by simp [hfree])).2.2.2.1
  refine .of_keeps ⟨fun q hq => ?_, ?_⟩ (.of_word fun q hq => hword q (hold q hq))
  · rw [htab, Function.update_of_ne fun hcon => hold q hq (congrArg Prod.fst hcon), hq]
  · exact kernelEntry_eq hkp (hword _ (hne _ (by simp [hkernel])))

/-- Nor does any node belong to it: that of a node is a space that was there before. -/
theorem newRoot_listed {m : Mem} (m₂ : Mem) {G G₂ : Ghost} {c : Nat} (h : Inv m G) (hhome : Homed G)
    (hfree : G.role c = .free) (htab : G₂.tab = Function.update G.tab (c, 3, 0) (some c))
    (hrole : ∀ g, G₂.role g = if g = c then .table c 3 0 else G.role g) :
    Homed G₂ ∧ Listed m₂ G₂ c 0 [] := by
  have hold : ∀ {f q}, G₂.role f = .vma q → G.role f = .vma q := by
    intro f q hf
    rw [hrole] at hf
    split_ifs at hf
    exact hf
  have hnone : ∀ f, G₂.role f ≠ .vma c := by
    intro f hf
    have hroot := (h.trees.role _ _ _ _).mp (hhome f c (hold hf))
    simp [hfree] at hroot
  refine ⟨?_, by rw [htab, Function.update_self], rfl, by simp [hnone]⟩
  intro f q hf
  have hqc : q ≠ c := by
    rintro rfl
    exact hnone f hf
  rw [htab, Function.update_of_ne (by simpa using hqc)]
  exact hhome f q (hold hf)

/-- The first half of `copytask`: the new PML4 `c` and the shared tables. -/
theorem shareTables_spec {m m₁ m₃ : Mem} {G : Ghost} {v q : Nat} {vm : Word} {l : List Nat}
    (h : Inv m G) (hhome : Homed G) (hL : Listed m G q vm l)
    (halloc : m.allocatePageForProcess = some (v, m₁))
    (hrun : (m₁.memset0 ((v - kernBase) / 4096)).copytables q ((v - kernBase) / 4096) = some m₃) :
    ∃ c G₃, G.role c = .free ∧ v = kernBase + c * 4096 ∧ q ≠ c ∧ Inv m₃ G₃ ∧ Homed G₃ ∧
      Listed m₃ G₃ c 0 [] ∧ Frame (· = c) m G m₃ G₃ ∧ G₃.held = G.held ∧
      ∀ p n, G₃.leaf (p, n) = if p = q ∨ p = c then
        (G.leaf (q, n)).map Pte.share else G.leaf (p, n) := by
  obtain ⟨c, G₂, hfree, rfl, h₂, hleaf₂, hheld₂, htab₂, hnoleaf, hnotab, hrole₂, hword₂, hkp₁⟩ :=
    newRoot h halloc
  simp only [kptr_sub, frame_div c] at hrun
  have hqc : q ≠ c := by
    intro hcon
    have hrole := (h.trees.role _ _ _ _).mp hL.root
    rw [hcon, hfree] at hrole
    cases hrole
  have hF₂ := newRoot_frame h hfree hleaf₂ htab₂ hrole₂ hword₂ hkp₁
  obtain ⟨hhome₂, hL₂⟩ := newRoot_listed (m₁.memset0 c) h hhome hfree htab₂ hrole₂
  obtain ⟨G₃, h₃, hg₃, hheld₃, hleaf₃⟩ := h₂.copytables hqc (hL.frame hF₂ hqc).root
    hL₂.root (fun n => by rw [hleaf₂, hnoleaf])
    (fun k => by rw [htab₂, Function.update_of_ne (by simp), hnotab]) hrun
  have hE₃ := hg₃.extends (fun _ => False)
  have hF₃ : Frame (· = c) (m₁.memset0 c) G₂ m₃ G₃ := by
    refine hE₃.frame h₂ h₃ rfl ?_ (fun _ _ _ hx => hx.elim) (fun _ _ hx => hx.elim)
      (fun _ hx => hx.elim)
    intro p n hp
    unfold Ghost.mapped
    rw [hleaf₃]
    by_cases hpq : p = q
    · rw [if_pos (Or.inl hpq), map_share_frame, hpq]
    · simp [hpq, hp]
  refine ⟨c, G₃, hfree, rfl, hqc, h₃, ?_, ⟨?_, rfl, fun f => ?_⟩, hF₂.trans hF₃,
    by rw [hheld₃, hheld₂], fun p n => by rw [hleaf₃, hleaf₂]⟩
  · intro f p hf
    rw [hE₃.vma] at hf
    rw [hE₃.root h₂ h₃, hhome₂ f p hf]
  · rw [hE₃.root h₂ h₃, hL₂.root]
  · -- the tables bring no nodes with them
    rw [hE₃.vma, ← hL₂.nodes]

/-- The second half: the copy of a list that is not empty. -/
theorem copyList_spec {m m₁ m' : Mem} {G : Ghost} {v q c n : Nat} {vm : Word} {l : List Nat}
    (hqc : q ≠ c) (h : Inv m G) (hL : Listed m G q vm l) (hvm : vm ≠ 0)
    (halloc : kmalloc m vmaSize = some (v, m₁))
    (hrun : copyAreas n (copyNode m₁ ((v - kernBase) / 4096) vm)
      (vmNext (copyNode m₁ ((v - kernBase) / 4096) vm) vm) (BitVec.ofNat 64 v) = some m') :
    ∃ G' l', NodesAdded c (fun _ => False) l' m G m' G' ∧ AreaList m' (BitVec.ofNat 64 v) l' ∧
      Copied m l m' l' := by
  cases l with
  | nil => exact absurd hL.areas hvm
  | cons b la =>
      obtain ⟨rfl, htail⟩ := hL.areas
      have hbrole : G.role b = .vma q := (hL.nodes b).mp (by simp)
      have hblt : b < capacity := h.role_lt (by simp [hbrole])
      obtain ⟨f, G₂, rfl, hadd, hcopy⟩ := copyNode_added h c hblt halloc
      simp only [kptr_sub, frame_div f] at hrun
      generalize copyNode m₁ f (kptr b) = m₂ at hadd hcopy hrun
      have hfree : G.role f = .free := hadd.fresh f (by simp)
      have hne : ∀ g, G.role g = .vma q → g ≠ f := by
        rintro g hg rfl
        simp [hg] at hfree
      have hold : ∀ g, G.role g = .vma q → m₂.word g = m.word g := fun g hg =>
        hadd.word g (by simpa using hne g hg) not_false
      have hla : ∀ g ∈ la, G.role g = .vma q := fun g hg => (hL.nodes g).mp (by simp [hg])
      have hnext : vmNext m₂ (kptr b) = m.word b 5 := by
        rw [vmNext, frameAt_kptr hblt, hold b hbrole]
      rw [hnext] at hrun
      obtain ⟨G', lc, hrest, hlist, hcopied, hkept⟩ := copyAreas_spec hqc hadd.inv
        (htail.congr fun g hg => by rw [hold g (hla g hg)])
        (fun g hg => by rw [hadd.role, if_neg (by simpa using hne g (hla g hg)), hla g hg])
        (by rw [hadd.role, if_pos (by simp)]) (hcopy 5 (by omega)) hrun
      refine ⟨G', f :: lc, hadd.trans hrest (by simp), ⟨rfl, hlist⟩, .cons ?_ ?_⟩
      · exact ⟨by rw [hkept 0 (by omega), hcopy 0 (by omega)],
          by rw [hkept 1 (by omega), hcopy 1 (by omega)]⟩
      · exact hcopied.congr (fun g hg => (hold g (hla g hg)).symm) fun _ _ => rfl

/-- `copytask`. Parent and child map the same frames, which neither may write;
the child's areas are copies of the parent's, and nobody else notices. -/
theorem copytask_spec {m m' : Mem} {G : Ghost} {r c : Space} {l : List Nat} (h : Inv m G)
    (hhome : Homed G) (hL : Listed m G r.root r.vm l) (hrun : copytask m r = some (c, m')) :
    ∃ G' l', G.role c.root = .free ∧ c.pml4e = c.root * 4096 ∧ Inv m' G' ∧ Homed G' ∧
      Listed m' G' c.root c.vm l' ∧ Copied m l m' l' ∧ Frame (· = c.root) m G m' G' ∧
      G'.held = G.held ∧
      ∀ q n, G'.leaf (q, n) = if q = r.root ∨ q = c.root then
        (G.leaf (r.root, n)).map Pte.share else G.leaf (q, n) := by
  obtain ⟨⟨v, m₁⟩, halloc, hrun⟩ := Option.bind_eq_some_iff.mp hrun
  obtain ⟨m₃, htables, hrun⟩ := Option.bind_eq_some_iff.mp hrun
  obtain ⟨c₀, G₃, hfree, rfl, hrc, h₃, hhome₃, hLc, hF₃, hheld₃, hleaf₃⟩ :=
    shareTables_spec h hhome hL halloc htables
  have hL₃ := hL.frame hF₃ hrc
  by_cases hvm : r.vm = 0
  · rw [if_pos hvm] at hrun
    simp only [Option.some.injEq, Prod.mk.injEq] at hrun
    obtain ⟨rfl, rfl⟩ := hrun
    have hnil : l = [] := by
      cases l with
      | nil => rfl
      | cons f l =>
          obtain ⟨hf, -⟩ := hL.areas
          exact absurd (hf.symm.trans hvm) (kptr_ne_zero (hL.lt h (by simp)))
    subst hnil
    rw [kptr_sub, Space.root_mk]
    exact ⟨G₃, [], hfree, rfl, h₃, hhome₃, hLc, .nil, hF₃, hheld₃, hleaf₃⟩
  · rw [if_neg hvm] at hrun
    obtain ⟨⟨w, m₄⟩, halloc₄, hrun⟩ := Option.bind_eq_some_iff.mp hrun
    obtain ⟨m₅, hareas, hrun⟩ := Option.bind_eq_some_iff.mp hrun
    simp only [Option.some.injEq, Prod.mk.injEq] at hrun
    obtain ⟨rfl, rfl⟩ := hrun
    obtain ⟨G', l', hadd, hlist, hcopied⟩ := copyList_spec (c := c₀) hrc h₃ hL₃ hvm halloc₄ hareas
    rw [kptr_sub, Space.root_mk]
    refine ⟨G', l', hfree, rfl, hadd.inv, hadd.homed hhome₃ hLc.root, hadd.listed hLc hlist, ?_,
      hF₃.trans (hadd.frame h₃ fun _ hx => hx.elim), by rw [hadd.held, hheld₃],
      fun q n => by rw [hadd.leaf, hleaf₃]⟩
    exact hcopied.congr (fun g hg => (hF₃.node _ g hrc ((hL.nodes g).mp hg)).symm) fun _ _ => rfl

end X86Kernel.Kern
