import X86Kernel.Kern.Growth

/-!
`execvpe` comes to its end. Once the segments are loaded it needs a frame for each
of the two areas, at most four for the first page of the stack, and one for the
page below it, which long arguments reach.
-/

namespace X86Kernel.Kern

open Lib Paging Proc

def Supplied (n : Nat) (m : Mem) : Prop := ∃ l, FreeList m l ∧ n ≤ l.length

theorem Supplied.after {n k : Nat} {m m' : Mem} (h : Supplied (k + n) m) (ht : Takes k m m') :
    Supplied n m' := by
  obtain ⟨l, hl, hlen⟩ := h
  refine ⟨_, (ht l hl).2, ?_⟩
  rw [List.length_drop]
  omega

theorem Supplied.mono {n k : Nat} {m : Mem} (h : Supplied k m) (hle : n ≤ k) : Supplied n m := by
  obtain ⟨l, hl, hlen⟩ := h
  exact ⟨l, hl, by omega⟩

/-- Giving frames back leaves as many. -/
theorem Supplied.of_roles {n : Nat} {m m' : Mem} {G G' : Ghost} (hs : Supplied n m) (h : Inv m G)
    (h' : Inv m' G') (hfree : ∀ f, G.role f = .free → G'.role f = .free) : Supplied n m' := by
  obtain ⟨l, hl, hlen⟩ := hs
  obtain ⟨l₀, hchain, hnodup, hmem⟩ := h.pool.chain
  obtain ⟨l', hchain', -, hmem'⟩ := h'.pool.chain
  obtain rfl := hchain.unique hl
  refine ⟨l', hchain', hlen.trans ?_⟩
  refine (hnodup.subperm ?_).length_le
  intro f hf
  exact (hmem' f).mpr (hfree f ((hmem f).mp hf))

section Load

variable {m : Mem} {G : Ghost} {p n : Nat}

/-- A frame that the kernel can use itself is on the linear map already. -/
theorem allocForProcess_ok (h : Inv m G) (hs : Supplied (1 + n) m) :
    ∃ a m', m.allocatePageForProcess = some (a, m') ∧ Supplied n m' := by
  obtain ⟨l, hl, hlen⟩ := hs
  obtain ⟨⟨a, m₁⟩, halloc⟩ := Mem.allocatePage_ok hl (by omega)
  have htakes := Mem.allocatePage_takes halloc
  obtain ⟨f, -, rfl, -, -, -, h₁⟩ := h.alloc halloc
  have hmap := h₁.linear.map (f := f) (by simp [Ghost.setHeld, Ghost.setRole])
  refine ⟨kernBase + f * 4096, m₁, ?_, Supplied.after ⟨l, hl, hlen⟩ htakes⟩
  rw [Mem.allocatePageForProcess, halloc]
  simp only [Option.bind_eq_bind, Option.bind_some, hmap]

/-- A frame for a new area. -/
theorem newVma_ok (h : Inv m G) (hs : Supplied (1 + n) m) (start stop next : Word) :
    ∃ w m', newVma m start stop next = some (w, m') ∧ Supplied n m' := by
  obtain ⟨a, m₁, halloc, hs₁⟩ := allocForProcess_ok h hs
  unfold newVma
  rw [kmalloc_vmaSize, halloc]
  exact ⟨_, _, rfl, hs₁⟩

/-- Frames for a new page and the tables above it. -/
theorem mapNew_ok (h : Inv m G) (hp : G.tab (p, 3, 0) = some p) {v : Nat}
    (hv : v / 4096 < userPages) (hs : Supplied (4 + n) m) :
    ∃ a m₁ m', m.allocatePage = some (a, m₁) ∧ m₁.initPagesForProcess v a p = some m' ∧
      Supplied n m' := by
  obtain ⟨l, hl, hlen⟩ := hs
  obtain ⟨⟨a, m₁⟩, halloc⟩ := Mem.allocatePage_ok hl (by omega)
  obtain ⟨hlen₁, hl₁⟩ := Mem.allocatePage_takes halloc l hl
  obtain ⟨f, -, rfl, -, -, -, h₁⟩ := h.alloc halloc
  have hmiss : m₁.missingTables p v ≤ 3 := by
    unfold Mem.missingTables
    dsimp only
    split_ifs <;> omega
  obtain ⟨m', hmap⟩ := h₁.initPages_ok (p := p) hp hv (f * 4096) hl₁
    (by rw [List.length_drop]; omega)
  obtain ⟨hlen', hl'⟩ := h₁.initPages_takes (p := p) hp hv hmap _ hl₁
  refine ⟨_, m₁, m', halloc, hmap, _, hl', ?_⟩
  simp only [List.length_drop] at hlen' ⊢
  omega

/-- The loader, behind the segments. -/
theorem loadImage_ok {img : Image} {vm vm₁ : Word} {m₁ : Mem}
    (hsegs : img.phdrs.reverse.foldlM (loadSegment img p) (vm, m) = some (vm₁, m₁))
    (h : Inv m₁ G) (hp : G.tab (p, 3, 0) = some p) (hs : Supplied (6 + n) m₁) :
    ∃ w m', loadImage img p (vm, m) = some (w, m') ∧ Supplied n m' := by
  obtain ⟨w₂, m₂, hheap, hs₂⟩ := newVma_ok h (n := 5 + n) (hs.mono (by omega))
    (BitVec.ofNat 64 heapStart) (BitVec.ofNat 64 heapStart) vm₁
  obtain ⟨f, -, -, h₂, -⟩ := newVma_inv h p hheap
  have hp₂ : ((G.setRole f (.vma p)).setHeld f 0).tab (p, 3, 0) = some p := hp
  obtain ⟨a, m₃, m₄, halloc, hmap, hs₄⟩ := mapNew_ok h₂ hp₂ (n := 1 + n)
    (show stackStart / 4096 < userPages by decide) (hs₂.mono (by omega))
  obtain ⟨g, G₄, -, h₄, -⟩ := h₂.mapNew hp₂ (by decide) halloc hmap
  obtain ⟨w, m', hstack, hs'⟩ := newVma_ok h₄ hs₄ (BitVec.ofNat 64 stackStart)
    (BitVec.ofNat 64 stackEnd) w₂
  refine ⟨w, m', ?_, hs'⟩
  unfold loadImage
  rw [hsegs]
  simp only [Option.bind_eq_bind, Option.bind_some]
  rw [hheap, Option.bind_some]
  dsimp only
  rw [halloc, Option.bind_some]
  dsimp only
  rw [hmap, Option.bind_some, hstack]

end Load

structure StackRoom (m : Mem) (G : Ghost) (p : Nat) : Prop where
  top : ∃ f, G.leaf (p, stackPage) = some ⟨f, true⟩
  below : (∃ f, G.leaf (p, stackPage - 1) = some ⟨f, true⟩) ∨
    G.leaf (p, stackPage - 1) = none ∧ Supplied 1 m

section Stack

variable {m : Mem} {G : Ghost} {sp : Space}

/-- A store to a page of the process's own. -/
theorem store_ok (h : Inv m G) (hv : Valid m G sp) (hroom : StackRoom m G sp.root) {a f : Nat}
    (ha : a / 4096 < userPages) (hleaf : G.leaf (sp.root, a / 4096) = some ⟨f, true⟩)
    (g : Word → Word) :
    ∃ m', m.store sp.root a g = some m' ∧ Inv m' G ∧ Valid m' G sp ∧ StackRoom m' G sp.root := by
  have hsome : ∃ m', m.store sp.root a g = some m' := by
    unfold Mem.store
    rw [h.walk hv.root ha, hleaf]
    simp
  obtain ⟨m', hs⟩ := hsome
  obtain ⟨h', -, hnode⟩ := h.store_frame hv.root ha hs
  obtain ⟨e, -, -, rfl, -⟩ := h.store hv.root ha hs
  refine ⟨_, hs, h', hv.keep h rfl (fun _ => Iff.rfl) (fun f hf => hnode f _ hf) (fun _ hn => hn),
    hroom.top, hroom.below.imp_right ?_⟩
  rintro ⟨hnone, l, hl, hlen⟩
  exact ⟨hnone, l, hl.congr rfl rfl, hlen⟩

/-- A fault on the page below the first. -/
theorem isr14_below (h : Inv m G) (hv : Valid m G sp) (hroom : StackRoom m G sp.root) {a : Nat}
    (ha : a / 4096 = stackPage - 1) (hnone : G.leaf (sp.root, stackPage - 1) = none)
    (hs : Supplied 1 m) :
    ∃ m₁ G₁ f, isr14 m sp a = some (.resume m₁) ∧ Inv m₁ G₁ ∧ Valid m₁ G₁ sp ∧
      StackRoom m₁ G₁ sp.root ∧ G₁.leaf (sp.root, a / 4096) = some ⟨f, true⟩ := by
  have hpage : stackPage = 0x100FFFFF0 := rfl
  have huser : a / 4096 < userPages := by
    simp only [userPages]
    omega
  have hlo : stackEnd < a := by
    simp only [stackEnd]
    omega
  have hhi : a < stackStart := by
    simp only [stackStart]
    omega
  -- the page shares its table with the first one
  have htab : G.tab (sp.root, 0, a / 4096 / 512) ≠ none := by
    obtain ⟨f, hf⟩ := hroom.top
    rw [show a / 4096 / 512 = stackPage / 512 by omega]
    exact h.trees.leaf _ _ (by simp [hf])
  have hleaf : G.leaf (sp.root, a / 4096) = none := by rw [ha, hnone]
  have hstack : a < (vmStart m sp.vm).toNat ∧ (vmEnd m sp.vm).toNat < a := by
    rw [hv.stack_start, hv.stack_end]
    exact ⟨hhi, hlo⟩
  have hin : inAreas m sp a = some true := by
    unfold inAreas
    rw [hv.stack_start, if_pos ⟨hhi.trans (by decide), hstack.2⟩]
  have hcow : cow (m.word (m.getPTE sp.root a) (idx a 12)) = false := by
    rw [pte_read h hv.root huser (.inl htab), hleaf]
    decide
  obtain ⟨l, hl, hlen⟩ := hs
  obtain ⟨m₁, hrun, -⟩ := isr14_grows h hv.root huser
    (by rw [h.walk hv.root huser, hleaf]; rfl) hstack hin hcow hl
    (by rw [h.missingTables_zero hv.root huser htab]; exact hlen)
  obtain ⟨⟨G₁, hR⟩, -⟩ := isr14_spec h hv huser (.inl htab) (by simp [hleaf]) hrun
  obtain ⟨f, hleaf₁, -⟩ := hR.leaf
  have hown : G₁.leaf (sp.root, a / 4096) = some ⟨f, true⟩ := by
    rw [hleaf₁, Function.update_self]
  refine ⟨m₁, G₁, f, hrun, hR.inv, (hR.valid h hv).1, ⟨?_, .inl ⟨f, ?_⟩⟩, hown⟩
  · obtain ⟨f₀, hf₀⟩ := hroom.top
    refine ⟨f₀, ?_⟩
    rw [hleaf₁, Function.update_of_ne (by simp; omega), hf₀]
  · rw [← ha, hown]

/-- A write of the kernel to the stack of a new image. -/
theorem stackWrite_ok (h : Inv m G) (hv : Valid m G sp) (hroom : StackRoom m G sp.root) {w : Write}
    (hw : stackStart - 4096 ≤ w.1 ∧ w.1 < stackStart + 4096) :
    ∃ m' G', stackWrite sp m w = some m' ∧ Inv m' G' ∧ Valid m' G' sp ∧
      StackRoom m' G' sp.root := by
  have hpage : stackPage = 0x100FFFFF0 := rfl
  simp only [stackStart] at hw
  have huser : w.1 / 4096 < userPages := by
    simp only [userPages]
    omega
  -- a page of its own is written at once
  have hstore : ∀ {f}, G.leaf (sp.root, w.1 / 4096) = some ⟨f, true⟩ → ∃ m' G',
      stackWrite sp m w = some m' ∧ Inv m' G' ∧ Valid m' G' sp ∧ StackRoom m' G' sp.root := by
    intro f hf
    obtain ⟨m', hs, h', hv', hroom'⟩ := store_ok h hv hroom huser hf w.2
    exact ⟨m', G, by rw [stackWrite, write, hs], h', hv', hroom'⟩
  obtain htop | hlow : w.1 / 4096 = stackPage ∨ w.1 / 4096 = stackPage - 1 := by omega
  · obtain ⟨f, hf⟩ := hroom.top
    exact hstore (by rw [htop, hf])
  · obtain ⟨f, hf⟩ | ⟨hnone, hs⟩ := hroom.below
    · exact hstore (by rw [hlow, hf])
    · obtain ⟨m₁, G₁, f, hrun, h₁, hv₁, hroom₁, hleaf₁⟩ := isr14_below h hv hroom hlow hnone hs
      obtain ⟨m', hs', h', hv', hroom'⟩ := store_ok h₁ hv₁ hroom₁ huser hleaf₁ w.2
      have hfault : m.store sp.root w.1 w.2 = none := by
        unfold Mem.store
        rw [h.walk hv.root huser, hlow, hnone]
        rfl
      refine ⟨m', G₁, ?_, h', hv', hroom'⟩
      rw [stackWrite, write, hfault]
      dsimp only
      rw [hrun]
      dsimp only
      rw [hs']
      rfl

theorem stackWrites_ok (ws : List Write)
    (hws : ∀ w ∈ ws, stackStart - 4096 ≤ w.1 ∧ w.1 < stackStart + 4096) (h : Inv m G)
    (hv : Valid m G sp) (hroom : StackRoom m G sp.root) :
    ∃ m', ws.foldlM (stackWrite sp) m = some m' := by
  induction ws generalizing m G with
  | nil => exact ⟨m, rfl⟩
  | cons w ws ih =>
      obtain ⟨m₁, G₁, hfirst, h₁, hv₁, hroom₁⟩ := stackWrite_ok h hv hroom (hws w (by simp))
      obtain ⟨m', hrest⟩ := ih (fun x hx => hws x (by simp [hx])) h₁ hv₁ hroom₁
      exact ⟨m', by rw [List.foldlM_cons, hfirst]; exact hrest⟩

/-- `execvpe` returns when its segments have been loaded, none of them on the page
below the first page of the stack, and seven frames are left. -/
theorem execvpe_ok {img : Image} {args : List (List Byte)} {vm₁ : Word} {m₁ : Mem} (h : Inv m G)
    (hhome : Homed G) (hv : Valid m G sp) (hok : img.Ok) (hargs : FitsArgs args)
    (hbelow : ¬ img.brings (stackPage - 1))
    (hsegs : img.phdrs.reverse.foldlM (loadSegment img sp.root)
      (sp.vm, m.deallocPml4 sp.root) = some (vm₁, m₁)) (hs : Supplied 7 m₁) :
    ∃ r, execvpe m sp img args = some r := by
  obtain ⟨G₁, hE⟩ := hv.emptied h hhome
  obtain ⟨l, hL⟩ := hE.areas
  obtain ⟨G₂, segs, hB₂, hL₂, -⟩ := loadSegments_spec img.phdrs.reverse
    (fun ep hep => hok ep (by simpa using hep)) hE.inv hE.homed hL hsegs
  obtain ⟨w, m₃, hload, hs₃⟩ := loadImage_ok hsegs hB₂.inv hL₂.root (n := 1) hs
  obtain ⟨G₃, hB₃, hv₃, -, ⟨f, hf⟩, -⟩ := loadImage_spec hE.inv hE.homed hL hok hload
  have hsp : ({ pml4e := sp.root * 4096, vm := w } : Space) = { sp with vm := w } := by
    rw [← hv.aligned]
  rw [hsp] at hv₃
  have hnone : G₃.leaf (sp.root, stackPage - 1) = none := by
    by_contra hcon
    obtain hold | hnew := hB₃.pages _ hcon
    · exact hold (hE.leaf _)
    · exact hbelow hnew
  have hroom : StackRoom m₃ G₃ ({ sp with vm := w } : Space).root :=
    ⟨⟨f, hf⟩, .inr ⟨hnone, hs₃⟩⟩
  obtain ⟨m', hwrites⟩ := stackWrites_ok (execWrites args) (fun x hx => mem_execWrites hargs hx)
    hB₃.inv hv₃ hroom
  refine ⟨({ sp with vm := w }, m'), ?_⟩
  unfold execvpe
  rw [hload]
  simp only [Option.bind_eq_bind, Option.bind_some]
  rw [hwrites]
  rfl

end Stack

end X86Kernel.Kern
