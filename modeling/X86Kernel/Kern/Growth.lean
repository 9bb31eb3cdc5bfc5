import X86Kernel.Kern.Resolve

/-!
A page of stack on demand. `isr14` looks at the entry of the page first, and
`getPTE` finds it without asking whether the tables above it are there: below a
missing table it goes on in physical page 0. What it finds there decides between
a new page and the treatment of a shared one.
-/

namespace X86Kernel.Kern

open Lib Paging Proc

/-- The page of `bb` has been added to the space `p` and nothing else: it maps a
frame that was free, as many frames as there were missing tables have been taken
besides, and every other page of every space translates and reads as before. -/
structure Grown (m : Mem) (G : Ghost) (p bb : Nat) (m' : Mem) : Prop where
  page : ∃ f, OnFreeList m f ∧ ¬ OnFreeList m' f ∧ m'.walk p bb = some (entry (f * 4096) 7)
  taken : Takes (1 + m.missingTables p bb) m m'
  others : ∀ q v, G.tab (q, 3, 0) = some q → v / 4096 < userPages →
    (q, v / 4096) ≠ (p, bb / 4096) → m'.walk q v = m.walk q v ∧ m'.load q v = m.load q v

@[simp] theorem cow_tableWord (o : Option Nat) : cow (tableWord o) = false := by
  cases o with
  | none => decide
  | some f =>
      rw [tableWord, cow_entry]
      decide

section Grow

variable {m m' : Mem} {G G' : Ghost} {sp : Space} {bb : Nat}

/-- A page is not mapped by changing a word that has the mark of a shared page:
no word on the way to it has it. -/
theorem walk_set_marked {p k i : Nat} {w : Word} (h : Inv m G) (hp : G.tab (p, 3, 0) = some p)
    (hbb : bb / 4096 < userPages) (hnone : m.walk p bb = none) (hcow : cow (m.word k i) = true) :
    (m.set k i w).walk p bb = none := by
  have hset : ∀ t j, cow (m.word t j) = false → (m.set k i w).word t j = m.word t j := by
    intro t j htj
    rw [Mem.set_word, if_neg]
    rintro ⟨rfl, rfl⟩
    rw [htj] at hcow
    cases hcow
  have hleaf : G.leaf (p, bb / 4096) = none := by
    rw [h.walk hp hbb] at hnone
    simpa using hnone
  unfold Mem.walk
  simp only [idx_39, idx_30, idx_21, idx_12]
  generalize bb / 4096 = n at *
  have htop := h.word_top hp hbb
  rw [hset p _ (by rw [htop, cow_tableWord]), htop]
  cases h2 : G.tab (p, 2, n / 134217728) with
  | none => simp
  | some t2 =>
      have hdir := h.word_dir h2 hbb
      rw [tableWord_some_frame (h.tab_lt h2), hset t2 _ (by rw [hdir, cow_tableWord]), hdir]
      cases h1 : G.tab (p, 1, n / 262144) with
      | none => simp
      | some t1 =>
          have hmid := h.word_mid h1 hbb
          rw [tableWord_some_frame (h.tab_lt h1), hset t1 _ (by rw [hmid, cow_tableWord]), hmid]
          cases h0 : G.tab (p, 0, n / 512) with
          | none => simp
          | some t0 =>
              have hpage := h.word_page h0
              rw [hleaf] at hpage
              rw [tableWord_some_frame (h.tab_lt h0), hset t0 _ (by rw [hpage]; decide), hpage,
                present_leafWord]
              simp

/-- With a marked entry in front of it `isr14` does not map a page that is
missing: it copies the page, which is a fault in the handler, or changes the
entry it found. -/
theorem isr14_marked (h : Inv m G) (hroot : G.tab (sp.root, 3, 0) = some sp.root)
    (hbb : bb / 4096 < userPages) (hnone : m.walk sp.root bb = none)
    (hcow : cow (m.word (m.getPTE sp.root bb) (idx bb 12)) = true)
    (hrun : isr14 m sp bb = some (.resume m')) : m'.walk sp.root bb = none := by
  unfold isr14 at hrun
  simp only [isr14_inside hrun, Option.bind_eq_bind, Option.bind_some, if_true, hcow] at hrun
  split_ifs at hrun with htwo hone
  · obtain ⟨⟨a, m₁⟩, halloc, hrun⟩ := Option.bind_eq_some_iff.mp hrun
    obtain ⟨-, -, -, hw, -⟩ := Mem.allocatePage_eq halloc
    have hwalk : m₁.walk sp.root bb = none := by
      unfold Mem.walk at hnone ⊢
      rw [hw]
      exact hnone
    simp [hwalk] at hrun
  · obtain rfl := Fault.resume.inj (Option.some.inj hrun)
    exact walk_set_marked h hroot hbb hnone hcow
  · simp at hrun

/-- `isr14` on a page of stack that is missing, when the entry it looks at is not
marked. -/
theorem isr14_grows (h : Inv m G) (hroot : G.tab (sp.root, 3, 0) = some sp.root)
    (hbb : bb / 4096 < userPages) (hnone : m.walk sp.root bb = none)
    (hstack : bb < (vmStart m sp.vm).toNat ∧ (vmEnd m sp.vm).toNat < bb)
    (hin : inAreas m sp bb = some true)
    (hcow : cow (m.word (m.getPTE sp.root bb) (idx bb 12)) = false) {l : List Nat}
    (hl : FreeList m l) (hlen : m.missingTables sp.root bb + 1 ≤ l.length) :
    ∃ m', isr14 m sp bb = some (.resume m') ∧ Grown m G sp.root bb m' := by
  have hleaf : G.leaf (sp.root, bb / 4096) = none := by
    rw [h.walk hroot hbb] at hnone
    simpa using hnone
  obtain ⟨⟨a, m₁⟩, halloc⟩ := Mem.allocatePage_ok hl (by omega)
  have htakes := Mem.allocatePage_takes halloc
  obtain ⟨f₁, -, rfl, -, -, -, h₁⟩ := h.alloc halloc
  have hv : bb / 4096 * 4096 / 4096 < userPages := by rwa [frame_div]
  -- the tables are the same when the frame for the page has been taken
  have hmiss : m₁.missingTables sp.root (bb / 4096 * 4096) = m.missingTables sp.root bb := by
    have hnew := h₁.missingTables (p := sp.root) (v := bb / 4096 * 4096) hroot hv
    rw [hnew, h.missingTables hroot hbb, frame_div]
    rfl
  obtain ⟨m₂, hmap⟩ := h₁.initPages_ok (p := sp.root) hroot hv (f₁ * 4096) (htakes l hl).2
    (by rw [hmiss, List.length_drop]; omega)
  have htakes₂ := h₁.initPages_takes (p := sp.root) hroot hv hmap
  rw [hmiss] at htakes₂
  obtain ⟨f, G', hfree, hR, hleaf'⟩ := repaired_new h hroot hbb hleaf halloc hmap
  have hleafp : G'.leaf (sp.root, bb / 4096) = some ⟨f, true⟩ := by
    rw [hleaf', Function.update_self]
  refine ⟨m₂, ?_, ⟨f, ?_, ?_, (hR.walk h hroot hbb hleafp).1⟩, htakes.trans htakes₂,
    fun q v hq hv hne => hR.others h hq hv hne⟩
  · rw [isr14_unmarked hin hcow, if_pos hstack, halloc, Option.bind_some]
    dsimp only
    rw [hmap]
    rfl
  · rw [onFreeList_iff h, hfree]
  · rw [onFreeList_iff hR.inv, hR.inv.refs.target _ _ hleafp]
    simp

end Grow

/-- For every tree of tables and whatever physical page 0 holds: a fault on a
missing page between the bounds of the stack adds that page and nothing else if
the entry `getPTE` finds does not have the mark of a shared page, and there are
frames for the page and for the missing tables. A frame number out of page 0 comes into
it only in a tree without the page directory of the stack, and every process has that. -/
theorem stack_growth_iff (m : Mem) (G : Ghost) (sp : Space) (bb : Nat) (h : Inv m G)
    (hroot : G.tab (sp.root, 3, 0) = some sp.root)
    (hstart : (vmStart m sp.vm).toNat / 4096 < userPages)
    (hlo : (vmEnd m sp.vm).toNat < bb) (hhi : bb < (vmStart m sp.vm).toNat)
    (hnone : m.walk sp.root bb = none) :
    (∃ m', isr14 m sp bb = some (.resume m') ∧ Grown m G sp.root bb m') ↔
      cow (m.word (m.getPTE sp.root bb) (idx bb 12)) = false ∧
        ∃ l, FreeList m l ∧ m.missingTables sp.root bb + 1 ≤ l.length := by
  have hbb : bb / 4096 < userPages := by omega
  have hin : inAreas m sp bb = some true := by
    have hnext : (vmStart m sp.vm + 4096).toNat = (vmStart m sp.vm).toNat + 4096 := by
      have hconst : (4096 : Word).toNat = 4096 := rfl
      simp only [userPages] at hstart
      rw [BitVec.toNat_add, hconst, Nat.mod_eq_of_lt (by omega)]
    unfold inAreas
    rw [hnext, if_pos ⟨by omega, hlo⟩]
  constructor
  · rintro ⟨m', hrun, hgrown⟩
    refine ⟨?_, ?_⟩
    · by_contra hcow
      obtain ⟨f, -, -, hwalk⟩ := hgrown.page
      rw [isr14_marked h hroot hbb hnone (by simpa using hcow) hrun] at hwalk
      cases hwalk
    · obtain ⟨l, hl, -⟩ := h.pool.chain
      have hlen := (hgrown.taken l hl).1
      exact ⟨l, hl, by omega⟩
  · rintro ⟨hcow, l, hl, hlen⟩
    exact isr14_grows h hroot hbb hnone ⟨hhi, hlo⟩ hin hcow hl hlen

/-- A list that goes on behind its first frame has two. -/
theorem freeList_two {m : Mem} {l : List Nat} (h : FreeList m l) {f g : Nat}
    (hhead : m.head = some f) (hnext : (m.page f).next = some g) : 2 ≤ l.length := by
  unfold FreeList at h
  rw [hhead] at h
  obtain ⟨rest, rfl, htail⟩ := h.eq_cons
  rw [hnext] at htail
  obtain ⟨rest, rfl, -⟩ := htail.eq_cons
  simp

/-- The shell's first access five megabytes down its stack, with zeros in page 0:
it gets the page and the page table above it. -/
theorem stack_growth_iff_zero :
    ∃ k G, Reachable System.step Safe BootStart k ∧ Inv k.mem G ∧
      k.mem.missingTables k.cur.root 0x100FFFB00000 = 1 ∧
      ∃ m', isr14 k.mem k.cur 0x100FFFB00000 = some (.resume m') ∧
        Grown k.mem G k.cur.root 0x100FFFB00000 m' := by
  have hrun : (System.start smallMem emptyImage []).any (fun k => k.inUser && decide (
      (k.mem.head = some 15 ∧ (k.mem.page 15).next = some 16) ∧
      k.mem.missingTables k.cur.root 0x100FFFB00000 = 1 ∧
      k.mem.walk k.cur.root 0x100FFFB00000 = none ∧
      cow (k.mem.word (k.mem.getPTE k.cur.root 0x100FFFB00000) (idx 0x100FFFB00000 12)) = false))
        = true := by
    decide +kernel
  obtain ⟨k, hk, hprop⟩ := (Option.any_eq_true _ _).mp hrun
  simp only [Bool.and_eq_true, decide_eq_true_eq] at hprop
  obtain ⟨huser, ⟨hhead, hnext⟩, hmiss, hnone, hcow⟩ := hprop
  obtain ⟨G, hgood, -⟩ := smallMem_boot.start emptyImage_ok (by decide) hk
  have hv := hgood.cur_valid huser
  have hreach : Reachable System.step Safe BootStart k :=
    .start ⟨smallMem, emptyImage, [], smallMem_boot, emptyImage_ok, by decide, hk⟩
  obtain ⟨l, hl, -⟩ := hgood.inv.pool.chain
  have hlen := freeList_two hl hhead hnext
  exact ⟨k, G, hreach, hgood.inv, hmiss, (stack_growth_iff k.mem G k.cur 0x100FFFB00000 hgood.inv
    hv.root (by rw [hv.stack_start]; decide) (by rw [hv.stack_end]; decide)
    (by rw [hv.stack_start]; decide) hnone).mpr ⟨hcow, l, hl, by rw [hmiss]; exact hlen⟩⟩

/-- The same access with bit 9 set in every word of page 0: `isr14` takes the
missing page for a shared one. -/
theorem page_zero_marks_stack :
    ¬ ∀ k, Reachable System.step Safe BootStart k → k.inUser = true → ∀ bb l,
      (vmEnd k.mem k.cur.vm).toNat < bb → bb < (vmStart k.mem k.cur.vm).toNat →
      k.mem.walk k.cur.root bb = none → FreeList k.mem l →
      k.mem.missingTables k.cur.root bb + 1 ≤ l.length →
        ∃ m', isr14 k.mem k.cur bb = some (.resume m') ∧ m'.walk k.cur.root bb ≠ none := by
  intro hall
  have hrun : (System.start (smallMem.setFrame 0 fun _ => 0x200) emptyImage []).any
      (fun k => k.inUser && decide (
        (k.mem.head = some 15 ∧ (k.mem.page 15).next = some 16) ∧
        k.mem.missingTables k.cur.root 0x100FFFB00000 = 1 ∧
        k.mem.walk k.cur.root 0x100FFFB00000 = none ∧
        cow (k.mem.word (k.mem.getPTE k.cur.root 0x100FFFB00000) (idx 0x100FFFB00000 12)) = true))
          = true := by
    decide +kernel
  obtain ⟨k, hk, hprop⟩ := (Option.any_eq_true _ _).mp hrun
  simp only [Bool.and_eq_true, decide_eq_true_eq] at hprop
  obtain ⟨huser, ⟨hhead, hnext⟩, hmiss, hnone, hcow⟩ := hprop
  have hboot := smallMem_boot_zero fun _ => 0x200
  obtain ⟨G, hgood, -⟩ := hboot.start emptyImage_ok (by decide) hk
  have hv := hgood.cur_valid huser
  have hreach : Reachable System.step Safe BootStart k :=
    .start ⟨_, emptyImage, [], hboot, emptyImage_ok, by decide, hk⟩
  obtain ⟨l, hl, -⟩ := hgood.inv.pool.chain
  have hlen := freeList_two hl hhead hnext
  obtain ⟨m', hisr, hwalk⟩ := hall k hreach huser 0x100FFFB00000 l
    (by rw [hv.stack_end]; decide) (by rw [hv.stack_start]; decide) hnone hl
    (by rw [hmiss]; exact hlen)
  exact hwalk (isr14_marked hgood.inv hv.root (by decide) hnone hcow hisr)

end X86Kernel.Kern
