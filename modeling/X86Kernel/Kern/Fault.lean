import X86Kernel.Kern.Load

/-!
Page faults: `isr14` gives the process a copy of a shared page, the page itself
when nobody else shares it any more, or a new page of stack.
-/

namespace X86Kernel.Kern

open Lib Paging

section Fault

variable {m : Mem} {G : Ghost} {sp : Space} {bb : Nat}

/-- The entry `isr14` looks at. Below a missing table it is read from frame 0. -/
theorem pte_read (h : Inv m G) (hroot : G.tab (sp.root, 3, 0) = some sp.root)
    (hbb : bb / 4096 < userPages)
    (hpte : G.tab (sp.root, 0, bb / 4096 / 512) ≠ none ∨ ∀ i, m.word 0 i = 0) :
    m.word (m.getPTE sp.root bb) (idx bb 12) = leafWord (G.leaf (sp.root, bb / 4096)) := by
  cases ht : G.tab (sp.root, 0, bb / 4096 / 512) with
  | some t => rw [h.getPTE hroot hbb ht, idx_12, h.word_page ht]
  | none =>
      have hzero := hpte.resolve_left (by simp [ht])
      rw [h.getPTE_missing hroot hbb ht hzero, hzero, h.leaf_none ht]
      rfl

/-- What a repaired fault leaves: the page is the process's own, with what it
held before, and nothing else that anybody sees has changed. -/
structure Repaired (p n : Nat) (m : Mem) (G : Ghost) (m' : Mem) (G' : Ghost) : Prop where
  inv : Inv m' G'
  ext : Extends p (fun _ => False) m G m' G'
  held : G'.held = G.held
  leaf : ∃ f, G'.leaf = Function.update G.leaf (p, n) (some ⟨f, true⟩) ∧
    ∀ e, G.leaf (p, n) = some e → m'.word f = m.word e.frame
  kernel : KeepsKernel p (G.leaf (p, n) = none) m G m' G'

/-- Two readings of memories with the same free list agree on what is free. -/
theorem free_iff_of_list {m' : Mem} {G' : Ghost} (h : Inv m G) (h' : Inv m' G')
    (hpage : m'.page = m.page) (hhead : m'.head = m.head) (f : Nat) :
    G'.role f = .free ↔ G.role f = .free := by
  obtain ⟨l, hchain, -, hl⟩ := h.pool.chain
  obtain ⟨l', hchain', -, hl'⟩ := h'.pool.chain
  rw [hpage, hhead] at hchain'
  rw [← hl, ← hl', hchain'.unique hchain]

/-- The tables are known from the roles. -/
theorem tab_eq_of_role {m' : Mem} {G' : Ghost} (h : Inv m G) (h' : Inv m' G')
    (hrole : ∀ t q l k, G'.role t = .table q l k ↔ G.role t = .table q l k) : G'.tab = G.tab := by
  funext ⟨q, l, k⟩
  refine Option.ext (fun t => ?_)
  rw [h'.trees.role, h.trees.role, hrole]

/-- What becomes of the frame of a page that a fault makes writable: the process
keeps it, or gets the free frame `g` in place of one with two references. -/
def Refit (p n : Nat) (m : Mem) (G G' : Ghost) : Prop :=
  G'.tab = G.tab ∧ ((G'.role = G.role ∧ G'.mapped = G.mapped) ∨
    ∃ f g, G.mapped (p, n) = some f ∧ (m.page f).refCount = 2 ∧ G.role g = .free ∧
      G'.role = Function.update G.role g .data ∧
      G'.mapped = Function.update G.mapped (p, n) (some g))

/-- The second case of the copy-on-write branch: the last one to hold the page
keeps it. -/
theorem repaired_own (h : Inv m G) {e : Pte} {p n t : Nat}
    (hp : G.tab (p, 3, 0) = some p) (ht : G.tab (p, 0, n / 512) = some t)
    (he : G.leaf (p, n) = some e) (hown : e.own = false) (hrc : (m.page e.frame).refCount = 1) :
    Repaired p n m G (m.set t (n % 512) (ownEntry (leafWord (some e))))
      { G with leaf := Function.update G.leaf (p, n) (some ⟨e.frame, true⟩) } := by
  have hn : n / 512 * 512 + n % 512 = n := by omega
  have hword : ownEntry (leafWord (some e)) = leafWord (some ⟨e.frame, true⟩) :=
    Pte.own_word hown
  have hset := h.setLeaf ht (show n % 512 < 512 by omega) (v := some ⟨e.frame, true⟩) (G.held)
    ?_ ?_
  · rw [hn, ← hword] at hset
    have hrole := (h.trees.role _ _ _ _).mp ht
    have hext : Extends p (fun _ => False) m G
        (m.set t (n % 512) (ownEntry (leafWord (some e))))
        { G with leaf := Function.update G.leaf (p, n) (some ⟨e.frame, true⟩) } := by
      refine ⟨fun _ _ => rfl, fun _ hg => Or.inl hg, ?_, rfl⟩
      intro g _ _ hnot
      refine Mem.set_word_of_ne _ _ ?_
      rintro rfl
      exact hnot _ _ _ hrole
    refine ⟨hset, hext, rfl, ⟨e.frame, rfl, ?_⟩, ⟨?_, ?_, by simp [he]⟩⟩
    · intro e' he'
      rw [he] at he'
      obtain rfl := Option.some.inj he'
      have htarget := h.refs.target _ e he
      refine Mem.set_word_of_ne _ _ (fun hcon => ?_)
      rw [hcon, hrole] at htarget
      cases htarget
    · exact hext.steady h hset hp fun _ hx => hx.elim
    · refine .of_word fun q hq => Mem.set_word_of_ne _ _ ?_
      rintro rfl
      rw [h.root_role hq] at hrole
      simp at hrole
  · rintro e' ⟨⟩
    refine ⟨h.refs.target _ e he, fun _ => hrc, ?_⟩
    intro n' e' hne he' hcon
    exact hne (by rw [hn]; exact h.refs.inj p n' n e' e he' he hcon)
  · intro g
    rw [hn]
    simp [Ghost.mapped, he]

/-- The first case of the copy-on-write branch: two hold the page, and the one
that faulted gets a copy. -/
theorem repaired_copy (h : Inv m G) {m₁ m₂ : Mem} {e : Pte} {p v a : Nat}
    (hp : G.tab (p, 3, 0) = some p) (hv : v / 4096 < userPages)
    (he : G.leaf (p, v / 4096) = some e) (hrc : (m.page e.frame).refCount = 2)
    (halloc : m.allocatePage = some (a, m₁))
    (hrun : (m₁.setFrame (a / 4096) (m.word e.frame)).initPagesForProcess v a p = some m₂) :
    ∃ G', Repaired p (v / 4096) m G (m₂.free (e.frame * 4096)) G' ∧
      Refit p (v / 4096) m G G' := by
  have hkernel : ∀ G₂, Steady m G m₂ G₂ →
      KeepsKernel p (G.leaf (p, v / 4096) = none) m G m₂ G₂ :=
    fun _ hs => .of_mapNew h hs hp hv halloc _ hrun
  obtain ⟨f, hfree, rfl, hw, hkp, hone, h₁⟩ := h.alloc halloc
  rw [frame_div] at hrun
  obtain ⟨G₂, h₂, hE₂, hleaf₂, hwf, hheld₂, -⟩ :=
    h.mapFresh hp hv hfree hw hkp hone h₁ _ hrun
  have hfresh : ((G.setRole f .data).setHeld f 1).role f = .data := by
    simp [Ghost.setHeld, Ghost.setRole]
  have hset := h₁.setFrame (f := f) (by simp [hfresh]) (by simp [hfresh]) (m.word e.frame)
  obtain ⟨hpage₂, hhead₂⟩ := hset.initPages_mapped (p := p) hp hv
    (show G.leaf (p, v / 4096) ≠ none by simp [he]) hrun
  have hmap₂ : G₂.mapped = Function.update G.mapped (p, v / 4096) (some f) := by
    funext x
    unfold Ghost.mapped
    rw [hleaf₂]
    by_cases hx : x = (p, v / 4096) <;> simp [hx]
  -- the tables were there, so no second frame was taken
  have hrole₂ : G₂.role = Function.update G.role f .data := by
    funext g
    by_cases hgf : g = f
    · subst hgf
      rw [Function.update_self]
      exact h₂.refs.target (p, v / 4096) ⟨g, true⟩ (by simp [hleaf₂])
    · rw [Function.update_of_ne hgf]
      by_cases hg : G.role g = .free
      · rw [hg, free_iff_of_list hset h₂ hpage₂ hhead₂]
        simpa [Ghost.setHeld, Ghost.setRole, hgf] using hg
      · exact hE₂.role g hg
  have hdata := h.refs.target _ e he
  have hmapped : G.mapped (p, v / 4096) = some e.frame := by simp [Ghost.mapped, he]
  have hne : f ≠ e.frame := by
    rintro rfl
    simp [hdata] at hfree
  have hdata₂ : G₂.role e.frame = .data := by rw [hE₂.role _ (by simp [hdata]), hdata]
  have hheldE : G₂.held e.frame = G.held e.frame + 1 := by rw [hheld₂, if_pos hmapped]
  -- one reference less, but one more in the hands of the handler
  have hcount : (m₂.page e.frame).refCount = 2 := by
    have hupd := refCount_update h.refs.finite (p, v / 4096) (some f) e.frame
    rw [if_pos hmapped, if_neg (by simpa using hne)] at hupd
    have hc := h.refs.count _ hdata
    have hc₂ := h₂.refs.count _ hdata₂
    rw [hmap₂] at hc₂
    omega
  obtain ⟨G₃, h₃, htab₃, hleaf₃, hheld₃, hrole₃⟩ := h₂.free hdata₂ (by omega)
  have hrole : G₃.role = G₂.role := by
    funext g
    rw [hrole₃ g, if_neg (by omega)]
  have hrefit : Refit p (v / 4096) m G G₃ := by
    have hmap₃ : G₃.mapped = G₂.mapped := by
      unfold Ghost.mapped
      rw [hleaf₃]
    refine ⟨tab_eq_of_role h h₃ ?_, .inr ⟨e.frame, f, hmapped, hrc, hfree, by rw [hrole, hrole₂],
      by rw [hmap₃, hmap₂]⟩⟩
    intro t q l k
    rw [hrole, hrole₂]
    by_cases htf : t = f
    · simp [htf, hfree]
    · rw [Function.update_of_ne htf]
  have hE₃ : Extends p (fun _ => False) m G (m₂.free (e.frame * 4096)) G₃ := by
    refine ⟨?_, ?_, ?_, ?_⟩
    · intro g hg
      rw [hrole, hE₂.role g hg]
    · intro g hg
      rw [hrole]
      exact hE₂.fresh g hg
    · intro g hX hg ht
      rw [Mem.free_word, hE₂.word g hX hg ht]
    · rw [Mem.free_kpml4, hE₂.kpml4]
  have hkernel₂ := hkernel G₂ (hE₂.steady h h₂ hp fun _ hx => hx.elim)
  refine ⟨G₃, ⟨h₃, hE₃, ?_, ⟨f, ?_, ?_⟩,
    hE₃.steady h h₃ hp fun _ hx => hx.elim, ?_, ?_⟩, hrefit⟩
  · rw [hheld₃]
    funext g
    by_cases hg : g = e.frame
    · subst hg
      simp [hheldE]
    · have hother : ¬ G.mapped (p, v / 4096) = some g := by
        rw [hmapped]
        simpa using Ne.symm hg
      rw [Function.update_of_ne hg, hheld₂, if_neg hother]
      rfl
  · rw [hleaf₃, hleaf₂]
  · intro e' he'
    rw [he] at he'
    obtain rfl := Option.some.inj he'
    rw [Mem.free_word, hwf]
  · intro q hq
    rw [Mem.free_word]
    exact hkernel₂.keeps q hq
  · intro hnone hq
    rw [Mem.free_word]
    exact hkernel₂.own hnone hq

/-- `isr14` returns to the process only for an address in its areas. -/
theorem isr14_inside {m' : Mem} (hrun : isr14 m sp bb = some (.resume m')) :
    inAreas m sp bb = some true := by
  unfold isr14 at hrun
  obtain ⟨inside, hin, hrun⟩ := Option.bind_eq_some_iff.mp hrun
  cases inside with
  | false => simp at hrun
  | true => exact hin

/-- `isr14` for a shared page of the process, by the number of references. -/
theorem isr14_shared {e : Pte} {t : Nat} (h : Inv m G)
    (hroot : G.tab (sp.root, 3, 0) = some sp.root) (hbb : bb / 4096 < userPages)
    (ht : G.tab (sp.root, 0, bb / 4096 / 512) = some t)
    (he : G.leaf (sp.root, bb / 4096) = some e) (hown : e.own = false)
    (hin : inAreas m sp bb = some true) :
    isr14 m sp bb =
      if (m.page e.frame).refCount = 2 then
        m.allocatePage.bind fun r =>
          ((r.2.setFrame (r.1 / 4096) (m.word e.frame)).initPagesForProcess (bb / 4096 * 4096) r.1
            sp.root).map fun m₂ => .resume (m₂.free (e.frame * 4096))
      else if (m.page e.frame).refCount = 1 then
        some (.resume (m.set t (bb / 4096 % 512) (ownEntry (leafWord (some e)))))
      else some .stuck := by
  have hcow : cow (leafWord (some e)) = true := by simp [leafWord, hown]
  have haddr : addrOf (leafWord (some e)) = e.frame * 4096 := Pte.addrOf_word (h.leaf_lt he)
  unfold isr14
  simp only [hin, Option.bind_eq_bind, Option.bind_some, if_true,
    pte_read h hroot hbb (Or.inl (by simp [ht])), he]
  rw [if_pos hcow, haddr, h.getPTE hroot hbb ht, idx_12]
  simp only [Mem.getrefcount, frame_div]
  refine if_congr Iff.rfl ?_ rfl
  apply Option.bind_congr
  rintro ⟨a, m₁⟩ halloc
  obtain ⟨f, -, rfl, hw, -, -, h₁⟩ := h.alloc halloc
  -- the copy reads the page through the tables, which still show it
  have hwalk : m₁.walk sp.root bb = some e.word := by
    have hleaf : ((G.setRole f .data).setHeld f 1).leaf (sp.root, bb / 4096) = some e := he
    rw [h₁.walk hroot hbb, hleaf]
    rfl
  simp only [hwalk, Option.bind_some, Pte.frameOf_word (h.leaf_lt he), hw, Option.map_eq_bind]
  rfl

/-- `isr14` for a page that is mapped, when it returns to the process. -/
theorem isr14_mapped {m' : Mem} {e : Pte} (h : Inv m G)
    (hroot : G.tab (sp.root, 3, 0) = some sp.root) (hbb : bb / 4096 < userPages)
    (he : G.leaf (sp.root, bb / 4096) = some e) (hown : e.own = false)
    (hrun : isr14 m sp bb = some (.resume m')) :
    ∃ G', Repaired sp.root (bb / 4096) m G m' G' ∧ Refit sp.root (bb / 4096) m G G' := by
  have hpage : bb / 4096 * 4096 / 4096 = bb / 4096 := frame_div _
  have htab := h.trees.leaf _ _ (by simp [he] : G.leaf (sp.root, bb / 4096) ≠ none)
  obtain ⟨t, ht⟩ := Option.ne_none_iff_exists'.mp htab
  rw [isr14_shared h hroot hbb ht he hown (isr14_inside hrun)] at hrun
  split_ifs at hrun with htwo hone
  · obtain ⟨⟨a, m₁⟩, halloc, hrun⟩ := Option.bind_eq_some_iff.mp hrun
    obtain ⟨m₂, hmap, hrun⟩ := Option.map_eq_some_iff.mp hrun
    obtain rfl := Fault.resume.inj hrun
    have he' : G.leaf (sp.root, bb / 4096 * 4096 / 4096) = some e := by rw [hpage, he]
    have hcopy := repaired_copy h hroot (by rwa [hpage]) he' htwo halloc hmap
    rwa [hpage] at hcopy
  · obtain rfl := Fault.resume.inj (Option.some.inj hrun)
    refine ⟨_, repaired_own h hroot ht he hown hone, rfl, .inl ⟨rfl, ?_⟩⟩
    funext x
    by_cases hx : x = (sp.root, bb / 4096)
    · simp [Ghost.mapped, hx, he]
    · simp [Ghost.mapped, Function.update_of_ne hx]
  · simp at hrun

/-- `isr14` for an entry without the mark of a shared page: a new page below the
top of the stack, and the end of the process elsewhere. -/
theorem isr14_unmarked (hin : inAreas m sp bb = some true)
    (hcow : cow (m.word (m.getPTE sp.root bb) (idx bb 12)) = false) :
    isr14 m sp bb =
      if bb < (vmStart m sp.vm).toNat ∧ (vmEnd m sp.vm).toNat < bb then
        m.allocatePage.bind fun r =>
          (r.2.initPagesForProcess (bb / 4096 * 4096) r.1 sp.root).map .resume
      else some .segv := by
  unfold isr14
  simp only [hin, Option.bind_eq_bind, Option.bind_some, if_true, hcow, Bool.false_eq_true,
    if_false, Option.map_eq_bind]
  rfl

/-- A new page where none was mapped. -/
theorem repaired_new (h : Inv m G) {m₁ m₂ : Mem} {p n a : Nat} (hp : G.tab (p, 3, 0) = some p)
    (hn : n < userPages) (hnone : G.leaf (p, n) = none) (halloc : m.allocatePage = some (a, m₁))
    (hmap : m₁.initPagesForProcess (n * 4096) a p = some m₂) :
    ∃ f G', G.role f = .free ∧ Repaired p n m G m₂ G' ∧
      G'.leaf = Function.update G.leaf (p, n) (some ⟨f, true⟩) := by
  have hpage : n * 4096 / 4096 < userPages := by rwa [frame_div]
  obtain ⟨f, G', hfree, h', hE, hleaf, hheld, -, -⟩ := h.mapNew hp hpage halloc hmap
  rw [frame_div] at hleaf hheld
  refine ⟨f, G', hfree, ⟨h', hE, ?_, ⟨f, hleaf, by simp [hnone]⟩,
    .of_map h (hE.steady h h' hp fun _ hx => hx.elim) hp hpage halloc hmap⟩, hleaf⟩
  funext g
  rw [hheld g]
  simp [Ghost.mapped, hnone]

/-- `isr14`, when it returns to the process. -/
theorem isr14_spec {m' : Mem} (h : Inv m G) (hv : Valid m G sp) (hbb : bb / 4096 < userPages)
    (hpte : G.tab (sp.root, 0, bb / 4096 / 512) ≠ none ∨ ∀ i, m.word 0 i = 0)
    (hfault : ∀ e, G.leaf (sp.root, bb / 4096) = some e → e.own = false)
    (hrun : isr14 m sp bb = some (.resume m')) :
    (∃ G', Repaired sp.root (bb / 4096) m G m' G') ∧
      (G.leaf (sp.root, bb / 4096) = none → stackEnd < bb ∧ bb < stackStart) := by
  cases he : G.leaf (sp.root, bb / 4096) with
  | some e =>
      obtain ⟨G', hR, -⟩ := isr14_mapped h hv.root hbb he (hfault e he) hrun
      exact ⟨⟨G', hR⟩, by simp⟩
  | none =>
      have hcow : cow (m.word (m.getPTE sp.root bb) (idx bb 12)) = false := by
        rw [pte_read h hv.root hbb hpte, he]
        simp [leafWord, cow]
      rw [isr14_unmarked (isr14_inside hrun) hcow] at hrun
      split_ifs at hrun with hstack
      · obtain ⟨⟨a, m₁⟩, halloc, hrun⟩ := Option.bind_eq_some_iff.mp hrun
        obtain ⟨m₂, hmap, hrun⟩ := Option.map_eq_some_iff.mp hrun
        obtain rfl := Fault.resume.inj hrun
        obtain ⟨f, G', -, hR, -⟩ := repaired_new h hv.root hbb he halloc hmap
        rw [hv.stack_start, hv.stack_end] at hstack
        exact ⟨⟨G', hR⟩, fun _ => ⟨hstack.2, hstack.1⟩⟩
      · simp at hrun

/-- A repaired page shows the bytes it showed before. -/
theorem Repaired.load {m' : Mem} {G' : Ghost} {p n : Nat} (hR : Repaired p n m G m' G')
    (h : Inv m G) (hp : G.tab (p, 3, 0) = some p) {v : Nat} (hv : v / 4096 < userPages)
    (hpage : v / 4096 = n → G.leaf (p, n) ≠ none) : m'.load p v = m.load p v := by
  have hp' : G'.tab (p, 3, 0) = some p := by rw [hR.ext.root h hR.inv, hp]
  obtain ⟨f, hleaf, hwf⟩ := hR.leaf
  rw [h.load hp hv, hR.inv.load hp' hv]
  unfold Ghost.mapped
  rw [hleaf]
  by_cases hn : v / 4096 = n
  · obtain ⟨e, he⟩ := Option.ne_none_iff_exists'.mp (hpage hn)
    simp [hn, he, hwf e he]
  · rw [Function.update_of_ne (by simpa using hn)]
    cases he : G.leaf (p, v / 4096) with
    | none => rfl
    | some e =>
        have hdata := h.refs.target _ e he
        simp [hR.ext.word e.frame (fun hx => hx) (by simp [hdata]) (by simp [hdata])]

/-- A byte stored is the byte loaded, and every other byte stays. -/
theorem store_load {m' : Mem} {p a : Nat} {b : Byte} (h : Inv m G)
    (hp : G.tab (p, 3, 0) = some p) (ha : a / 4096 < userPages)
    (hrun : m.store p a (fun w => setByte w (a % 8) b) = some m') {v : Nat}
    (hv : v / 4096 < userPages) :
    m'.load p v = if v = a then some b else m.load p v := by
  obtain ⟨e, he, -, rfl, h', -⟩ := h.store hp ha hrun
  rw [h.load hp hv, h'.load hp hv]
  unfold Ghost.mapped
  cases hl : G.leaf (p, v / 4096) with
  | none =>
      have hne : v ≠ a := by
        rintro rfl
        simp [hl] at he
      simp [hne]
  | some e' =>
      simp only [Option.map_some, Mem.set_word]
      by_cases hword : e'.frame = e.frame ∧ v % 4096 / 8 = a % 4096 / 8
      · -- the same word of the same frame, hence of the same page
        have hpage := h.refs.inj p _ _ e' e hl he hword.1
        rw [if_pos hword, byteAt_setByte (by omega) (by omega), hword.1, hword.2]
        by_cases hva : v = a
        · simp [hva]
        · rw [if_neg hva, if_neg (by omega)]
      · rw [if_neg hword, if_neg]
        rintro rfl
        rw [he] at hl
        obtain rfl := Option.some.inj hl
        exact hword ⟨rfl, rfl⟩

theorem Repaired.valid {m' : Mem} {G' : Ghost} {n : Nat} (hR : Repaired sp.root n m G m' G')
    (h : Inv m G) (hv : Valid m G sp) : Valid m' G' sp ∧ brk m' sp = brk m sp := by
  have hword : ∀ f, G.role f = .vma sp.root → m'.word f = m.word f := by
    intro f hf
    exact hR.ext.word f (fun hx => hx) (by simp [hf]) (by simp [hf])
  refine ⟨hv.keep h (hR.ext.root h hR.inv _) (fun f => hR.ext.vma _ f) hword ?_,
    (hv.words_eq h hword).2.2.2⟩
  intro k hk
  obtain ⟨f, hleaf, -⟩ := hR.leaf
  rw [hleaf]
  by_cases hkn : k = n
  · simp [hkn]
  · rwa [Function.update_of_ne (by simpa using hkn)]

theorem Repaired.builds {m' : Mem} {G' : Ghost} {n : Nat} {N : Nat → Prop} {D : Prop}
    (hR : Repaired sp.root n m G m' G') (h : Inv m G) (hhome : Homed G)
    (hN : ∀ k, N k ↔ k = n ∧ G.leaf (sp.root, k) = none) :
    Builds sp.root D N m G m' G' := by
  obtain ⟨f, hleaf, -⟩ := hR.leaf
  have hother : ∀ q k, q ≠ sp.root → G'.leaf (q, k) = G.leaf (q, k) := by
    intro q k hq
    rw [hleaf, Function.update_of_ne (by simp [hq])]
  have hsame : ∀ k, k ≠ n → G'.leaf (sp.root, k) = G.leaf (sp.root, k) := by
    intro k hk
    rw [hleaf, Function.update_of_ne (by simpa using hk)]
  have hmapped : G'.leaf (sp.root, n) ≠ none := by simp [hleaf]
  refine ⟨hR.inv, hhome.of_vma (fun f q => hR.ext.vma q f) (fun q => hR.ext.root h hR.inv q),
    hR.ext.frame_own h hR.inv hother, hR.ext.root h hR.inv _, ?_, ?_, ?_, fun _ _ => hR.held,
    hR.kernel.mono ?_⟩
  · intro k hk
    by_cases hkn : k = n
    · rwa [hkn]
    · rwa [hsame k hkn]
  · intro k hk
    rwa [((hN k).mp hk).1]
  · intro k hk
    by_cases hnone : k = n ∧ G.leaf (sp.root, k) = none
    · exact Or.inr ((hN k).mpr hnone)
    · by_cases hkn : k = n
      · exact Or.inl fun hcon => hnone ⟨hkn, hcon⟩
      · rw [hsame k hkn] at hk
        exact Or.inl hk
  · rintro ⟨k, hk⟩
    obtain ⟨rfl, hnone⟩ := (hN k).mp hk
    exact hnone

end Fault

/-- The pages a write at `a` may add: the page of `a`, on the stack. -/
def growsAt (G : Ghost) (p a n : Nat) : Prop :=
  n = a / 4096 ∧ G.leaf (p, n) = none ∧ stackEnd < a ∧ a < stackStart

/-- A write that returns to its process was done at once, or after a fault. -/
theorem write_resume {m m' : Mem} {sp : Space} {a : Nat} {g : Word → Word}
    (hrun : write m sp a g = some (.resume m')) :
    m.store sp.root a g = some m' ∨ m.store sp.root a g = none ∧
      ∃ m₁, isr14 m sp a = some (.resume m₁) ∧ m₁.store sp.root a g = some m' := by
  unfold write at hrun
  cases hs : m.store sp.root a g with
  | some m₁ =>
      obtain rfl : m₁ = m' := by simpa [hs] using hrun
      exact Or.inl rfl
  | none =>
      simp only [hs] at hrun
      cases hisr : isr14 m sp a with
      | none => simp [hisr] at hrun
      | some r =>
          cases r with
          | segv => simp [hisr] at hrun
          | stuck => simp [hisr] at hrun
          | resume m₁ =>
              obtain ⟨m₂, hs₂, heq⟩ : ∃ m₂, m₁.store sp.root a g = some m₂ ∧ m₂ = m' := by
                simpa [hisr] using hrun
              exact Or.inr ⟨rfl, m₁, rfl, heq ▸ hs₂⟩

/-- The page of a write that faults is shared, if it is there at all. -/
theorem shared_of_fault {m : Mem} {G : Ghost} {p a : Nat} {g : Word → Word} (h : Inv m G)
    (hp : G.tab (p, 3, 0) = some p) (ha : a / 4096 < userPages) (hs : m.store p a g = none)
    (e : Pte) (he : G.leaf (p, a / 4096) = some e) : e.own = false := by
  unfold Mem.store at hs
  rw [h.walk hp ha, he] at hs
  simpa using hs

/-- A write that is not the end of its process is a store, perhaps after a
repaired fault. -/
theorem write_cases {m m' : Mem} {G : Ghost} {sp : Space} {a : Nat} {g : Word → Word}
    (h : Inv m G) (hv : Valid m G sp) (ha : a / 4096 < userPages)
    (hpte : G.tab (sp.root, 0, a / 4096 / 512) ≠ none ∨ ∀ i, m.word 0 i = 0)
    (hrun : write m sp a g = some (.resume m')) :
    m.store sp.root a g = some m' ∨ ∃ m₁ G₁, Repaired sp.root (a / 4096) m G m₁ G₁ ∧
      (G.leaf (sp.root, a / 4096) = none → stackEnd < a ∧ a < stackStart) ∧
      m₁.store sp.root a g = some m' := by
  obtain hs | ⟨hnone, m₁, hisr, hs⟩ := write_resume hrun
  · exact Or.inl hs
  · obtain ⟨⟨G₁, hR⟩, hgrow⟩ :=
      isr14_spec h hv ha hpte (shared_of_fault h hv.root ha hnone) hisr
    exact Or.inr ⟨m₁, G₁, hR, hgrow, hs⟩

/-- A store keeps the shape of the process that makes it. -/
theorem store_builds {m m' : Mem} {G : Ghost} {sp : Space} {a : Nat} {g : Word → Word}
    (h : Inv m G) (hhome : Homed G) (hv : Valid m G sp) (ha : a / 4096 < userPages)
    (hs : m.store sp.root a g = some m') :
    Builds sp.root True (fun _ => False) m G m' G ∧ Valid m' G sp ∧ brk m' sp = brk m sp ∧
      G.leaf (sp.root, a / 4096) ≠ none := by
  obtain ⟨h₂, hF, hnode⟩ := h.store_frame hv.root ha hs
  obtain ⟨e, he, -⟩ := h.store hv.root ha hs
  have hkernel : KeepsKernel sp.root False m G m' G :=
    .of_keeps (hF.steady h hv.root hv.root) (h.store_top hv.root ha hs)
  refine ⟨Builds.of_same h₂ hhome hF hkernel, ?_, ?_, by simp [he]⟩
  · exact hv.keep h rfl (fun _ => Iff.rfl) (fun f hf => hnode f _ hf) (fun _ hn => hn)
  · exact (hv.words_eq h (fun f hf => hnode f _ hf)).2.2.2

/-- A repaired fault adds the page of the fault, if it was not there. -/
theorem Repaired.grows {m m' : Mem} {G G' : Ghost} {sp : Space} {a : Nat}
    (hR : Repaired sp.root (a / 4096) m G m' G') (h : Inv m G) (hhome : Homed G)
    (hgrow : G.leaf (sp.root, a / 4096) = none → stackEnd < a ∧ a < stackStart) :
    Builds sp.root True (growsAt G sp.root a) m G m' G' := by
  apply hR.builds h hhome
  intro n
  unfold growsAt
  refine ⟨fun hn => ⟨hn.1, hn.2.1⟩, ?_⟩
  rintro ⟨rfl, hnone⟩
  exact ⟨rfl, hnone, hgrow hnone⟩

/-- A write of a process, when it is not killed by it. -/
theorem write_spec {m m' : Mem} {G : Ghost} {sp : Space} {a : Nat} {g : Word → Word}
    (h : Inv m G) (hhome : Homed G) (hv : Valid m G sp) (ha : a / 4096 < userPages)
    (hpte : G.tab (sp.root, 0, a / 4096 / 512) ≠ none ∨ ∀ i, m.word 0 i = 0)
    (hrun : write m sp a g = some (.resume m')) :
    ∃ G', Builds sp.root True (growsAt G sp.root a) m G m' G' ∧ Valid m' G' sp ∧
      brk m' sp = brk m sp ∧ G'.leaf (sp.root, a / 4096) ≠ none := by
  obtain hs | ⟨m₁, G₁, hR, hgrow, hs⟩ := write_cases h hv ha hpte hrun
  · obtain ⟨hB, hv', hbrk, hne⟩ := store_builds h hhome hv ha hs
    refine ⟨G, hB.congr ?_ (fun hD => hD), hv', hbrk, hne⟩
    intro n
    refine ⟨?_, fun hf => hf.elim⟩
    rintro ⟨rfl, hcon, -⟩
    exact hne hcon
  · obtain ⟨hv₁, hbrk₁⟩ := hR.valid h hv
    have hB₁ := hR.grows h hhome hgrow
    obtain ⟨hB₂, hv₂, hbrk₂, hne⟩ := store_builds hR.inv hB₁.homed hv₁ ha hs
    refine ⟨G₁, (hB₁.trans hB₂).congr ?_ ?_, hv₂, by rw [hbrk₂, hbrk₁], hne⟩
    · intro n
      simp
    · simp

/-- A write goes to no area node of the process. -/
theorem write_nodes {m m' : Mem} {G : Ghost} {sp : Space} {a : Nat} {g : Word → Word}
    (h : Inv m G) (hv : Valid m G sp) (ha : a / 4096 < userPages)
    (hpte : G.tab (sp.root, 0, a / 4096 / 512) ≠ none ∨ ∀ i, m.word 0 i = 0)
    (hrun : write m sp a g = some (.resume m')) {f : Nat} (hf : G.role f = .vma sp.root) :
    m'.word f = m.word f := by
  obtain hs | ⟨m₁, G₁, hR, -, hs⟩ := write_cases h hv ha hpte hrun
  · exact (h.store_frame hv.root ha hs).2.2 f _ hf
  · have hf₁ := (hR.ext.vma _ f).mpr hf
    rw [(hR.inv.store_frame (hR.valid h hv).1.root ha hs).2.2 f _ hf₁,
      hR.ext.word f (fun hx => hx) (by simp [hf]) (by simp [hf])]

/-- Nor does a read. -/
theorem read_nodes {m m' : Mem} {G : Ghost} {sp : Space} {a : Nat} (h : Inv m G)
    (hv : Valid m G sp) (ha : a / 4096 < userPages)
    (hpte : G.tab (sp.root, 0, a / 4096 / 512) ≠ none ∨ ∀ i, m.word 0 i = 0)
    (hrun : read m sp a = some (.resume m')) {f : Nat} (hf : G.role f = .vma sp.root) :
    m'.word f = m.word f := by
  unfold read at hrun
  split_ifs at hrun with hwalk
  · obtain rfl : m = m' := by simpa using hrun
    rfl
  · rw [h.walk hv.root ha] at hwalk
    obtain ⟨⟨G', hR⟩, -⟩ := isr14_spec h hv ha hpte (by
      intro e he
      simp [he] at hwalk) hrun
    rw [hR.ext.word f (fun hx => hx) (by simp [hf]) (by simp [hf])]

/-- What the writer itself sees of a write to a mapped page. -/
theorem write_load {m m' : Mem} {G : Ghost} {sp : Space} {a : Nat} {b : Byte}
    (h : Inv m G) (hv : Valid m G sp) (ha : a / 4096 < userPages)
    (hmapped : G.leaf (sp.root, a / 4096) ≠ none)
    (hrun : write m sp a (fun w => setByte w (a % 8) b) = some (.resume m')) {v : Nat}
    (hvu : v / 4096 < userPages) :
    m'.load sp.root v = if v = a then some b else m.load sp.root v := by
  obtain hs | ⟨m₁, G₁, hR, -, hs⟩ :=
    write_cases h hv ha (Or.inl (h.trees.leaf _ _ hmapped)) hrun
  · exact store_load h hv.root ha hs hvu
  · rw [store_load hR.inv (hR.valid h hv).1.root ha hs hvu,
      hR.load h hv.root hvu (fun _ => hmapped)]

/-- A read of a process, when it is not killed by it. -/
theorem read_spec {m m' : Mem} {G : Ghost} {sp : Space} {a : Nat}
    (h : Inv m G) (hhome : Homed G) (hv : Valid m G sp) (ha : a / 4096 < userPages)
    (hpte : G.tab (sp.root, 0, a / 4096 / 512) ≠ none ∨ ∀ i, m.word 0 i = 0)
    (hrun : read m sp a = some (.resume m')) :
    ∃ G', Builds sp.root True (growsAt G sp.root a) m G m' G' ∧ Valid m' G' sp ∧
      brk m' sp = brk m sp := by
  unfold read at hrun
  rw [h.walk hv.root ha] at hrun
  cases hleaf : G.leaf (sp.root, a / 4096) with
  | some e =>
      obtain rfl : m = m' := by simpa [hleaf] using hrun
      refine ⟨G, (Builds.refl h hhome).congr ?_ (fun hD => hD), hv, rfl⟩
      intro n
      refine ⟨?_, fun hf => hf.elim⟩
      rintro ⟨rfl, hcon, -⟩
      simp [hleaf] at hcon
  | none =>
      simp only [hleaf, Option.map_none, Option.isSome_none, Bool.false_eq_true, if_false] at hrun
      obtain ⟨⟨G', hR⟩, hgrow⟩ := isr14_spec h hv ha hpte (by simp [hleaf]) hrun
      obtain ⟨hv', hbrk⟩ := hR.valid h hv
      exact ⟨G', hR.grows h hhome hgrow, hv', hbrk⟩

end X86Kernel.Kern
