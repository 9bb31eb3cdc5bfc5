import X86Kernel.Kern.Destroy
import X86Kernel.Paging.Supply

/-!
When `isr14` gives a process its own copy of a shared page. The handler looks
at the areas of the process first and at the reference count of the frame then,
and it knows what to do with one reference and with two.
-/

namespace X86Kernel.Kern

open Lib Paging Proc

/-- The fault of the space `p` at `bb`, on a shared page with the entry `w`, is
resolved: `p` has a writable page with the same bytes that is mapped nowhere
else, every other page of every space translates and reads as before, and the
frame has lost a reference. -/
structure Resolved (m : Mem) (G : Ghost) (p bb : Nat) (w : Word) (m' : Mem) : Prop where
  own : ∃ w', m'.walk p bb = some w' ∧ writable w' = true ∧
    m'.word (frameOf w') = m.word (frameOf w) ∧
    ∀ q v e, G.tab (q, 3, 0) = some q → v / 4096 < userPages → (q, v / 4096) ≠ (p, bb / 4096) →
      m'.walk q v = some e → frameOf e ≠ frameOf w'
  others : ∀ q v, G.tab (q, 3, 0) = some q → v / 4096 < userPages →
    (q, v / 4096) ≠ (p, bb / 4096) → m'.walk q v = m.walk q v ∧ m'.load q v = m.load q v
  count : 1 < m.getrefcount (addrOf w) →
    m'.getrefcount (addrOf w) = m.getrefcount (addrOf w) - 1

section Shared

variable {m m' : Mem} {G G' : Ghost} {sp : Space} {bb : Nat}

/-- The entry of a shared page. -/
theorem shared_leaf {p : Nat} {w : Word} (h : Inv m G) (hp : G.tab (p, 3, 0) = some p)
    (hbb : bb / 4096 < userPages) (hw : m.walk p bb = some w) (hcow : cow w = true) :
    ∃ e, G.leaf (p, bb / 4096) = some e ∧ e.own = false ∧ w = e.word ∧
      frameOf w = e.frame ∧ addrOf w = e.frame * 4096 := by
  rw [h.walk hp hbb] at hw
  obtain ⟨e, he, rfl⟩ := Option.map_eq_some_iff.mp hw
  exact ⟨e, he, by simpa using hcow, rfl, Pte.frameOf_word (h.leaf_lt he),
    Pte.addrOf_word (h.leaf_lt he)⟩

/-- `isr14` returns from a shared page with one reference, and from one with two
as long as there is a free frame. -/
theorem isr14_returns_iff {e : Pte} (h : Inv m G) (hroot : G.tab (sp.root, 3, 0) = some sp.root)
    (hbb : bb / 4096 < userPages) (he : G.leaf (sp.root, bb / 4096) = some e)
    (hown : e.own = false) (hin : inAreas m sp bb = some true) :
    (∃ m', isr14 m sp bb = some (.resume m')) ↔
      (m.page e.frame).refCount = 1 ∨ (m.page e.frame).refCount = 2 ∧ m.head ≠ none := by
  have htab := h.trees.leaf _ _ (by simp [he] : G.leaf (sp.root, bb / 4096) ≠ none)
  obtain ⟨t, ht⟩ := Option.ne_none_iff_exists'.mp htab
  rw [isr14_shared h hroot hbb ht he hown hin]
  split_ifs with htwo hone
  · constructor
    · rintro ⟨m', hrun⟩
      obtain ⟨⟨a, m₁⟩, halloc, -⟩ := Option.bind_eq_some_iff.mp hrun
      obtain ⟨f, hhead, -⟩ := Mem.allocatePage_eq halloc
      exact .inr ⟨htwo, by simp [hhead]⟩
    · rintro (hcon | ⟨-, hhead⟩)
      · omega
      · obtain ⟨l, hl, -⟩ := h.pool.chain
        obtain ⟨⟨a, m₁⟩, halloc⟩ := Mem.allocatePage_ok hl (Chain.lt_length hl hhead)
        obtain ⟨f, hfree, rfl, hw, hkp, hrc, h₁⟩ := h.alloc halloc
        have hdata : ((G.setRole f .data).setHeld f 1).role f = .data := by
          simp [Ghost.setHeld, Ghost.setRole]
        have h₂ := h₁.setFrame (f := f) (by simp [hdata]) (by simp [hdata]) (m.word e.frame)
        -- the page is mapped, so no table is missing on the way to it
        have hnone := h₂.missingTables_zero (p := sp.root) (v := bb / 4096 * 4096) hroot
          (by rwa [frame_div]) (by rw [frame_div]; exact htab)
        obtain ⟨m₂, hmap⟩ := h₂.initPages_ok (p := sp.root) (v := bb / 4096 * 4096) hroot
          (by rwa [frame_div]) (f * 4096)
          (((Mem.allocatePage_takes halloc) l hl).2.congr rfl rfl) (by rw [hnone]; omega)
        exact ⟨_, by rw [halloc, Option.bind_some]; simp only [frame_div]; rw [hmap]; rfl⟩
  · simp [hone]
  · simp [htwo, hone]

/-- The page a repaired fault leaves. -/
theorem Repaired.walk {p f : Nat} (hR : Repaired p (bb / 4096) m G m' G') (h : Inv m G)
    (hp : G.tab (p, 3, 0) = some p) (hbb : bb / 4096 < userPages)
    (hleaf : G'.leaf (p, bb / 4096) = some ⟨f, true⟩) :
    m'.walk p bb = some (Pte.word ⟨f, true⟩) ∧ frameOf (Pte.word ⟨f, true⟩) = f := by
  rw [hR.inv.walk (by rw [hR.ext.root h hR.inv, hp]) hbb, hleaf]
  exact ⟨rfl, Pte.frameOf_word (e := ⟨f, true⟩) (hR.inv.leaf_lt hleaf)⟩

/-- Every other page of every space stays as it is. -/
theorem Repaired.others {p q v : Nat} (hR : Repaired p (bb / 4096) m G m' G') (h : Inv m G)
    (hq : G.tab (q, 3, 0) = some q) (hv : v / 4096 < userPages)
    (hne : (q, v / 4096) ≠ (p, bb / 4096)) :
    m'.walk q v = m.walk q v ∧ m'.load q v = m.load q v := by
  obtain ⟨f, hleaf, -⟩ := hR.leaf
  have hwalk : m'.walk q v = m.walk q v := by
    rw [hR.inv.walk (by rw [hR.ext.root h hR.inv, hq]) hv, h.walk hq hv, hleaf,
      Function.update_of_ne hne]
  refine ⟨hwalk, ?_⟩
  unfold Mem.load
  rw [hwalk]
  cases hx : m.walk q v with
  | none => rfl
  | some w =>
      rw [h.walk hq hv] at hx
      obtain ⟨e, he, rfl⟩ := Option.map_eq_some_iff.mp hx
      have hdata := h.refs.target _ e he
      rw [Option.map_some, Option.map_some, Pte.frameOf_word (h.leaf_lt he),
        hR.ext.word e.frame (fun hx => hx) (by simp [hdata]) (by simp [hdata])]

/-- What the sharers of a page see when the fault of one of them is repaired. -/
theorem Repaired.resolved {p : Nat} {e : Pte} (h : Inv m G) (hp : G.tab (p, 3, 0) = some p)
    (hbb : bb / 4096 < userPages) (he : G.leaf (p, bb / 4096) = some e)
    (hR : Repaired p (bb / 4096) m G m' G') (hrefit : Refit p (bb / 4096) m G G') :
    Resolved m G p bb e.word m' := by
  obtain ⟨f, hleaf, hwf⟩ := hR.leaf
  have hleafp : G'.leaf (p, bb / 4096) = some ⟨f, true⟩ := by rw [hleaf, Function.update_self]
  obtain ⟨hwalk, hframe⟩ := hR.walk h hp hbb hleafp
  refine ⟨⟨_, hwalk, by simp, ?_, ?_⟩, fun q v hq hv hne => hR.others h hq hv hne, ?_⟩
  · rw [hframe, Pte.frameOf_word (h.leaf_lt he), hwf e he]
  · intro q v w hq hv hne hw hcon
    rw [hR.inv.walk (by rw [hR.ext.root h hR.inv, hq]) hv] at hw
    obtain ⟨e', he', rfl⟩ := Option.map_eq_some_iff.mp hw
    rw [Pte.frameOf_word (hR.inv.leaf_lt he'), hframe] at hcon
    exact hne (hR.inv.own_unique hleafp rfl (by simp [Ghost.mapped, he', hcon]))
  · have hdata := h.refs.target _ e he
    have hmapped : G.mapped (p, bb / 4096) = some e.frame := by simp [Ghost.mapped, he]
    unfold Mem.getrefcount
    rw [Pte.addrOf_word (h.leaf_lt he), frame_div]
    intro htwo
    obtain ⟨-, ⟨-, hmap⟩ | ⟨f₁, g, hf₁, -, hg, hrole, hmap⟩⟩ := hrefit
    · -- two references and still the same frame: it would not be writable
      exfalso
      have hsame : f = e.frame := by
        have hx := congrFun hmap (p, bb / 4096)
        rw [hmapped] at hx
        simpa [Ghost.mapped, hleafp] using hx
      have hone := hR.inv.refs.own _ _ hleafp rfl
      have hcount := h.refs.count _ hdata
      have hcount' := hR.inv.refs.count f (hR.inv.refs.target _ _ hleafp)
      rw [hmap, hR.held, hsame] at hcount'
      simp only [hsame] at hone
      omega
    · obtain rfl : e.frame = f₁ := by
        rw [hmapped] at hf₁
        exact Option.some.inj hf₁
      have hne : g ≠ e.frame := by
        rintro rfl
        simp [hdata] at hg
      have hupd := refCount_update h.refs.finite (p, bb / 4096) (some g) e.frame
      rw [if_pos hmapped, if_neg (by simpa using hne), ← hmap] at hupd
      have hcount := h.refs.count _ hdata
      have hcount' := hR.inv.refs.count e.frame
        (by rw [hrole, Function.update_of_ne (Ne.symm hne), hdata])
      rw [hR.held] at hcount'
      omega

end Shared

/-- Whatever the number of sharers of a page is: a write fault of one of them, at
an address in its areas, is resolved if it is the last one, or if there are two
and a free frame. The third reference sends the handler into its endless loop. -/
theorem cow_fault_resolved_iff (m : Mem) (G : Ghost) (sp : Space) (bb : Nat) (w : Word)
    (h : Inv m G) (hroot : G.tab (sp.root, 3, 0) = some sp.root) (hbb : bb / 4096 < userPages)
    (hin : inAreas m sp bb = some true) (hw : m.walk sp.root bb = some w) (hcow : cow w = true) :
    (∃ m', isr14 m sp bb = some (.resume m') ∧ Resolved m G sp.root bb w m') ↔
      m.getrefcount (addrOf w) = 1 ∨ m.getrefcount (addrOf w) = 2 ∧ m.head ≠ none := by
  obtain ⟨e, he, hown, rfl, -, haddr⟩ := shared_leaf h hroot hbb hw hcow
  have hiff := isr14_returns_iff h hroot hbb he hown hin
  unfold Mem.getrefcount
  rw [haddr, frame_div, ← hiff]
  constructor
  · rintro ⟨m', hrun, -⟩
    exact ⟨m', hrun⟩
  · rintro ⟨m', hrun⟩
    obtain ⟨G', hR, hrefit⟩ := isr14_mapped h hroot hbb he hown hrun
    exact ⟨m', hrun, hR.resolved h hroot hbb he hrefit⟩

/-- The shell forks and writes to its stack. -/
theorem cow_fault_resolved_iff_two :
    ∃ k G w, Reachable System.step Safe BootStart k ∧ Inv k.mem G ∧
      k.mem.walk k.cur.root stackStart = some w ∧ k.mem.getrefcount (addrOf w) = 2 ∧
      ∃ m', isr14 k.mem k.cur stackStart = some (.resume m') ∧
        Resolved k.mem G k.cur.root stackStart w m' := by
  have hrun : ((System.start smallMem emptyImage []).bind fun k =>
      k.step (.sched (.sys .fork))).any (fun k => k.inUser &&
        (k.mem.walk k.cur.root stackStart).any (fun w =>
          cow w && decide (k.mem.getrefcount (addrOf w) = 2)) &&
        decide (k.mem.head ≠ none ∧ inAreas k.mem k.cur stackStart = some true)) = true := by
    decide +kernel
  obtain ⟨k, hk, hprop⟩ := (Option.any_eq_true _ _).mp hrun
  obtain ⟨k₀, hk₀, hk⟩ := Option.bind_eq_some_iff.mp hk
  simp only [Bool.and_eq_true, decide_eq_true_eq] at hprop
  obtain ⟨⟨huser, hwalk⟩, hhead, hin⟩ := hprop
  obtain ⟨w, hw, hwprop⟩ := (Option.any_eq_true _ _).mp hwalk
  simp only [Bool.and_eq_true, decide_eq_true_eq] at hwprop
  obtain ⟨G₀, hgood₀, -⟩ := smallMem_boot.start emptyImage_ok (by decide) hk₀
  have hsafe : Safe k₀ (.sched (.sys .fork)) := ⟨trivial, trivial⟩
  obtain ⟨G, hgood, -⟩ := hgood₀.step hsafe hk
  have hreach : Reachable System.step Safe BootStart k :=
    .next (.start ⟨smallMem, emptyImage, [], smallMem_boot, emptyImage_ok, by decide, hk₀⟩) hsafe hk
  exact ⟨k, G, w, hreach, hgood.inv, hw, hwprop.2,
    (cow_fault_resolved_iff k.mem G k.cur stackStart w hgood.inv (hgood.cur_valid huser).root
      (by decide) hin hw hwprop.1).mpr (.inr ⟨hwprop.2, hhead⟩)⟩

/-- The shell forks twice and writes to its stack, which three processes share
by then: `isr14` does not return. -/
theorem three_sharers_stuck :
    ¬ ∀ k, Reachable System.step Safe BootStart k → k.inUser = true → ∀ bb w,
      bb / 4096 < userPages → inAreas k.mem k.cur bb = some true →
      k.mem.walk k.cur.root bb = some w → cow w = true →
        ∃ m', isr14 k.mem k.cur bb = some (.resume m') := by
  intro hall
  have hrun : ((System.start smallMem emptyImage []).bind fun k₀ =>
      (k₀.step (.sched (.sys .fork))).bind fun k₁ => k₁.step (.sched (.sys .fork))).any (fun k =>
        k.inUser && (k.mem.walk k.cur.root stackStart).any (fun w =>
          cow w && decide (k.mem.getrefcount (addrOf w) = 3)) &&
        decide (inAreas k.mem k.cur stackStart = some true)) = true := by
    decide +kernel
  obtain ⟨k, hk, hprop⟩ := (Option.any_eq_true _ _).mp hrun
  obtain ⟨k₀, hk₀, hk⟩ := Option.bind_eq_some_iff.mp hk
  obtain ⟨k₁, hk₁, hk⟩ := Option.bind_eq_some_iff.mp hk
  simp only [Bool.and_eq_true, decide_eq_true_eq] at hprop
  obtain ⟨⟨huser, hwalk⟩, hin⟩ := hprop
  obtain ⟨w, hw, hwprop⟩ := (Option.any_eq_true _ _).mp hwalk
  simp only [Bool.and_eq_true, decide_eq_true_eq] at hwprop
  obtain ⟨G₀, hgood₀, -⟩ := smallMem_boot.start emptyImage_ok (by decide) hk₀
  have hsafe : ∀ k, Safe k (.sched (.sys .fork)) := fun _ => ⟨trivial, trivial⟩
  obtain ⟨G₁, hgood₁, -⟩ := hgood₀.step (hsafe k₀) hk₁
  obtain ⟨G, hgood, -⟩ := hgood₁.step (hsafe k₁) hk
  have hstart : Reachable System.step Safe BootStart k₀ :=
    .start ⟨smallMem, emptyImage, [], smallMem_boot, emptyImage_ok, by decide, hk₀⟩
  have hreach := (hstart.next (hsafe k₀) hk₁).next (hsafe k₁) hk
  have hroot := (hgood.cur_valid huser).root
  obtain ⟨e, he, hown, rfl, -, haddr⟩ := shared_leaf hgood.inv hroot (by decide) hw hwprop.1
  have hthree := hwprop.2
  unfold Mem.getrefcount at hthree
  rw [haddr, frame_div] at hthree
  have hreturns := (isr14_returns_iff hgood.inv hroot (by decide) he hown hin).mp
    (hall k hreach huser stackStart _ (by decide) hin hw hwprop.1)
  omega

end X86Kernel.Kern
