import X86Kernel.Kern.Account
import X86Kernel.Kern.Sharing

/-!
Rounds of `fork`, the death of the child and `waitpid`: what they leave on the
free list and in the reference counts of the parent's frames.
-/

namespace X86Kernel.Kern

open Lib Paging Proc

section Access

variable {m m' : Mem} {G : Ghost} {sp : Space} {a : Nat}

/-- A write to a page that is mapped. -/
theorem write_mapped {g : Word → Word} (h : Inv m G) (hhome : Homed G) (hv : Valid m G sp)
    (ha : a / 4096 < userPages) (hmapped : G.leaf (sp.root, a / 4096) ≠ none)
    (hrun : write m sp a g = some (.resume m')) :
    ∃ G' N, Builds sp.root True N m G m' G' ∧ Valid m' G' sp ∧ G'.held = G.held ∧
      Refit sp.root (a / 4096) m G G' := by
  obtain hs | ⟨hnone, m₁, hisr, hs⟩ := write_resume hrun
  · obtain ⟨hB, hv', -⟩ := store_builds h hhome hv ha hs
    exact ⟨G, _, hB, hv', rfl, rfl, .inl ⟨rfl, rfl⟩⟩
  · obtain ⟨e, he⟩ := Option.ne_none_iff_exists'.mp hmapped
    obtain ⟨G₁, hR, hrefit⟩ :=
      isr14_mapped h hv.root ha he (shared_of_fault h hv.root ha hnone e he) hisr
    have hB₁ := hR.grows h hhome (fun hcon => absurd hcon hmapped)
    obtain ⟨hB₂, hv₂, -⟩ := store_builds hR.inv hB₁.homed (hR.valid h hv).1 ha hs
    exact ⟨G₁, _, (hB₁.trans hB₂).congr (fun _ => Iff.rfl) (by simp), hv₂, hR.held, hrefit⟩

/-- A repaired fault on a page that was not there adds a page and takes none
away. -/
theorem Repaired.keeps {G' : Ghost} {p n : Nat} (hR : Repaired p n m G m' G')
    (hnone : G.leaf (p, n) = none) (k f : Nat) (hf : G.mapped (p, k) = some f) :
    G'.mapped (p, k) = some f := by
  obtain ⟨g, hleaf, -⟩ := hR.leaf
  obtain ⟨e, he, rfl⟩ := Option.map_eq_some_iff.mp hf
  have hkn : (p, k) ≠ (p, n) := by
    intro hcon
    rw [hcon, hnone] at he
    cases he
  unfold Ghost.mapped
  rw [hleaf, Function.update_of_ne hkn, he]
  rfl

/-- A write of a process gives up no frame but one with two references. -/
theorem write_keeps {g : Word → Word} (h : Inv m G) (hhome : Homed G) (hv : Valid m G sp)
    (ha : a / 4096 < userPages) (hzero : ∀ i, m.word 0 i = 0)
    (hrun : write m sp a g = some (.resume m')) :
    ∃ G' N, Builds sp.root True N m G m' G' ∧ Valid m' G' sp ∧ G'.held = G.held ∧
      ∀ n f, G.mapped (sp.root, n) = some f →
        G'.mapped (sp.root, n) = some f ∨ (m.page f).refCount = 2 := by
  by_cases hmapped : G.leaf (sp.root, a / 4096) = none
  · obtain hs | ⟨m₁, G₁, hR, hgrow, hs⟩ := write_cases h hv ha (Or.inr hzero) hrun
    · exact absurd hmapped (store_builds h hhome hv ha hs).2.2.2
    · have hB₁ := hR.grows h hhome hgrow
      obtain ⟨hB₂, hv₂, -⟩ := store_builds hR.inv hB₁.homed (hR.valid h hv).1 ha hs
      exact ⟨G₁, _, (hB₁.trans hB₂).congr (fun _ => Iff.rfl) (by simp), hv₂, hR.held,
        fun n f hf => .inl (hR.keeps hmapped n f hf)⟩
  · obtain ⟨G', N, hB, hv', hheld, -, hcase⟩ := write_mapped h hhome hv ha hmapped hrun
    refine ⟨G', N, hB, hv', hheld, fun n f hf => ?_⟩
    obtain ⟨-, hmap⟩ | ⟨f₁, g₁, hf₁, htwo, -, -, hmap⟩ := hcase
    · exact .inl (by rw [hmap, hf])
    · by_cases hn : (sp.root, n) = (sp.root, a / 4096)
      · rw [hn, hf₁] at hf
        exact .inr (Option.some.inj hf ▸ htwo)
      · exact .inl (by rw [hmap, Function.update_of_ne hn, hf])

/-- A read of a process gives up no frame. -/
theorem read_keeps (h : Inv m G) (hhome : Homed G) (hv : Valid m G sp)
    (ha : a / 4096 < userPages) (hzero : ∀ i, m.word 0 i = 0)
    (hrun : read m sp a = some (.resume m')) :
    (∃ G' N, Builds sp.root True N m G m' G' ∧ Valid m' G' sp ∧ G'.held = G.held ∧
      ∀ n f, G.mapped (sp.root, n) = some f → G'.mapped (sp.root, n) = some f) ∧
      (G.leaf (sp.root, a / 4096) ≠ none → m' = m) := by
  unfold read at hrun
  rw [h.walk hv.root ha] at hrun
  cases hleaf : G.leaf (sp.root, a / 4096) with
  | some e =>
      obtain rfl : m = m' := by simpa [hleaf] using hrun
      exact ⟨⟨G, _, .refl h hhome, hv, rfl, fun _ _ hf => hf⟩,
        fun _ => rfl⟩
  | none =>
      simp only [hleaf, Option.map_none, Option.isSome_none, Bool.false_eq_true, if_false] at hrun
      obtain ⟨⟨G', hR⟩, hgrow⟩ := isr14_spec h hv ha (Or.inr hzero) (by simp [hleaf]) hrun
      exact ⟨⟨G', _, hR.grows h hhome hgrow, (hR.valid h hv).1, hR.held, hR.keeps hleaf⟩,
        fun hcon => absurd rfl hcon⟩

end Access

noncomputable def freeCount (m : Mem) : Nat := {f | OnFreeList m f}.ncard

/-- A step of the scheduler that neither forks nor reaps. -/
def Quiet (k : System) (e : Proc.Event) : Prop :=
  e ≠ .sys .fork ∧ reaps k.sched e = none ∧ SparesIdle e ∧ KillsExisting k.sched e

/-- What may happen between the `fork` of the parent `i` and the reaping of its
child `j`: faults of the two, the parent's on pages that it has, and `malloc` of
the child. -/
def RoundStep (i j : Nat) (k : System) : Action → Prop
  | .sched e => Quiet k e
  | .exec _ _ => False
  | .malloc _ => k.sched.r = j
  | .write a _ => a / 4096 < userPages ∧
      (k.sched.r = j ∨ k.sched.r = i ∧ (k.mem.walk k.cur.root a).isSome)
  | .read a => a / 4096 < userPages ∧
      (k.sched.r = j ∨ k.sched.r = i ∧ (k.mem.walk k.cur.root a).isSome)

/-- `malloc` finds no page where the heap is to grow. -/
def Roomy (k : System) : Action → Prop
  | .malloc bytes => ∀ n, brk k.mem k.cur ≤ n * 4096 →
      n * 4096 < brk k.mem k.cur + 4096 * mallocPages bytes →
      k.mem.walk k.cur.root (n * 4096) = none
  | _ => True

/-- The parent `i` forks, things happen, the child dies among them, and the
parent reaps it. -/
def Round (ok : System → Action → Prop) (i : Nat) (k k' : System) : Prop :=
  ∃ j k₁ k₂ acts e, k.sched.r = i ∧ newPID k.sched.q = some j ∧
    k.step (.sched (.sys .fork)) = some k₁ ∧
    Run System.step (fun k act => RoundStep i j k act ∧ ok k act) k₁ acts k₂ ∧
    k₂.sched.r = i ∧ reaps k₂.sched e = some j ∧ k₂.step (.sched e) = some k'

inductive Rounds (ok : System → Action → Prop) (i : Nat) (k : System) : System → Prop
  | none : Rounds ok i k k
  | pause {k₁ k₂ : System} {e : Proc.Event} : Rounds ok i k k₁ → Quiet k₁ e →
      k₁.step (.sched e) = some k₂ → Rounds ok i k k₂
  | round {k₁ k₂ : System} : Rounds ok i k k₁ → Round ok i k₁ k₂ → Rounds ok i k k₂

section Round

variable {m₀ m₁ : Mem} {k k' : System} {G₁ G : Ghost} {i j p c : Nat}

/-- The machine between `fork` and reaping; `m₁` and `G₁` are the memory before
the `fork`. -/
structure Between (m₀ m₁ : Mem) (G₁ : Ghost) (i j p c : Nat) (k : System) (G : Ghost) :
    Prop where
  good : Good m₀ k G
  sharing : Sharing p c (fun f => (m₁.page f).refCount) G₁ G
  parent : k.InUse i ∧ (k.space i).root = p
  child : k.InUse j ∧ (k.space j).root = c

structure Before (m₁ : Mem) (G₁ : Ghost) (p c : Nat) : Prop where
  inv : Inv m₁ G₁
  ne : p ≠ c
  fresh : ∀ n, G₁.mapped (c, n) = none

/-- Nobody touches memory. -/
theorem Between.quiet (h : Between m₀ m₁ G₁ i j p c k G) (hgood : Good m₀ k' G)
    (hspace : k'.space = k.space) (huse : ∀ x, k'.InUse x ↔ k.InUse x) :
    Between m₀ m₁ G₁ i j p c k' G := by
  refine ⟨hgood, h.sharing, ?_, ?_⟩
  · rw [huse, hspace]
    exact h.parent
  · rw [huse, hspace]
    exact h.child

/-- The child changes its memory. -/
theorem Between.child_step (h : Between m₀ m₁ G₁ i j p c k G) (h₁ : Before m₁ G₁ p c)
    (huser : k.inUser = true) (hr : k.sched.r = j) {m : Mem} {G' : Ghost} {N : Nat → Prop}
    (hB : Builds k.cur.root True N k.mem G m G') (hv : Valid m G' k.cur)
    (hheld : G'.held = G.held)
    (hkeep : ∀ n f, G.mapped (k.cur.root, n) = some f →
      G'.mapped (k.cur.root, n) = some f ∨ (k.mem.page f).refCount = 2) :
    Between m₀ m₁ G₁ i j p c { k with mem := m } G' := by
  have hcur : k.cur.root = c := by
    unfold System.cur
    rw [hr, h.child.2]
  have hF := hB.frame
  rw [hcur] at hF hkeep
  exact ⟨h.good.own_mem huser hB hv,
    h.sharing.child_step h₁.inv h.good.inv h₁.ne h₁.fresh hF hheld hkeep, h.parent, h.child⟩

/-- The parent writes to a page it has. -/
theorem Between.parent_write (h : Between m₀ m₁ G₁ i j p c k G) (h₁ : Before m₁ G₁ p c)
    (huser : k.inUser = true) (hr : k.sched.r = i) {m : Mem} {G' : Ghost} {N : Nat → Prop} {n : Nat}
    (hB : Builds k.cur.root True N k.mem G m G') (hv : Valid m G' k.cur)
    (hheld : G'.held = G.held) (hrefit : Refit k.cur.root n k.mem G G') :
    Between m₀ m₁ G₁ i j p c { k with mem := m } G' := by
  have hcur : k.cur.root = p := by
    unfold System.cur
    rw [hr, h.parent.2]
  rw [hcur] at hrefit
  refine ⟨h.good.own_mem huser hB hv, ?_, h.parent, h.child⟩
  obtain ⟨htab, ⟨hrole, hmap⟩ | ⟨f, g, hf, htwo, hg, hrole, hmap⟩⟩ := hrefit
  · exact h.sharing.congr hmap hrole htab hheld
  · exact h.sharing.parent_copy h₁.inv h.good.inv h₁.ne h₁.fresh hf htwo hg hrole htab hheld hmap

/-- A page that the MMU finds is mapped. -/
theorem Good.mapped_of_walk (h : Good m₀ k G) (huser : k.inUser = true) {a : Nat}
    (ha : a / 4096 < userPages) : (k.mem.walk k.cur.root a).isSome ↔
      G.leaf (k.cur.root, a / 4096) ≠ none := by
  rw [h.inv.walk (h.cur_valid huser).root ha]
  cases G.leaf (k.cur.root, a / 4096) <;> simp

/-- Page 0 holds zeros for good. -/
theorem Good.page_zero (h : Good m₀ k G) (hnot : ¬ OnFreeList m₀ 0)
    (hzero : ∀ x, m₀.word 0 x = 0) (x : Nat) : k.mem.word 0 x = 0 := by
  rw [h.kword 0 ((h.kernel 0).mpr hnot), hzero]

/-- `malloc` of the child, where it has room. -/
theorem Between.malloc (h : Between m₀ m₁ G₁ i j p c k G) (h₁ : Before m₁ G₁ p c)
    (huser : k.inUser = true) (hr : k.sched.r = j) {bytes : Int} {m : Mem}
    (hroom : Roomy k (.malloc bytes)) (hrun : Kern.malloc k.mem k.cur bytes = some m) :
    ∃ G', Between m₀ m₁ G₁ i j p c { k with mem := m } G' := by
  have hvcur := h.good.cur_valid huser
  obtain ⟨G', hB, hv, hbrk, -, hfresh, -⟩ := malloc_spec h.good.inv h.good.homed hvcur hrun
  have hnone : ∀ n, brk k.mem k.cur ≤ n * 4096 ∧ n * 4096 < brk m k.cur →
      G.leaf (k.cur.root, n) = none := by
    rintro n ⟨hlo, hhi⟩
    have hbound := (hv.brk_le hB.inv).2
    have hpage : n * 4096 / 4096 < userPages := by
      simp only [capacity, heapStart, userPages] at *
      omega
    have hwalk := hroom n hlo (by omega)
    rw [h.good.inv.walk hvcur.root hpage, frame_div] at hwalk
    simpa using hwalk
  refine ⟨G', h.child_step h₁ huser hr hB hv (hB.held trivial hnone) ?_⟩
  intro n f hf
  by_cases hn : brk k.mem k.cur ≤ n * 4096 ∧ n * 4096 < brk m k.cur
  · unfold Ghost.mapped at hf
    rw [hnone n hn] at hf
    cases hf
  · refine Or.inl ?_
    unfold Ghost.mapped at hf ⊢
    rw [hfresh.other _ n (fun hcon => hn hcon.2), hf]

/-- Whatever happens between `fork` and reaping keeps the two processes in
order. -/
theorem Between.step (h : Between m₀ m₁ G₁ i j p c k G) (h₁ : Before m₁ G₁ p c)
    (hnot : ¬ OnFreeList m₀ 0) (hzero : ∀ x, m₀.word 0 x = 0) {act : Action}
    (hok : RoundStep i j k act ∧ Roomy k act) (hstep : k.step act = some k') :
    ∃ G', Between m₀ m₁ G₁ i j p c k' G' := by
  obtain ⟨hok, hroom⟩ := hok
  have hgood := h.good
  have hpage := hgood.page_zero hnot hzero
  cases step_moves hstep with
  | fork huser hs hcopy => exact absurd rfl hok.1
  | reap hfork hs hreap hrun =>
      have hnone := hok.2.1
      rw [hreap] at hnone
      cases hnone
  | quiet hfork hs hreap =>
      have huse := hgood.inUse_quiet hok.2.2.2 hfork hreap hs
      exact ⟨G, h.quiet (hgood.quiet (hgood.awake.step hok.2.2.1 hs) rfl rfl
        (fun x hx => (huse x).mp hx)) rfl huse⟩
  | exec huser hrun => exact hok.elim
  | malloc huser hrun => exact h.malloc h₁ huser hok hroom hrun
  | write huser hrun =>
      obtain ⟨ha, hr | ⟨hr, hwalk⟩⟩ := hok
      · obtain ⟨G', N, hB, hv, hheld, hkeep⟩ :=
          write_keeps hgood.inv hgood.homed (hgood.cur_valid huser) ha hpage hrun
        exact ⟨G', h.child_step h₁ huser hr hB hv hheld hkeep⟩
      · obtain ⟨G', N, hB, hv, hheld, hrefit⟩ :=
          write_mapped hgood.inv hgood.homed (hgood.cur_valid huser) ha
            ((hgood.mapped_of_walk huser ha).mp hwalk) hrun
        exact ⟨G', h.parent_write h₁ huser hr hB hv hheld hrefit⟩
  | read huser hrun =>
      obtain ⟨⟨G', N, hB, hv, hheld, hkeep⟩, hsame⟩ :=
        read_keeps hgood.inv hgood.homed (hgood.cur_valid huser) hok.1 hpage hrun
      obtain ⟨ha, hr | ⟨hr, hwalk⟩⟩ := hok
      · exact ⟨G', h.child_step h₁ huser hr hB hv hheld (fun n f hf => .inl (hkeep n f hf))⟩
      · obtain rfl := hsame ((hgood.mapped_of_walk huser ha).mp hwalk)
        exact ⟨G, h⟩
  | segv huser hact hs =>
      have huse := hgood.inUse_quiet (e := .sys .exit) trivial (by simp) rfl hs
      exact ⟨G, h.quiet (hgood.quiet (hgood.awake.step (e := .sys .exit) trivial hs) rfl rfl
        (fun x hx => (huse x).mp hx)) rfl huse⟩
  | stuck huser hact =>
      exact ⟨G, h.quiet (hgood.quiet hgood.awake rfl rfl (fun x hx => hx)) rfl (fun _ => Iff.rfl)⟩

/-- A frame on the free list is no PML4. -/
theorem Inv.no_tab_of_free {m : Mem} (h : Inv m G) (hc : G.role c = .free) (l x : Nat) :
    G.tab (c, l, x) = none := by
  by_contra hcon
  have hrole := (h.trees.role _ _ _ _).mp (h.trees.to_root hcon)
  rw [hc] at hrole
  cases hrole

theorem Good.freeCount_eq (h : Good m₀ k G) : freeCount k.mem = {f | G.role f = .free}.ncard := by
  unfold freeCount
  simp only [onFreeList_iff h.inv]

/-- After `fork` parent and child share every page of the parent. -/
theorem Good.fork_between (h : Good m₀ k G) (hr : k.sched.r = i) (hpid : newPID k.sched.q = some j)
    (hstep : k.step (.sched (.sys .fork)) = some k') :
    ∃ c G', Before k.mem G (k.space i).root c ∧ G.role c = .free ∧ k.InUse i ∧
      Between m₀ k.mem G i j (k.space i).root c k' G' := by
  have hsafe : Safe k (.sched (.sys .fork)) := ⟨trivial, trivial⟩
  obtain ⟨G', hgood', hE⟩ := h.step hsafe hstep
  cases hE with
  | fork huser hfree hv hbrk hF hheld hleaf huse hnew =>
      rename_i s c m
      have hi := h.cur_inUse huser
      rw [hr] at hi
      have hcur : k.cur = k.space i := by rw [System.cur, hr]
      rw [hcur] at hleaf
      have hne : (k.space i).root ≠ c.root := by
        intro hcon
        have hrole := h.root_role hi
        rw [hcon, hfree] at hrole
        cases hrole
      have hmap : ∀ n, G'.mapped (c.root, n) = G.mapped ((k.space i).root, n) := by
        intro n
        unfold Ghost.mapped
        rw [hleaf, if_pos (Or.inr rfl), Option.map_map]
        rfl
      have hij : newPID k.sched.q ≠ some i := fun hcon => hnew i hcon hi
      refine ⟨c.root, G', ⟨h.inv, hne, fun n => ?_⟩, hfree, hi, hgood',
        Sharing.start hne hF hheld hmap, ⟨(huse i).mpr (Or.inl hi), ?_⟩,
        ⟨(huse j).mpr (Or.inr hpid), ?_⟩⟩
      · unfold Ghost.mapped
        rw [h.inv.leaf_none (Inv.no_tab_of_free h.inv hfree _ _)]
        rfl
      · rw [forked_space, if_neg hij]
      · rw [forked_space, if_pos hpid]
  | reap hfork => exact absurd rfl hfork
  | quiet hfork => exact absurd rfl hfork
  | segv huser hact => simp at hact
  | stuck huser hact => simp at hact

end Round

/-- What a round leaves as it was: how much is free, which pages the parent `i`
has, and how often the frame of each is referenced. Only a frame that was the
parent's alone may have been replaced. -/
structure Neutral (i : Nat) (k k' : System) : Prop where
  free : freeCount k'.mem = freeCount k.mem
  page : ∀ n f, k.Uses f (.page i n) → ∃ f', k'.Uses f' (.page i n) ∧
    (k'.mem.page f').refCount = (k.mem.page f).refCount ∧
    (f' = f ∨ (k.mem.page f).refCount = 1)
  back : ∀ n f', k'.Uses f' (.page i n) → ∃ f, k.Uses f (.page i n)

section Neutral

variable {m₀ : Mem} {k k₁ k' : System} {G G' : Ghost} {i : Nat}

theorem Neutral.refl (i : Nat) (k : System) : Neutral i k k :=
  ⟨rfl, fun _ f hf => ⟨f, hf, rfl, .inl rfl⟩, fun _ f hf => ⟨f, hf⟩⟩

theorem Neutral.trans (h : Neutral i k k₁) (h' : Neutral i k₁ k') : Neutral i k k' := by
  refine ⟨by rw [h'.free, h.free], ?_, ?_⟩
  · intro n f hf
    obtain ⟨f₁, hf₁, hrc₁, hor₁⟩ := h.page n f hf
    obtain ⟨f', hf', hrc', hor'⟩ := h'.page n f₁ hf₁
    refine ⟨f', hf', by rw [hrc', hrc₁], ?_⟩
    obtain rfl | hone := hor₁
    · rwa [hrc₁] at hor'
    · exact .inr hone
  · intro n f' hf'
    obtain ⟨f₁, hf₁⟩ := h'.back n f' hf'
    exact h.back n f₁ hf₁

/-- What was read off two ghosts, in terms of the machine. -/
theorem Neutral.of_mapped (h : Good m₀ k G) (h' : Good m₀ k' G') (hi : k.InUse i)
    (hi' : k'.InUse i) (hspace : (k'.space i).root = (k.space i).root)
    (hfree : {f | G'.role f = .free}.ncard = {f | G.role f = .free}.ncard)
    (hnone : ∀ n, G.mapped ((k.space i).root, n) = none → G'.mapped ((k.space i).root, n) = none)
    (hsome : ∀ n f, G.mapped ((k.space i).root, n) = some f →
      ∃ f', G'.mapped ((k.space i).root, n) = some f' ∧
        (k'.mem.page f').refCount = (k.mem.page f).refCount ∧
        (f' = f ∨ (k.mem.page f).refCount = 1)) : Neutral i k k' := by
  refine ⟨by rw [h.freeCount_eq, h'.freeCount_eq, hfree], ?_, ?_⟩
  · intro n f hf
    obtain ⟨f', hf', hrest⟩ := hsome n f ((uses_page h f i n).mp hf).2
    exact ⟨f', (uses_page h' f' i n).mpr ⟨hi', by rw [hspace, hf']⟩, hrest⟩
  · intro n f' hf'
    have hmap := ((uses_page h' f' i n).mp hf').2
    rw [hspace] at hmap
    cases hf : G.mapped ((k.space i).root, n) with
    | some f => exact ⟨f, (uses_page h f i n).mpr ⟨hi, hf⟩⟩
    | none =>
        rw [hnone n hf] at hmap
        cases hmap

theorem reaps_safe {s : Sched} {e : Proc.Event} {j : Nat} (h : reaps s e = some j) :
    SparesIdle e ∧ KillsExisting s e := by
  unfold reaps at h
  split at h
  · exact ⟨trivial, trivial⟩
  · exact ⟨trivial, trivial⟩
  · cases h

/-- One round. -/
theorem Good.round (h : Good m₀ k G) (hnot : ¬ OnFreeList m₀ 0) (hzero : ∀ x, m₀.word 0 x = 0)
    (hround : Round Roomy i k k') : ∃ G', Good m₀ k' G' ∧ Neutral i k k' := by
  obtain ⟨j, k₁, k₂, acts, e, hr, hpid, hfork, hrun, -, hreap, hstep⟩ := hround
  obtain ⟨c, G₁, hbefore, hc, hi, hbetween⟩ := h.fork_between hr hpid hfork
  obtain ⟨G₂, hbetween⟩ := hrun.invariant
    (P := fun k₂ => ∃ G₂, Between m₀ k.mem G i j (k.space i).root c k₂ G₂) ⟨G₁, hbetween⟩
    (fun _ _ _ ⟨_, hP⟩ hok hs => hP.step hbefore hnot hzero hok hs)
  have hsafe : Safe k₂ (.sched e) := reaps_safe hreap
  obtain ⟨G', hgood', hE⟩ := hbetween.good.step hsafe hstep
  cases hE with
  | fork => cases hreap
  | reap hne hreap' hj hF hheld htab hleaf huse =>
      rename_i s x m
      obtain rfl : j = x := by
        rw [hreap] at hreap'
        exact Option.some.inj hreap'
      rw [hbetween.child.2] at hF htab hleaf
      have hij : i ≠ j := by
        rintro rfl
        exact hbefore.ne (hbetween.parent.2.symm.trans hbetween.child.2)
      have hgone : ∀ n, G'.mapped (c, n) = none := by
        intro n
        unfold Ghost.mapped
        rw [hleaf, if_pos rfl]
        rfl
      have hkept := hbetween.sharing.toKept.frame hbefore.ne hF hheld
      refine ⟨G', hgood', Neutral.of_mapped h hgood' hi
        ((huse i).mpr ⟨hbetween.parent.1, hij⟩) hbetween.parent.2 ?_ hkept.unmapped ?_⟩
      · have hspare := hbetween.sharing.count
        rwa [← spare_frame hF hheld, spare_eq_free hgood'.inv hgood'.homed htab,
          spare_eq_free h.inv h.homed (Inv.no_tab_of_free h.inv hc 3 0)] at hspare
      · intro n f hf
        exact hkept.counts hbefore.inv hgood'.inv hbefore.fresh hgone hf
  | quiet hne hreap' =>
      rw [hreap] at hreap'
      cases hreap'
  | segv huser hact => simp at hact
  | stuck huser hact => simp at hact

/-- Memory stays as it is while the scheduler is at work. -/
theorem Good.pause (h : Good m₀ k G) {e : Proc.Event} (hquiet : Quiet k e)
    (hstep : k.step (.sched e) = some k') : Good m₀ k' G ∧ k'.mem = k.mem ∧
      ∀ f i n, k'.Uses f (.page i n) ↔ k.Uses f (.page i n) := by
  obtain ⟨hne, hnone, hspares, hkills⟩ := hquiet
  cases step_moves hstep with
  | fork => exact absurd rfl hne
  | reap _ hs hreap hrun =>
      rw [hreap] at hnone
      cases hnone
  | quiet _ hs _ =>
      have huse := h.inUse_quiet hkills hne hnone hs
      exact ⟨h.quiet (h.awake.step hspares hs) rfl rfl (fun x hx => (huse x).mp hx), rfl,
        fun f i n => and_congr_left fun _ => huse i⟩
  | segv huser hact => simp at hact
  | stuck huser hact => simp at hact

theorem Good.rounds (h : Good m₀ k G) (hnot : ¬ OnFreeList m₀ 0) (hzero : ∀ x, m₀.word 0 x = 0)
    (hrounds : Rounds Roomy i k k') : ∃ G', Good m₀ k' G' ∧ Neutral i k k' := by
  induction hrounds with
  | none => exact ⟨G, h, Neutral.refl i k⟩
  | pause _ hquiet hstep ih =>
      obtain ⟨G₁, hgood, hneutral⟩ := ih
      obtain ⟨hgood', hmem, huses⟩ := hgood.pause hquiet hstep
      refine ⟨G₁, hgood', hneutral.trans ⟨by rw [hmem], ?_, ?_⟩⟩
      · intro n f hf
        exact ⟨f, (huses f i n).mpr hf, by rw [hmem], .inl rfl⟩
      · intro n f hf
        exact ⟨f, (huses f i n).mp hf⟩
  | round _ hround ih =>
      obtain ⟨G₁, hgood, hneutral⟩ := ih
      obtain ⟨G', hgood', hround'⟩ := hgood.round hnot hzero hround
      exact ⟨G', hgood', hneutral.trans hround'⟩

/-- A frame that the parent has before and after has the same count, also when
it has come to another page in between. -/
theorem Neutral.frame (hN : Neutral i k k') (h' : Good m₀ k' G') {f n n' : Nat}
    (hf : k.Uses f (.page i n)) (hf' : k'.Uses f (.page i n')) :
    (k'.mem.page f).refCount = (k.mem.page f).refCount := by
  obtain ⟨f₁, hf₁, hrc₁, hor₁⟩ := hN.page n f hf
  obtain ⟨f₀, hf₀⟩ := hN.back n' f hf'
  obtain ⟨f₂, hf₂, hrc₂, hor₂⟩ := hN.page n' f₀ hf₀
  obtain rfl : f₂ = f := by
    have hmap := ((uses_page h' _ i _).mp hf').2
    rw [((uses_page h' _ i _).mp hf₂).2] at hmap
    exact Option.some.inj hmap
  obtain rfl | hone₁ := hor₁
  · exact hrc₁
  · obtain rfl | hone₂ := hor₂
    · exact hrc₂
    · -- two frames that were the parent's alone have changed places
      rw [hrc₂, hone₁, hone₂]

end Neutral

section Reap

variable {m₀ : Mem} {k k' : System} {G : Ghost} {i j : Nat}

/-- The memory of a zombie child can always be destroyed. -/
theorem Good.resume_reaps (h : Good m₀ k G) {s : Sched} (hs : k.sched.step .resume = some s)
    (hreap : reaps k.sched .resume = some j) : ∃ k', k.step (.sched .resume) = some k' := by
  have hj : k.InUse j := by
    refine ⟨(h.awake.reaps_ne hreap).1, ?_⟩
    rw [(reaps_zombie hreap).2]
    decide
  have hvj := h.valid j hj
  obtain ⟨a, b, rest, hL⟩ := hvj.areas
  obtain ⟨m', -, hrun, -⟩ := removeProcess_spec h.inv hL hvj.aligned
  refine ⟨{ k with sched := s, mem := m' }, ?_⟩
  simp only [System.step, System.schedStep, hs, hreap, hrun]
  rfl

/-- Reaping leaves the frames alone that the process does not have. -/
theorem Good.reap_count (h : Good m₀ k G) {e : Proc.Event} (hreap : reaps k.sched e = some j)
    (hstep : k.step (.sched e) = some k') {f n : Nat} (hf : k.Uses f (.page i n))
    (hnot : ∀ x, ¬ k.Uses f (.page j x)) :
    k'.Uses f (.page i n) ∧ (k'.mem.page f).refCount = (k.mem.page f).refCount := by
  obtain ⟨G', hgood', hE⟩ := h.step (show Safe k (.sched e) from reaps_safe hreap) hstep
  cases hE with
  | fork => cases hreap
  | reap hne hreap' hj hF hheld htab hleaf huse =>
      rename_i s x m
      obtain rfl : j = x := by
        rw [hreap] at hreap'
        exact Option.some.inj hreap'
      have hij : i ≠ j := by
        rintro rfl
        exact hnot n hf
      obtain ⟨hi, hmap⟩ := (uses_page h f i n).mp hf
      have hroot : (k.space i).root ≠ (k.space j).root :=
        fun hcon => hij (h.distinct i j hi hj hcon)
      have hmap' : G'.mapped ((k.space i).root, n) = some f := by rw [hF.mapped _ n hroot, hmap]
      refine ⟨(uses_page hgood' f i n).mpr ⟨(huse i).mpr ⟨hi, hij⟩, hmap'⟩, ?_⟩
      have hrefs : refs G'.mapped f = refs G.mapped f := by
        ext ⟨q, x⟩
        change G'.mapped (q, x) = some f ↔ G.mapped (q, x) = some f
        by_cases hq : q = (k.space j).root
        · subst hq
          have hgone : G'.mapped ((k.space j).root, x) = none := by
            unfold Ghost.mapped
            rw [hleaf, if_pos rfl]
            rfl
          have hnever : G.mapped ((k.space j).root, x) ≠ some f :=
            fun hx => hnot x ((uses_page h f j x).mpr ⟨hj, hx⟩)
          simp [hgone, hnever]
        · rw [hF.mapped q x hq]
      rw [hgood'.inv.refs.count f (mapped_role hgood'.inv hmap'),
        h.inv.refs.count f (mapped_role h.inv hmap), refCount, refCount, hrefs, hheld]
  | quiet hne hreap' =>
      rw [hreap] at hreap'
      cases hreap'
  | segv huser hact => simp at hact
  | stuck huser hact => simp at hact

/-- A process that had the frame at the end of its heap has it nowhere after a
`malloc` of one page that put another one there. -/
theorem Good.malloc_loses (h : Good m₀ k G) {bytes : Int} (hone : mallocPages bytes = 1)
    (hstep : k.step (.malloc bytes) = some k') {f n : Nat} (hn : n * 4096 = brk k.mem k.cur)
    (hf : k.Uses f (.page k.sched.r n)) (hf' : ¬ k'.Uses f (.page k.sched.r n)) (x : Nat) :
    ¬ k'.Uses f (.page k.sched.r x) := by
  intro hx
  cases step_moves hstep with
  | malloc huser hrun =>
      rename_i m
      obtain ⟨G', hB, hv, hbrk, -, hfresh, -⟩ := malloc_spec h.inv h.homed (h.cur_valid huser) hrun
      have hgood' := h.own_mem huser hB hv
      have hxn : x ≠ n := by
        rintro rfl
        exact hf' hx
      have hmap : G'.mapped (k.cur.root, x) = some f :=
        ((uses_page hgood' f k.sched.r x).mp hx).2
      unfold Ghost.mapped at hmap
      rw [hfresh.other _ x (fun hcon => hxn (by omega))] at hmap
      exact hxn (mapped_inj h.inv hmap ((uses_page h f k.sched.r n).mp hf).2)
  | segv huser hact => simp at hact
  | stuck huser hact => simp at hact

/-- Nobody loses a page to a `fork`. -/
theorem Good.fork_uses (h : Good m₀ k G) (hstep : k.step (.sched (.sys .fork)) = some k')
    {f n : Nat} (hf : k.Uses f (.page i n)) : k'.Uses f (.page i n) := by
  obtain ⟨hi, hmap⟩ := (uses_page h f i n).mp hf
  have hsafe : Safe k (.sched (.sys .fork)) := ⟨trivial, trivial⟩
  obtain ⟨G', hgood', hE⟩ := h.step hsafe hstep
  cases hE with
  | fork huser hfree hv hbrk hF hheld hleaf huse hnew =>
      rename_i s c m
      have hne : (k.space i).root ≠ c.root := by
        intro hcon
        have hrole := h.root_role hi
        rw [hcon, hfree] at hrole
        cases hrole
      refine (uses_page hgood' f i n).mpr ⟨(huse i).mpr (Or.inl hi), ?_⟩
      rw [forked_space, if_neg (fun hcon => hnew i hcon hi), hF.mapped _ n hne, hmap]
  | reap hfork => exact absurd rfl hfork
  | quiet hfork => exact absurd rfl hfork
  | segv huser hact => simp at hact
  | stuck huser hact => simp at hact

/-- Nobody loses a page to the `malloc` of another process. -/
theorem Good.malloc_uses (h : Good m₀ k G) {bytes : Int} (hstep : k.step (.malloc bytes) = some k')
    (hir : i ≠ k.sched.r) {f n : Nat} (hf : k.Uses f (.page i n)) : k'.Uses f (.page i n) := by
  obtain ⟨hi, hmap⟩ := (uses_page h f i n).mp hf
  cases step_moves hstep with
  | malloc huser hrun =>
      obtain ⟨G', hB, hv, -⟩ := malloc_spec h.inv h.homed (h.cur_valid huser) hrun
      refine (uses_page (h.own_mem huser hB hv) f i n).mpr ⟨hi, ?_⟩
      rw [hB.frame.mapped _ n (h.root_ne huser hi hir), hmap]
  | segv huser hact => simp at hact
  | stuck huser hact => simp at hact

end Reap

/-- The machine after `create_process`, with zeros in page 0. -/
def ZeroStart (m₀ : Mem) (k : System) : Prop :=
  Boot m₀ ∧ (∀ x, m₀.word 0 x = 0) ∧ ∃ img name, img.Ok ∧ name.length < 50 ∧
    System.start m₀ img name = some k

theorem ZeroStart.good {m₀ : Mem} {k : System} (h : Reachable System.step Safe (ZeroStart m₀) k) :
    (¬ OnFreeList m₀ 0 ∧ ∀ x, m₀.word 0 x = 0) ∧ ∃ G, Good m₀ k G := by
  obtain ⟨G, hgood, -⟩ := Good.reachable (P := fun _ _ => True) h
    (by
      rintro k ⟨hboot, -, img, name, hok, hname, hrun⟩
      obtain ⟨G, hgood, -⟩ := hboot.start hok hname hrun
      exact ⟨G, hgood, trivial⟩)
    (fun _ _ _ _ hok => hok) fun _ _ _ _ _ _ _ _ _ _ => trivial
  obtain ⟨k₀, -, ⟨hboot, hzero, -⟩, -⟩ := h
  exact ⟨⟨hboot.zero, hzero⟩, G, hgood⟩

/-- Rounds of `fork`, death and `waitpid` are memory-neutral as long as `malloc`
has room: as many pages are free as before, a frame that the parent still has is
referenced as often as before, and so is the frame of every page it has. -/
theorem rounds_neutral (m₀ : Mem) (k k' : System) (i : Nat)
    (h : Reachable System.step Safe (ZeroStart m₀) k) (hrounds : Rounds Roomy i k k') :
    freeCount k'.mem = freeCount k.mem ∧
      (∀ f n n', k.Uses f (.page i n) → k'.Uses f (.page i n') →
        (k'.mem.page f).refCount = (k.mem.page f).refCount) ∧
      ∀ f' n, k'.Uses f' (.page i n) → ∃ f, k.Uses f (.page i n) ∧
        (k'.mem.page f').refCount = (k.mem.page f).refCount := by
  obtain ⟨⟨hnot, hzero⟩, G, hgood⟩ := ZeroStart.good h
  obtain ⟨G', hgood', hN⟩ := hgood.rounds hnot hzero hrounds
  refine ⟨hN.free, fun f n n' hf hf' => hN.frame hgood' hf hf', ?_⟩
  intro f' n hf'
  obtain ⟨f, hf⟩ := hN.back n f' hf'
  obtain ⟨f₁, hf₁, hrc, -⟩ := hN.page n f hf
  have hmap := ((uses_page hgood' _ i _).mp hf').2
  have hmap₁ := ((uses_page hgood' _ i _).mp hf₁).2
  obtain rfl : f₁ = f' := by
    rw [hmap] at hmap₁
    exact (Option.some.inj hmap₁).symm
  exact ⟨f, hf, hrc⟩

/-- The shell forks and waits; its child calls `malloc` and exits; init and idle
come in between, and the shell is about to reap. The result is the machine before
and after the `malloc` and at the end. -/
def childMallocs (k : System) : Option (System × System × System) := do
  let k₁ ← k.step (.sched (.sys .fork))
  let k₂ ← k₁.step (.sched (.sys (.waitpid 3)))
  let k₃ ← k₂.step (.sched .resume)
  let k₄ ← k₃.step (.malloc 0)
  let k₅ ← k₄.step (.sched (.sys .exit))
  let k₆ ← k₅.step (.sched .resume)
  let k₇ ← k₆.step (.sched .resume)
  let k₈ ← k₇.step (.sched .idleYield)
  if (k.sched.r = 2 ∧ newPID k.sched.q = some 3) ∧
      (reaps k₁.sched (.sys (.waitpid 3)) = none ∧ reaps k₂.sched .resume = none ∧
        reaps k₅.sched .resume = none ∧ reaps k₆.sched .resume = none) ∧
      k₃.sched.r = 3 ∧ k₈.sched.r = 2 ∧ reaps k₈.sched .resume = some 3 ∧
      (k₈.sched.step .resume).isSome then
    some (k₃, k₄, k₈)
  else none

/-- It is a round, whatever is asked of the `malloc` in it. -/
theorem childMallocs_spec {m₀ : Mem} {k k₃ k₄ k₈ : System} {G : Ghost} (h : Good m₀ k G)
    (hrun : childMallocs k = some (k₃, k₄, k₈)) :
    ∃ k' G₃ G₈, Good m₀ k₃ G₃ ∧ k₃.sched.r = 3 ∧ k₃.step (.malloc 0) = some k₄ ∧
      Good m₀ k₈ G₈ ∧ k₈.mem = k₄.mem ∧
      (∀ f i n, k₈.Uses f (.page i n) ↔ k₄.Uses f (.page i n)) ∧
      (∀ f n, k.Uses f (.page 2 n) → k₃.Uses f (.page 2 n)) ∧
      reaps k₈.sched .resume = some 3 ∧ k₈.step (.sched .resume) = some k' ∧
      ∀ ok : System → Action → Prop, (∀ k e, ok k (.sched e)) → ok k₃ (.malloc 0) →
        Round ok 2 k k' := by
  obtain ⟨k₁, hk₁, hrun⟩ := Option.bind_eq_some_iff.mp hrun
  obtain ⟨k₂, hk₂, hrun⟩ := Option.bind_eq_some_iff.mp hrun
  obtain ⟨l₃, hk₃, hrun⟩ := Option.bind_eq_some_iff.mp hrun
  obtain ⟨l₄, hk₄, hrun⟩ := Option.bind_eq_some_iff.mp hrun
  obtain ⟨k₅, hk₅, hrun⟩ := Option.bind_eq_some_iff.mp hrun
  obtain ⟨k₆, hk₆, hrun⟩ := Option.bind_eq_some_iff.mp hrun
  obtain ⟨k₇, hk₇, hrun⟩ := Option.bind_eq_some_iff.mp hrun
  obtain ⟨l₈, hk₈, hrun⟩ := Option.bind_eq_some_iff.mp hrun
  split_ifs at hrun with hfacts
  obtain ⟨⟨hr, hpid⟩, ⟨hq₁, hq₂, hq₅, hq₆⟩, hr₃, hr₈, hreap, hsome⟩ := hfacts
  obtain ⟨rfl, rfl, rfl⟩ : l₃ = k₃ ∧ l₄ = k₄ ∧ l₈ = k₈ := by simpa using hrun
  obtain ⟨s, hs⟩ := Option.isSome_iff_exists.mp hsome
  have hquiet₁ : Quiet k₁ (.sys (.waitpid 3)) := ⟨by simp, hq₁, trivial, trivial⟩
  have hquiet₂ : Quiet k₂ .resume := ⟨by simp, hq₂, trivial, trivial⟩
  have hquiet₄ : Quiet l₄ (.sys .exit) := ⟨by simp, rfl, trivial, trivial⟩
  have hquiet₅ : Quiet k₅ .resume := ⟨by simp, hq₅, trivial, trivial⟩
  have hquiet₆ : Quiet k₆ .resume := ⟨by simp, hq₆, trivial, trivial⟩
  have hquiet₇ : Quiet k₇ .idleYield := ⟨by simp, rfl, trivial, trivial⟩
  obtain ⟨G₁, hgood₁, -⟩ := h.step (show Safe k (.sched (.sys .fork)) from ⟨trivial, trivial⟩) hk₁
  obtain ⟨hgood₂, -, huses₂⟩ := hgood₁.pause hquiet₁ hk₂
  obtain ⟨hgood₃, -, huses₃⟩ := hgood₂.pause hquiet₂ hk₃
  obtain ⟨G₄, hgood₄, -⟩ := hgood₃.step (show Safe l₃ (.malloc 0) from trivial) hk₄
  obtain ⟨hgood₅, hmem₅, huses₅⟩ := hgood₄.pause hquiet₄ hk₅
  obtain ⟨hgood₆, hmem₆, huses₆⟩ := hgood₅.pause hquiet₅ hk₆
  obtain ⟨hgood₇, hmem₇, huses₇⟩ := hgood₆.pause hquiet₆ hk₇
  obtain ⟨hgood₈, hmem₈, huses₈⟩ := hgood₇.pause hquiet₇ hk₈
  obtain ⟨k', hk'⟩ := hgood₈.resume_reaps hs hreap
  refine ⟨k', G₁, G₄, hgood₃, hr₃, hk₄, hgood₈, by rw [hmem₈, hmem₇, hmem₆, hmem₅], ?_, ?_, hreap,
    hk', ?_⟩
  · intro f i n
    rw [huses₈, huses₇, huses₆, huses₅]
  · intro f n hf
    rw [huses₃, huses₂]
    exact h.fork_uses hk₁ hf
  · intro ok hsched hmalloc
    have hrun₁ : Run System.step (fun k act => RoundStep 2 3 k act ∧ ok k act) k₁ [] k₁ := .nil
    have hrun₂ := hrun₁.snoc (e := Action.sched (.sys (.waitpid 3))) ⟨hquiet₁, hsched _ _⟩ hk₂
    have hrun₃ := hrun₂.snoc (e := Action.sched .resume) ⟨hquiet₂, hsched _ _⟩ hk₃
    have hrun₄ := hrun₃.snoc (e := Action.malloc 0) ⟨hr₃, hmalloc⟩ hk₄
    have hrun₅ := hrun₄.snoc (e := Action.sched (.sys .exit)) ⟨hquiet₄, hsched _ _⟩ hk₅
    have hrun₆ := hrun₅.snoc (e := Action.sched .resume) ⟨hquiet₅, hsched _ _⟩ hk₆
    have hrun₇ := hrun₆.snoc (e := Action.sched .resume) ⟨hquiet₆, hsched _ _⟩ hk₇
    have hrun₈ := hrun₇.snoc (e := Action.sched .idleYield) ⟨hquiet₇, hsched _ _⟩ hk₈
    exact ⟨3, k₁, l₈, _, .resume, hr, hpid, hk₁, hrun₈, hr₈, hreap, hk'⟩

/-- The child of the shell gets a page of heap and dies. -/
theorem rounds_neutral_malloc :
    ∃ k k', Reachable System.step Safe (ZeroStart smallMem) k ∧ Rounds Roomy 2 k k' ∧
      brk k.mem (k.space 2) = heapStart ∧ freeCount k'.mem = freeCount k.mem := by
  have hrun : ((System.start smallMem emptyImage []).bind fun k =>
      (childMallocs k).map fun l => decide (brk k.mem (k.space 2) = heapStart ∧
        brk l.1.mem l.1.cur = heapStart ∧
        (l.1.mem.walk l.1.cur.root heapStart).isNone)).any id = true := by
    decide +kernel
  obtain ⟨b, hrun, hb⟩ := (Option.any_eq_true _ _).mp hrun
  obtain ⟨k, hk, hrun⟩ := Option.bind_eq_some_iff.mp hrun
  obtain ⟨⟨k₃, k₄, k₈⟩, hmallocs, rfl⟩ := Option.map_eq_some_iff.mp hrun
  obtain ⟨hbrk, hbrk₃, hwalk₃⟩ := of_decide_eq_true hb
  have hstart : Reachable System.step Safe (ZeroStart smallMem) k :=
    .start ⟨smallMem_boot, fun _ => rfl, emptyImage, [], emptyImage_ok, by decide, hk⟩
  obtain ⟨G, hgood, -⟩ := smallMem_boot.start emptyImage_ok (by decide) hk
  obtain ⟨k', -, -, -, -, -, -, -, -, -, -, -, hround⟩ := childMallocs_spec hgood hmallocs
  have hroomy : Roomy k₃ (.malloc 0) := by
    intro n hlo hhi
    have hone : mallocPages 0 = 1 := rfl
    rw [hone] at hhi
    obtain rfl : n = heapPage := by
      simp only [hbrk₃, heapPage, heapStart] at *
      omega
    exact Option.isNone_iff_eq_none.mp hwalk₃
  have hrounds := Rounds.none.round (hround Roomy (fun _ _ => trivial) hroomy)
  exact ⟨k, k', hstart, hrounds, hbrk, (rounds_neutral smallMem k k' 2 hstart hrounds).1⟩

/-- An image with a segment where the heap starts. -/
def heapImage : Image := { phdrs := [⟨1, 0, heapStart, 0, 1⟩], data := fun _ => 0 }

theorem heapImage_ok : heapImage.Ok := by
  intro ep hep _
  obtain rfl := List.mem_singleton.mp hep
  simp only [heapStart, userPages]
  omega

/-- The shell has a page where its heap is to grow. Its child calls `malloc`, which
puts a new frame there and forgets the one it shared; after the child is reaped
that frame still counts two references. -/
theorem malloc_keeps_reference :
    ¬ ∀ (m₀ : Mem) (k k' : System) (i : Nat), Reachable System.step Safe (ZeroStart m₀) k →
      Rounds (fun _ _ => True) i k k' → ∀ f n n', k.Uses f (.page i n) → k'.Uses f (.page i n') →
        (k'.mem.page f).refCount = (k.mem.page f).refCount := by
  intro hall
  have hrun : ((System.start smallMem heapImage []).bind fun k =>
      (childMallocs k).map fun l => decide (
        ((k.mem.page 10).refCount = 1 ∧
          (k.mem.walk (k.space 2).root heapStart).map frameOf = some 10) ∧
        ((l.1.sched.q 3).state ≠ .ready ∧ brk l.1.mem l.1.cur = heapStart ∧
          (l.1.mem.walk (l.1.space 3).root heapStart).map frameOf = some 10) ∧
        (l.2.1.mem.walk (l.2.1.space 3).root heapStart).map frameOf ≠ some 10 ∧
        (l.2.1.mem.page 10).refCount = 2)).any id = true := by
    decide +kernel
  obtain ⟨b, hrun, hb⟩ := (Option.any_eq_true _ _).mp hrun
  obtain ⟨k, hk, hrun⟩ := Option.bind_eq_some_iff.mp hrun
  obtain ⟨⟨k₃, k₄, k₈⟩, hmallocs, rfl⟩ := Option.map_eq_some_iff.mp hrun
  obtain ⟨⟨hrc, hpage⟩, ⟨huse₃, hbrk₃, hpage₃⟩, hpage₄, hrc₄⟩ := of_decide_eq_true hb
  have hstart : Reachable System.step Safe (ZeroStart smallMem) k :=
    .start ⟨smallMem_boot, fun _ => rfl, heapImage, [], heapImage_ok, by decide, hk⟩
  obtain ⟨G, hgood, hsched, -⟩ := smallMem_boot.start heapImage_ok (by decide) hk
  obtain ⟨k', G₃, G₈, hgood₃, hr₃, hk₄, hgood₈, hmem₈, huses₈, hshared, hreap, hk', hround⟩ :=
    childMallocs_spec hgood hmallocs
  have hheap : heapPage * 4096 = heapStart := by decide
  have huser : heapPage < userPages := by decide
  have hparent : k.Uses 10 (.page 2 heapPage) :=
    ⟨(boot_inUse hsched 2).mpr rfl, huser, by rw [hheap, hpage]⟩
  -- the child has frame 10 before its `malloc` and not after it
  have hchild₃ : k₃.Uses 10 (.page k₃.sched.r heapPage) := by
    rw [hr₃]
    exact ⟨⟨by decide, huse₃⟩, huser, by rw [hheap, hpage₃]⟩
  have hnot₄ : ¬ k₄.Uses 10 (.page k₃.sched.r heapPage) := by
    rw [hr₃]
    rintro ⟨-, -, hcon⟩
    rw [hheap] at hcon
    exact hpage₄ hcon
  have hlost := hgood₃.malloc_loses rfl hk₄ (by rw [hheap, hbrk₃]) hchild₃ hnot₄
  rw [hr₃] at hlost
  have hparent₄ := hgood₃.malloc_uses hk₄ (by rw [hr₃]; decide) (hshared 10 heapPage hparent)
  obtain ⟨hparent', hcount⟩ := hgood₈.reap_count hreap hk' ((huses₈ 10 2 heapPage).mpr hparent₄)
    (fun x => mt (huses₈ 10 3 x).mp (hlost x))
  have hrounds := Rounds.none.round (hround (fun _ _ => True) (fun _ _ => trivial) trivial)
  have hsame := hall smallMem k k' 2 hstart hrounds 10 heapPage heapPage hparent hparent'
  rw [hcount, hmem₈, hrc₄, hrc] at hsame
  cases hsame

end X86Kernel.Kern
