import X86Kernel.Kern.System

/-!
The invariant of the whole machine. Every slot in use has its own address
space, and the frames the kernel had at boot stay the kernel's.
-/

namespace X86Kernel.Kern

open Lib Paging Proc

/-- The frame is on the list of free frames. -/
def OnFreeList (m : Mem) (f : Nat) : Prop := Along (fun g => (m.page g).next) m.head f

theorem onFreeList_iff {m : Mem} {G : Ghost} (h : Inv m G) (f : Nat) :
    OnFreeList m f ↔ G.role f = .free := by
  obtain ⟨l, hchain, -, hl⟩ := h.pool.chain
  exact (hchain.along_iff f).trans (hl f)

/-- The slot holds a process of its own, alive or not yet reaped. Init and idle,
in slots 0 and 1, run on the kernel's tables. -/
def System.InUse (k : System) (i : Nat) : Prop := 2 ≤ i ∧ (k.sched.q i).state ≠ .ready

/-- The machine and the reading `G` of its memory, for a kernel that had the
memory `m₀` when it created the first process. -/
structure Good (m₀ : Mem) (k : System) (G : Ghost) : Prop where
  awake : Awake k.sched
  inv : Inv k.mem G
  homed : Homed G
  valid : ∀ i, k.InUse i → Valid k.mem G (k.space i)
  distinct : ∀ i j, k.InUse i → k.InUse j → (k.space i).root = (k.space j).root → i = j
  kernel : ∀ f, G.role f = .kernel ↔ ¬ OnFreeList m₀ f
  kword : ∀ f, G.role f = .kernel → k.mem.word f = m₀.word f
  kpml4 : k.mem.kpml4 = m₀.kpml4

section Step

variable {m₀ : Mem} {k k' : System} {G G' : Ghost}

/-- A slot in use has a PML4 that is not free. -/
theorem Good.root_role (h : Good m₀ k G) {i : Nat} (hi : k.InUse i) :
    G.role (k.space i).root = .table (k.space i).root 3 0 :=
  (h.inv.trees.role _ _ _ _).mp (h.valid i hi).root

/-- The process that executes user code is neither init nor idle. -/
theorem Good.cur_inUse (h : Good m₀ k G) (huser : k.inUser = true) : k.InUse k.sched.r := by
  have hmode : k.sched.mode = .user := by
    unfold System.inUser at huser
    simp only [decide_eq_true_eq] at huser
    exact huser.1
  have h0 := h.awake.ne_zero_of_mode (by simp [hmode])
  have h1 := h.awake.ne_one_of_user hmode
  exact ⟨by omega, h.awake.cur_state⟩

theorem Good.cur_valid (h : Good m₀ k G) (huser : k.inUser = true) : Valid k.mem G k.cur :=
  h.valid _ (h.cur_inUse huser)

/-- No other slot has the space of the current process. -/
theorem Good.root_ne (h : Good m₀ k G) (huser : k.inUser = true) {i : Nat} (hi : k.InUse i)
    (hne : i ≠ k.sched.r) : (k.space i).root ≠ k.cur.root :=
  fun hcon => hne (h.distinct i _ hi (h.cur_inUse huser) hcon)

/-- Something happens in the space `p` only. -/
theorem Good.act {p : Nat} (h : Good m₀ k G) (hA : Awake k'.sched) (hI : Inv k'.mem G')
    (hH : Homed G') (hF : Frame (· = p) k.mem G k'.mem G')
    (hslot : ∀ j, k'.InUse j → (k.InUse j ∧ k'.space j = k.space j ∧ (k.space j).root ≠ p) ∨
      (Valid k'.mem G' (k'.space j) ∧ (k'.space j).root = p))
    (huniq : ∀ i j, k'.InUse i → k'.InUse j → (k'.space i).root = p → (k'.space j).root = p →
      i = j) : Good m₀ k' G' := by
  refine ⟨hA, hI, hH, ?_, ?_, ?_, ?_, by rw [hF.kpml4, h.kpml4]⟩
  · intro i hi
    obtain ⟨hold, hspace, hne⟩ | ⟨hv, -⟩ := hslot i hi
    · rw [hspace]
      exact ((h.valid i hold).frame h.inv hF hne).1
    · exact hv
  · intro i j hi hj heq
    by_cases hp : (k'.space i).root = p
    · exact huniq i j hi hj hp (heq ▸ hp)
    · obtain ⟨hiold, hispace, -⟩ | ⟨-, hcon⟩ := hslot i hi
      · obtain ⟨hjold, hjspace, -⟩ | ⟨-, hcon⟩ := hslot j hj
        · rw [hispace, hjspace] at heq
          exact h.distinct i j hiold hjold heq
        · exact absurd (heq.trans hcon) hp
      · exact absurd hcon hp
  · intro f
    rw [hF.kernel, h.kernel]
  · intro f hf
    have hf' := (hF.kernel f).mp hf
    rw [hF.kword f hf', h.kword f hf']

/-- The current process does something to its own memory. -/
theorem Good.own (h : Good m₀ k G) (huser : k.inUser = true) {sp : Space} {m : Mem}
    (hroot : sp.root = k.cur.root) (hI : Inv m G') (hH : Homed G')
    (hF : Frame (· = k.cur.root) k.mem G m G') (hv : Valid m G' sp) :
    Good m₀ { k with space := Function.update k.space k.sched.r sp, mem := m } G' := by
  refine h.act (p := k.cur.root) h.awake hI hH hF ?_ ?_
  · intro j hj
    by_cases hjr : j = k.sched.r
    · subst hjr
      simp only [Function.update_self]
      exact Or.inr ⟨hv, hroot⟩
    · simp only [Function.update_of_ne hjr]
      exact Or.inl ⟨hj, by trivial, h.root_ne huser hj hjr⟩
  · intro i j hi hj hip hjp
    have hmine : ∀ x, k.InUse x →
        (Function.update k.space k.sched.r sp x).root = k.cur.root → x = k.sched.r := by
      intro x hx hxp
      by_contra hne
      rw [Function.update_of_ne hne] at hxp
      exact h.root_ne huser hx hne hxp
    rw [hmine i hi hip, hmine j hj hjp]

/-- The current process changes its memory and keeps its areas. -/
theorem Good.own_mem (h : Good m₀ k G) (huser : k.inUser = true) {m : Mem} {D : Prop}
    {N : Nat → Prop} (hB : Builds k.cur.root D N k.mem G m G') (hv : Valid m G' k.cur) :
    Good m₀ { k with mem := m } G' := by
  have hgood := h.own huser rfl hB.inv hB.homed hB.frame hv
  have hsame : Function.update k.space k.sched.r k.cur = k.space := by
    unfold System.cur
    simp
  rwa [hsame] at hgood

/-- Only the scheduler moves. -/
theorem Good.quiet (h : Good m₀ k G) (hA : Awake k'.sched) (hmem : k'.mem = k.mem)
    (hspace : k'.space = k.space) (huse : ∀ j, k'.InUse j → k.InUse j) : Good m₀ k' G := by
  refine ⟨hA, hmem ▸ h.inv, h.homed, ?_, ?_, h.kernel, hmem ▸ h.kword, hmem ▸ h.kpml4⟩
  · intro i hi
    rw [hmem, hspace]
    exact h.valid i (huse i hi)
  · intro i j hi hj heq
    rw [hspace] at heq
    exact h.distinct i j (huse i hi) (huse j hj) heq

end Step

/-- The memory of a child has the shape of its parent's. -/
theorem copytask_valid {m m' : Mem} {G : Ghost} {r c : Space} (h : Inv m G) (hhome : Homed G)
    (hv : Valid m G r) (hrun : copytask m r = some (c, m')) :
    ∃ G', G.role c.root = .free ∧ Inv m' G' ∧ Homed G' ∧ Valid m' G' c ∧
      brk m' c = brk m r ∧ Frame (· = c.root) m G m' G' ∧ G'.held = G.held ∧
      ∀ q n, G'.leaf (q, n) = if q = r.root ∨ q = c.root then
        (G.leaf (r.root, n)).map Pte.share else G.leaf (q, n) := by
  obtain ⟨s, t, rest, hL, -, -, hframe, hnext, -⟩ := hv.nodes h
  obtain ⟨G', l', hfree, halign, h', hhome', hL', hcopied, hF, hheld, hleaf⟩ :=
    copytask_spec h hhome hL hrun
  cases hcopied with
  | cons hs htail =>
      rename_i s' l₁
      cases htail with
      | cons ht htail =>
          rename_i t' rest'
          obtain ⟨hvm, hnext', -⟩ := hL'.areas
          have hs' : frameAt c.vm = s' := by rw [hvm, frameAt_kptr (hL'.lt h' (by simp))]
          have hbrk : brk m' c = brk m r := by
            unfold brk vmEnd vmNext
            rw [hs', hnext', frameAt_kptr (hL'.lt h' (by simp)), ht.2]
            unfold vmNext at hnext
            rw [hnext, frameAt_kptr (hL.lt h (by simp))]
          refine ⟨G', hfree, h', hhome', ⟨halign, ⟨s', t', rest', hL'⟩, ?_, ?_, ?_, ?_, ?_⟩,
            hbrk, hF, hheld, hleaf⟩
          · unfold vmStart
            rw [hs', hs.1, ← hframe]
            exact hv.stack_start
          · unfold vmEnd
            rw [hs', hs.2, ← hframe]
            exact hv.stack_end
          · have hstart := hv.heap_start
            unfold vmStart vmNext at hstart ⊢
            unfold vmNext at hnext
            rw [hnext, frameAt_kptr (hL.lt h (by simp))] at hstart
            rw [hs', hnext', frameAt_kptr (hL'.lt h' (by simp)), ht.1, hstart]
          · rw [hbrk]
            exact hv.heap
          · intro n hlo hhi
            rw [hbrk] at hhi
            rw [hleaf, if_pos (Or.inr rfl)]
            simpa using hv.heap_pages n hlo hhi

/-- `getPTE` is used where it finds a page table, or frame 0 holds zeros. -/
def System.Resolves (k : System) (a : Nat) : Prop :=
  a / 4096 < userPages ∧ ((k.mem.walk k.cur.root a).isSome ∨ ∀ i, k.mem.word 0 i = 0)

/-- The steps that keep memory in order: `kill` spares idle and free slots, and
images and addresses are those of user programs. -/
def Safe (k : System) : Action → Prop
  | .sched e => SparesIdle e ∧ KillsExisting k.sched e
  | .exec img args => img.Ok ∧ FitsArgs args
  | .malloc _ => True
  | .write a _ => k.Resolves a
  | .read a => k.Resolves a

inductive Effect (k : System) (G : Ghost) : Action → System → Ghost → Prop
  | fork {s : Sched} {c : Space} {m : Mem} {G' : Ghost} : k.inUser → G.role c.root = .free →
      Valid m G' c → brk m c = brk k.mem k.cur → Frame (· = c.root) k.mem G m G' →
      G'.held = G.held →
      (∀ q n, G'.leaf (q, n) = if q = k.cur.root ∨ q = c.root then
        (G.leaf (k.cur.root, n)).map Pte.share else G.leaf (q, n)) →
      (∀ j, (k.forked s c m).InUse j ↔ k.InUse j ∨ newPID k.sched.q = some j) →
      (∀ j, newPID k.sched.q = some j → ¬ k.InUse j) →
      Effect k G (.sched (.sys .fork)) (k.forked s c m) G'
  | reap {e : Proc.Event} {s : Sched} {i : Nat} {m : Mem} {G' : Ghost} : e ≠ .sys .fork →
      reaps k.sched e = some i → k.InUse i → Frame (· = (k.space i).root) k.mem G m G' →
      G'.held = G.held → G'.tab ((k.space i).root, 3, 0) = none →
      (∀ q n, G'.leaf (q, n) = if q = (k.space i).root then none else G.leaf (q, n)) →
      (∀ j, ({ k with sched := s, mem := m } : System).InUse j ↔ k.InUse j ∧ j ≠ i) →
      Effect k G (.sched e) { k with sched := s, mem := m } G'
  | quiet {e : Proc.Event} {s : Sched} : e ≠ .sys .fork → reaps k.sched e = none →
      (∀ j, ({ k with sched := s } : System).InUse j ↔ k.InUse j) →
      Effect k G (.sched e) { k with sched := s } G
  | exec {img : Image} {args : List (List Byte)} {sp : Space} {m : Mem} {G' : Ghost} :
      k.inUser → sp.root = k.cur.root → G'.tab (k.cur.root, 3, 0) = some k.cur.root →
      Loaded k.cur.root img k.mem G m G' → brk m sp = heapStart →
      Effect k G (.exec img args)
        { k with space := Function.update k.space k.sched.r sp, mem := m } G'
  | malloc {bytes : Int} {m : Mem} {G' : Ghost} : k.inUser →
      Builds k.cur.root True (fun n => brk k.mem k.cur ≤ n * 4096 ∧ n * 4096 < brk m k.cur)
        k.mem G m G' → Valid m G' k.cur →
      brk m k.cur = brk k.mem k.cur + 4096 * mallocPages bytes →
      (∀ v, v / 4096 < userPages → ¬ (brk k.mem k.cur ≤ v ∧ v < brk m k.cur) →
        m.load k.cur.root v = k.mem.load k.cur.root v) →
      Effect k G (.malloc bytes) { k with mem := m } G'
  | write {a : Nat} {b : Byte} {m : Mem} {G' : Ghost} : k.inUser →
      Builds k.cur.root True (growsAt G k.cur.root a) k.mem G m G' →
      brk m k.cur = brk k.mem k.cur →
      (G.leaf (k.cur.root, a / 4096) ≠ none → ∀ v, v / 4096 < userPages →
        m.load k.cur.root v = if v = a then some b else k.mem.load k.cur.root v) →
      Effect k G (.write a b) { k with mem := m } G'
  | read {a : Nat} {m : Mem} {G' : Ghost} : k.inUser →
      Builds k.cur.root True (growsAt G k.cur.root a) k.mem G m G' →
      brk m k.cur = brk k.mem k.cur → Effect k G (.read a) { k with mem := m } G'
  | segv {act : Action} {s : Sched} : k.inUser →
      (∃ a b, act = .write a b) ∨ (∃ a, act = .read a) →
      (∀ j, ({ k with sched := s } : System).InUse j ↔ k.InUse j) →
      Effect k G act { k with sched := s, hung := Function.update k.hung k.sched.r true } G
  | stuck {act : Action} : k.inUser → (∃ a b, act = .write a b) ∨ (∃ a, act = .read a) →
      Effect k G act { k with hung := Function.update k.hung k.sched.r true } G

section Step

variable {m₀ : Mem} {k k' : System} {G : Ghost}

/-- The slots in use after a step of the scheduler. -/
theorem Good.inUse_step (h : Good m₀ k G) {e : Proc.Event} {s : Sched}
    (hok : KillsExisting k.sched e) (hs : k.sched.step e = some s) (j : Nat) :
    (2 ≤ j ∧ (s.q j).state ≠ .ready) ↔
      (k.InUse j ∨ 2 ≤ j ∧ forks k.sched e = some j) ∧ reaps k.sched e ≠ some j := by
  have hready := step_ready h.awake.toBase hok hs j
  unfold System.InUse
  rw [Ne, hready]
  tauto

/-- A new process goes to a free slot from 2 on. -/
theorem Good.newPID_ge (h : Good m₀ k G) {j : Nat} (hn : newPID k.sched.q = some j) :
    2 ≤ j ∧ ¬ k.InUse j := by
  have hfree := (newPID_some hn).2
  have h0 : j ≠ 0 := by
    rintro rfl
    exact h.awake.init_slot.1 hfree
  have h1 : j ≠ 1 := by
    rintro rfl
    simp [h.awake.idle_running] at hfree
  exact ⟨by omega, fun hj => hj.2 hfree⟩

theorem forked_inUse {s : Sched} {c : Space} {m : Mem} (j : Nat) :
    (k.forked s c m).InUse j ↔ 2 ≤ j ∧ (s.q j).state ≠ .ready := by
  unfold System.forked System.InUse
  cases newPID k.sched.q <;> exact Iff.rfl

theorem forked_sched {s : Sched} {c : Space} {m : Mem} : (k.forked s c m).sched = s := by
  unfold System.forked
  cases newPID k.sched.q <;> rfl

theorem forked_mem {s : Sched} {c : Space} {m : Mem} : (k.forked s c m).mem = m := by
  unfold System.forked
  cases newPID k.sched.q <;> rfl

theorem forked_space {s : Sched} {c : Space} {m : Mem} (j : Nat) :
    (k.forked s c m).space j = if newPID k.sched.q = some j then c else k.space j := by
  unfold System.forked
  cases hn : newPID k.sched.q with
  | none => simp
  | some pid =>
      by_cases hj : j = pid
      · simp [hj]
      · simp [hj, Ne.symm hj]

/-- `fork` makes one new space, and puts it into the slot it takes. -/
theorem Good.fork (h : Good m₀ k G) {s : Sched} {c : Space} {m : Mem} (huser : k.inUser = true)
    (hs : k.sched.step (.sys .fork) = some s) (hcopy : copytask k.mem k.cur = some (c, m)) :
    ∃ G', Good m₀ (k.forked s c m) G' ∧
      Effect k G (.sched (.sys .fork)) (k.forked s c m) G' := by
  obtain ⟨G', hfree, hI, hH, hv, hbrk, hF, hheld, hleaf⟩ :=
    copytask_valid h.inv h.homed (h.cur_valid huser) hcopy
  have hne : ∀ j, k.InUse j → (k.space j).root ≠ c.root := by
    intro j hj hcon
    have hrole := h.root_role hj
    rw [hcon, hfree] at hrole
    cases hrole
  have huse : ∀ j, (k.forked s c m).InUse j ↔ k.InUse j ∨ newPID k.sched.q = some j := by
    intro j
    rw [forked_inUse, h.inUse_step (e := .sys .fork) trivial hs]
    simp only [forks, reaps, ne_eq, reduceCtorEq, not_false_eq_true, and_true]
    constructor
    · rintro (hj | ⟨-, hj⟩)
      · exact Or.inl hj
      · exact Or.inr hj
    · rintro (hj | hj)
      · exact Or.inl hj
      · exact Or.inr ⟨(h.newPID_ge hj).1, hj⟩
  have hnew : ∀ j, newPID k.sched.q = some j → ¬ k.InUse j := fun j hj => (h.newPID_ge hj).2
  refine ⟨G', ?_, .fork huser hfree hv hbrk hF hheld hleaf huse hnew⟩
  refine h.act (p := c.root) ?_ (by rw [forked_mem]; exact hI) hH (by rw [forked_mem]; exact hF)
    ?_ ?_
  · rw [forked_sched]
    exact h.awake.step (e := .sys .fork) trivial hs
  · intro j hj
    rw [forked_space, forked_mem]
    by_cases hn : newPID k.sched.q = some j
    · rw [if_pos hn]
      exact Or.inr ⟨hv, rfl⟩
    · rw [if_neg hn]
      have hold := ((huse j).mp hj).resolve_right hn
      exact Or.inl ⟨hold, rfl, hne j hold⟩
  · have hmine : ∀ x, (k.forked s c m).InUse x → ((k.forked s c m).space x).root = c.root →
        newPID k.sched.q = some x := by
      intro x hx hxp
      by_contra hn
      rw [forked_space, if_neg hn] at hxp
      exact hne x (((huse x).mp hx).resolve_right hn) hxp
    intro i j hi hj hip hjp
    have hsame := (hmine i hi hip).symm.trans (hmine j hj hjp)
    exact Option.some.inj hsame

/-- Reaping destroys the space of the slot it frees, and always succeeds. -/
theorem Good.reap (h : Good m₀ k G) {e : Proc.Event} {s : Sched} {i : Nat} {m : Mem}
    (hfork : e ≠ .sys .fork) (hok : SparesIdle e ∧ KillsExisting k.sched e)
    (hs : k.sched.step e = some s) (hreap : reaps k.sched e = some i)
    (hrun : removeProcess k.mem (k.space i) = some m) :
    ∃ G', Good m₀ { k with sched := s, mem := m } G' ∧
      Effect k G (.sched e) { k with sched := s, mem := m } G' := by
  have hi : k.InUse i := by
    refine ⟨(h.awake.reaps_ne hreap).1, ?_⟩
    rw [(reaps_zombie hreap).2]
    decide
  have hvi := h.valid i hi
  obtain ⟨a, b, rest, hL⟩ := hvi.areas
  obtain ⟨m', G', hrun', hI, hF, hheld, htab, hnovma, hleaf⟩ :=
    removeProcess_spec h.inv hL hvi.aligned
  obtain rfl : m' = m := by
    rw [hrun'] at hrun
    exact Option.some.inj hrun
  have hnofork : forks k.sched e = none := forks_eq_none hfork
  have huse : ∀ j, ({ k with sched := s, mem := m' } : System).InUse j ↔ k.InUse j ∧ j ≠ i := by
    intro j
    have hstep := h.inUse_step hok.2 hs j
    have hji : some i ≠ some j ↔ j ≠ i := by simp [eq_comm]
    rw [hnofork, hreap, hji] at hstep
    unfold System.InUse at hstep ⊢
    rw [hstep]
    simp only [reduceCtorEq, and_false, or_false]
  have hH : Homed G' := by
    intro f q hf
    have hq : q ≠ (k.space i).root := by
      rintro rfl
      exact hnovma f hf
    rw [hF.root q hq]
    exact h.homed f q ((hF.vma q f hq).mp hf)
  refine ⟨G', ?_, .reap hfork hreap hi hF hheld htab hleaf huse⟩
  have hne : ∀ j, k.InUse j → j ≠ i → (k.space j).root ≠ (k.space i).root :=
    fun j hj hji hcon => hji (h.distinct j i hj hi hcon)
  refine h.act (p := (k.space i).root) (h.awake.step hok.1 hs) hI hH hF ?_ ?_
  · intro j hj
    obtain ⟨hj, hji⟩ := (huse j).mp hj
    exact Or.inl ⟨hj, rfl, hne j hj hji⟩
  · intro x y hx _ hxp _
    obtain ⟨hx, hxi⟩ := (huse x).mp hx
    exact absurd hxp (hne x hx hxi)

/-- A step of the scheduler that neither forks nor reaps takes and frees no
slot. -/
theorem Good.inUse_quiet (h : Good m₀ k G) {e : Proc.Event} {s : Sched}
    (hok : KillsExisting k.sched e) (hfork : e ≠ .sys .fork) (hreap : reaps k.sched e = none)
    (hs : k.sched.step e = some s) (j : Nat) :
    ({ k with sched := s } : System).InUse j ↔ k.InUse j := by
  have hnofork : forks k.sched e = none := forks_eq_none hfork
  have hstep := h.inUse_step hok hs j
  rw [hnofork, hreap] at hstep
  unfold System.InUse at hstep ⊢
  rw [hstep]
  simp

/-- An address that resolves has a page table, or is read from zeros. -/
theorem Good.resolves (h : Good m₀ k G) (huser : k.inUser = true) {a : Nat}
    (ha : k.Resolves a) : a / 4096 < userPages ∧
      (G.tab (k.cur.root, 0, a / 4096 / 512) ≠ none ∨ ∀ i, k.mem.word 0 i = 0) := by
  refine ⟨ha.1, ha.2.imp_left ?_⟩
  intro hwalk
  apply h.inv.trees.leaf
  intro hnone
  rw [h.inv.walk (h.cur_valid huser).root ha.1, hnone] at hwalk
  simp at hwalk

/-- The invariant is kept, step by step. -/
theorem Good.step (h : Good m₀ k G) {act : Action} (hok : Safe k act)
    (hstep : k.step act = some k') : ∃ G', Good m₀ k' G' ∧ Effect k G act k' G' := by
  cases step_moves hstep with
  | fork huser hs hcopy => exact h.fork huser hs hcopy
  | reap hfork hs hreap hrun => exact h.reap hfork hok hs hreap hrun
  | quiet hfork hs hreap =>
      have huse := h.inUse_quiet hok.2 hfork hreap hs
      exact ⟨G, h.quiet (h.awake.step hok.1 hs) rfl rfl (fun j hj => (huse j).mp hj),
        .quiet hfork hreap huse⟩
  | exec huser hrun =>
      obtain ⟨G', hroot, htab, hL, hv, hbrk, -⟩ :=
        execvpe_spec h.inv h.homed (h.cur_valid huser) hok.1 hok.2 hrun
      exact ⟨G', h.own huser hroot hL.inv hL.homed hL.frame hv, .exec huser hroot htab hL hbrk⟩
  | malloc huser hrun =>
      obtain ⟨G', hB, hv, hbrk, hload, -⟩ :=
        malloc_spec h.inv h.homed (h.cur_valid huser) hrun
      exact ⟨G', h.own_mem huser hB hv, .malloc huser hB hv hbrk hload⟩
  | write huser hrun =>
      have hvcur := h.cur_valid huser
      obtain ⟨hpage, hpte⟩ := h.resolves huser hok
      obtain ⟨G', hB, hv, hbrk, -⟩ := write_spec h.inv h.homed hvcur hpage hpte hrun
      refine ⟨G', h.own_mem huser hB hv, .write huser hB hbrk ?_⟩
      intro hmapped v hvu
      exact write_load h.inv hvcur hpage hmapped hrun hvu
  | read huser hrun =>
      obtain ⟨hpage, hpte⟩ := h.resolves huser hok
      obtain ⟨G', hB, hv, hbrk⟩ :=
        read_spec h.inv h.homed (h.cur_valid huser) hpage hpte hrun
      exact ⟨G', h.own_mem huser hB hv, .read huser hB hbrk⟩
  | segv huser hact hs =>
      have huse := h.inUse_quiet (e := .sys .exit) trivial (by simp) rfl hs
      exact ⟨G, h.quiet (h.awake.step (e := .sys .exit) trivial hs) rfl rfl
        (fun j hj => (huse j).mp hj), .segv huser hact huse⟩
  | stuck huser hact =>
      exact ⟨G, h.quiet h.awake rfl rfl (fun j hj => hj), .stuck huser hact⟩

/-- The invariant rule of the kernel: runs of safe steps keep memory in order, and with it
whatever each effect keeps. -/
theorem Good.reachable {ok : System → Action → Prop} {init : System → Prop}
    {P : System → Ghost → Prop} (h : Reachable System.step ok init k)
    (hinit : ∀ k, init k → ∃ G, Good m₀ k G ∧ P k G)
    (hsafe : ∀ k act G, Good m₀ k G → ok k act → Safe k act)
    (hstep : ∀ k act k' G G', Good m₀ k G → ok k act → k.step act = some k' →
      Effect k G act k' G' → P k G → P k' G') : ∃ G, Good m₀ k G ∧ P k G := by
  refine h.invariant hinit ?_
  rintro k act k' ⟨G, hgood, hP⟩ hok hnext
  obtain ⟨G', hgood', hE⟩ := hgood.step (hsafe k act G hgood hok) hnext
  exact ⟨G', hgood', hstep k act k' G G' hgood hok hnext hE hP⟩

end Step

end X86Kernel.Kern
