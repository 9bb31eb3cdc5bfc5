import X86Kernel.Kern.Progress
import X86Kernel.Kern.Start

/-!
The heap as processes get it from the kernel: what `malloc` returns, over whole runs. A
run keeps for each process the regions that it has asked for since its image was loaded;
a child starts with those of its parent, whose heap it has a copy of.
-/

namespace X86Kernel.Kern

open Lib Paging Proc

/-- `uint64_t ret = vm->vm_end`, read before the loop. -/
def mallocRet (m : Mem) (sp : Space) : Nat := (vmEnd m (vmNext m sp.vm)).toNat

/-- The machine, and for each slot what `malloc` has returned with the number of bytes
it was called with, the last call first. -/
structure Heaps where
  sys : System
  regions : Nat → List (Nat × Int)

/-- The regions after a step: `execvpe` starts a new heap. -/
def Heaps.record (s : Heaps) : Action → Nat → List (Nat × Int)
  | .malloc bytes => Function.update s.regions s.sys.sched.r
      ((mallocRet s.sys.mem s.sys.cur, bytes) :: s.regions s.sys.sched.r)
  | .exec _ _ => Function.update s.regions s.sys.sched.r []
  | .sched (.sys .fork) => fun i =>
      if newPID s.sys.sched.q = some i then s.regions s.sys.sched.r else s.regions i
  | _ => s.regions

def Heaps.step (s : Heaps) (act : Action) : Option Heaps :=
  (s.sys.step act).map fun k => { sys := k, regions := s.record act }

/-- `malloc` is not called with a negative number. -/
def HeapStep (s : Heaps) (act : Action) : Prop :=
  Safe s.sys act ∧ ∀ bytes, act = .malloc bytes → 0 ≤ bytes ∧ bytes < 2 ^ 31

/-- The first process has been created and has asked for nothing. -/
def HeapStart (m₀ : Mem) (s : Heaps) : Prop :=
  Boot m₀ ∧ (∃ img name, img.Ok ∧ name.length < 50 ∧ System.start m₀ img name = some s.sys) ∧
    ∀ i, s.regions i = []

def Ascending (l : List (Nat × Int)) : Prop :=
  l.Pairwise fun later earlier => (earlier.1 : Int) + earlier.2 < later.1

structure Below (k : System) (i : Nat) (l : List (Nat × Int)) : Prop where
  ascending : Ascending l
  before : ∀ x ∈ l, x.1 + x.2 < brk k.mem (k.space i)

theorem mallocPages_eq {bytes : Int} (h : 0 ≤ bytes) :
    (mallocPages bytes : Int) = bytes / 4096 + 1 := by
  unfold mallocPages
  rw [Int.tdiv_eq_ediv_of_nonneg h]
  omega

section Step

variable {m₀ : Mem} {s : Heaps} {k k' : System} {G G' : Ghost} {l : List (Nat × Int)} {i : Nat}

/-- The heap has not become shorter. -/
theorem Below.keep (h : Below k i l) (hbrk : brk k.mem (k.space i) ≤ brk k'.mem (k'.space i)) :
    Below k' i l := by
  refine ⟨h.ascending, fun x hx => ?_⟩
  have hbefore := h.before x hx
  omega

/-- What happens in the space `p` leaves the other heaps alone. -/
theorem Below.other {p : Nat} (hgood : Good m₀ k G) (h : Below k i l) (hi : k.InUse i)
    (hF : Frame (· = p) k.mem G k'.mem G') (hspace : k'.space i = k.space i)
    (hne : (k.space i).root ≠ p) : Below k' i l := by
  refine h.keep ?_
  rw [hspace, ((hgood.valid i hi).frame hgood.inv hF hne).2]

/-- The region that `malloc` returns starts where the heap ended. -/
theorem Below.malloc {bytes : Int} (h : Below k i l) (hbytes : 0 ≤ bytes)
    (hbrk : brk k'.mem (k'.space i) = brk k.mem (k.space i) + 4096 * mallocPages bytes) :
    Below k' i ((brk k.mem (k.space i), bytes) :: l) := by
  have hpages := mallocPages_eq hbytes
  refine ⟨List.pairwise_cons.mpr ⟨h.before, h.ascending⟩, fun x hx => ?_⟩
  obtain rfl | hx := List.mem_cons.mp hx
  · dsimp only
    omega
  · have hbefore := h.before x hx
    omega

theorem Heaps.record_sched {e : Proc.Event} (he : e ≠ .sys .fork) :
    s.record (.sched e) = s.regions := by
  unfold Heaps.record
  split
  · rename_i hact
    cases hact
  · rename_i hact
    cases hact
  · rename_i hact
    exact absurd (Action.sched.inj hact) he
  · rfl

/-- The regions of every process after a step. -/
theorem Heaps.below_step (hgood : Good m₀ s.sys G)
    (h : ∀ i, s.sys.InUse i → Below s.sys i (s.regions i)) {act : Action} (hok : HeapStep s act)
    (hE : Effect s.sys G act k' G') (hi : k'.InUse i) : Below k' i (s.record act i) := by
  cases hE with
  | fork huser hfree hv hbrk hF hheld hleaf huse hnew =>
      rename_i t c m
      change Below _ i (if newPID s.sys.sched.q = some i then _ else _)
      split_ifs with hn
      · refine ⟨(h _ (hgood.cur_inUse huser)).ascending, fun x hx => ?_⟩
        rw [forked_space, if_pos hn, forked_mem, hbrk]
        exact (h _ (hgood.cur_inUse huser)).before x hx
      · have hold := ((huse i).mp hi).resolve_right hn
        refine (h i hold).other hgood hold (p := c.root) (by rw [forked_mem]; exact hF)
          (by rw [forked_space, if_neg hn]) ?_
        intro hcon
        have hrole := hgood.root_role hold
        rw [hcon, hfree] at hrole
        cases hrole
  | reap hfork hreap hj hF hheld htab hleaf huse =>
      rw [Heaps.record_sched hfork]
      obtain ⟨hold, hij⟩ := (huse i).mp hi
      exact (h i hold).other hgood hold hF rfl (fun hcon => hij (hgood.distinct i _ hold hj hcon))
  | quiet hfork hreap huse =>
      rw [Heaps.record_sched hfork]
      exact (h i ((huse i).mp hi)).keep le_rfl
  | exec huser hroot htab hL hbrk =>
      change Below _ i (Function.update s.regions _ [] i)
      by_cases hir : i = s.sys.sched.r
      · subst hir
        rw [Function.update_self]
        exact ⟨List.Pairwise.nil, by simp⟩
      · rw [Function.update_of_ne hir]
        exact (h i hi).other hgood hi hL.frame (Function.update_of_ne hir _ _)
          (hgood.root_ne huser hi hir)
  | malloc huser hB hv hbrk hload =>
      rename_i bytes m
      change Below _ i (Function.update s.regions _ (_ :: _) i)
      by_cases hir : i = s.sys.sched.r
      · subst hir
        rw [Function.update_self]
        exact (h _ hi).malloc (hok.2 bytes rfl).1 hbrk
      · rw [Function.update_of_ne hir]
        exact (h i hi).other hgood hi hB.frame rfl (hgood.root_ne huser hi hir)
  | write huser hB hbrk hload =>
      by_cases hir : i = s.sys.sched.r
      · subst hir
        exact (h _ hi).keep hbrk.ge
      · exact (h i hi).other hgood hi hB.frame rfl (hgood.root_ne huser hi hir)
  | read huser hB hbrk =>
      by_cases hir : i = s.sys.sched.r
      · subst hir
        exact (h _ hi).keep hbrk.ge
      · exact (h i hi).other hgood hi hB.frame rfl (hgood.root_ne huser hi hir)
  | segv huser hact huse =>
      obtain ⟨a, b, rfl⟩ | ⟨a, rfl⟩ := hact
      · exact (h i ((huse i).mp hi)).keep le_rfl
      · exact (h i ((huse i).mp hi)).keep le_rfl
  | stuck huser hact =>
      obtain ⟨a, b, rfl⟩ | ⟨a, rfl⟩ := hact
      · exact (h i hi).keep le_rfl
      · exact (h i hi).keep le_rfl

/-- The run lemma. -/
theorem Heaps.below (h : Reachable Heaps.step HeapStep (HeapStart m₀) s) :
    ∃ G, Good m₀ s.sys G ∧ ∀ i, s.sys.InUse i → Below s.sys i (s.regions i) := by
  refine h.invariant (P := fun s => ∃ G, Good m₀ s.sys G ∧
    ∀ i, s.sys.InUse i → Below s.sys i (s.regions i)) ?_ ?_
  · rintro s ⟨hboot, ⟨img, name, hok, hname, hstart⟩, hnil⟩
    obtain ⟨G, hgood, -⟩ := hboot.start hok hname hstart
    refine ⟨G, hgood, fun i _ => ?_⟩
    rw [hnil]
    exact ⟨List.Pairwise.nil, by simp⟩
  · rintro s act s' ⟨G, hgood, hbelow⟩ hok hstep
    obtain ⟨k', hk', rfl⟩ := Option.map_eq_some_iff.mp hstep
    obtain ⟨G', hgood', hE⟩ := hgood.step hok.1 hk'
    exact ⟨G', hgood', fun i hi => Heaps.below_step hgood hbelow hok hE hi⟩

end Step

/-- What one call of `malloc` by the current process does. Of the kernel it writes
nothing, and the kernel had the frames in `m₀` that were not free. -/
structure Sbrk (m₀ : Mem) (k : System) (bytes : Int) (k' : System) : Prop where
  heap : vmStart k.mem (vmNext k.mem k.cur.vm) = BitVec.ofNat 64 heapStart
  ret : mallocRet k.mem k.cur = brk k.mem k.cur
  moved : (brk k'.mem k'.cur : Int) = brk k.mem k.cur + 4096 * (bytes / 4096 + 1)
  covers : (brk k.mem k.cur : Int) + bytes < brk k'.mem k'.cur
  pages : ∀ v, brk k.mem k.cur ≤ v → v < brk k'.mem k'.cur → ∃ f, OnFreeList k.mem f ∧
    ¬ OnFreeList k'.mem f ∧ (k'.mem.page f).refCount = 1 ∧
      k'.mem.walk k.cur.root v = some (entry (f * 4096) 7)
  distinct : ∀ v v', brk k.mem k.cur ≤ v → v < brk k'.mem k'.cur → brk k.mem k.cur ≤ v' →
    v' < brk k'.mem k'.cur → k'.mem.walk k.cur.root v = k'.mem.walk k.cur.root v' →
      v / 4096 = v' / 4096
  others : ∀ i, k.InUse i → k'.space i = k.space i ∧ ∀ v, v / 4096 < userPages →
    ¬ (i = k.sched.r ∧ brk k.mem k.cur ≤ v ∧ v < brk k'.mem k'.cur) →
      k'.mem.walk (k.space i).root v = k.mem.walk (k.space i).root v
  kernel : k'.mem.kpml4 = k.mem.kpml4 ∧ ∀ f, ¬ OnFreeList m₀ f → k'.mem.word f = k.mem.word f
  sched : k'.sched = k.sched

section Call

variable {m₀ : Mem} {k k' : System} {G : Ghost} {bytes : Int}

/-- The end of the heap is an address of user memory. -/
theorem brk_user {m : Mem} {sp : Space} (h : Inv m G) (hv : Valid m G sp) :
    brk m sp / 4096 < userPages := by
  have hbound := (hv.brk_le h).2
  simp only [capacity, heapStart, userPages] at *
  omega

/-- One page of heap takes a frame, and at most three more for tables. -/
theorem malloc_ok {m : Mem} {sp : Space} {n : Nat} (h : Inv m G) (hhome : Homed G)
    (hv : Valid m G sp) (hs : Supplied (4 * mallocPages bytes + n) m) :
    ∃ m', malloc m sp bytes = some m' := by
  unfold malloc
  have hloop := foldlM_range_total (n := mallocPages bytes) (s := m)
    (P := fun j m₁ => Supplied (4 * (mallocPages bytes - j) + n) m₁ ∧ ∃ G₁, Inv m₁ G₁ ∧ Homed G₁ ∧
      Valid m₁ G₁ sp ∧ vmNext m₁ sp.vm = vmNext m sp.vm)
    (f := fun m₁ _ => m₁.allocatePage.bind fun r =>
      (r.2.initPagesForProcess (vmEnd r.2 (vmNext m sp.vm)).toNat r.1 sp.root).bind fun m₁ =>
        some (m₁.set (frameAt (vmNext m sp.vm)) 1 (vmEnd m₁ (vmNext m sp.vm) + 4096)))
    ⟨hs, G, h, hhome, hv, rfl⟩ ?_
  · obtain ⟨m', hrun, -⟩ := hloop
    exact ⟨m', hrun⟩
  · rintro j m₁ hj ⟨hs₁, G₁, h₁, hhome₁, hv₁, hnext₁⟩
    have hsplit :
        4 * (mallocPages bytes - j) + n = 4 + (4 * (mallocPages bytes - (j + 1)) + n) := by
      omega
    rw [hsplit] at hs₁
    obtain ⟨a, m₂, m₃, halloc, hmap, l, hl, hlen⟩ :=
      mapNew_ok h₁ hv₁.root (brk_user h₁ hv₁) hs₁
    -- the end is read after the frame has been taken
    have hend : (vmEnd m₂ (vmNext m sp.vm)).toNat = brk m₁ sp := by
      obtain ⟨f, -, -, hword, -⟩ := h₁.alloc halloc
      unfold brk vmEnd
      rw [hnext₁, hword]
    have hbody : (m₁.allocatePage.bind fun r =>
        (r.2.initPagesForProcess (vmEnd r.2 (vmNext m sp.vm)).toNat r.1 sp.root).bind fun m₁ =>
          some (m₁.set (frameAt (vmNext m sp.vm)) 1 (vmEnd m₁ (vmNext m sp.vm) + 4096))) =
            some (m₃.set (frameAt (vmNext m sp.vm)) 1 (vmEnd m₃ (vmNext m sp.vm) + 4096)) := by
      rw [halloc]
      simp only [Option.bind_some, hend, hmap]
    obtain ⟨G₃, hB₃, hv₃, -, hnext₃, -⟩ := malloc_page h₁ hhome₁ hv₁ hnext₁ hbody
    exact ⟨_, hbody, ⟨l, hl.congr rfl rfl, hlen⟩, G₃, hB₃.inv, hB₃.homed, hv₃, hnext₃⟩

/-- A call that returns. -/
theorem Good.sbrk (h : Good m₀ k G) (hbytes : 0 ≤ bytes)
    (hstep : k.step (.malloc bytes) = some k') : Sbrk m₀ k bytes k' := by
  cases step_moves hstep with
  | segv huser hact => simp at hact
  | stuck huser hact => simp at hact
  | malloc huser hrun =>
      rename_i m
      have hv := h.cur_valid huser
      obtain ⟨G', hB, hv', hbrk, -, hfresh, -⟩ := malloc_spec h.inv h.homed hv hrun
      have hgood' := h.own_mem huser hB hv'
      have hpages := mallocPages_eq hbytes
      have hroot' := hv'.root
      have hcur' : ({ k with mem := m } : System).cur = k.cur := rfl
      obtain ⟨cnt, hcnt⟩ := hv.heap
      have hdvd : brk k.mem k.cur % 4096 = 0 := by
        rw [hcnt]
        simp only [heapStart]
        omega
      have hbound := (hv'.brk_le hB.inv).2
      have huserpage : ∀ {v}, v < brk m k.cur → v / 4096 < userPages := by
        intro v hv
        simp only [capacity, heapStart, userPages] at *
        omega
      -- the page of an address of the region is one of the new pages
      have hin : ∀ {v}, (brk k.mem k.cur ≤ v ∧ v < brk m k.cur) ↔
          (brk k.mem k.cur ≤ v / 4096 * 4096 ∧ v / 4096 * 4096 < brk m k.cur) := by
        intro v
        omega
      have hleaf : ∀ {v}, brk k.mem k.cur ≤ v → v < brk m k.cur → ∃ f, G.role f = .free ∧
          G'.leaf (k.cur.root, v / 4096) = some ⟨f, true⟩ :=
        fun hlo hhi => hfresh.fresh _ (hin.mp ⟨hlo, hhi⟩)
      have hwalk : ∀ {v}, v < brk m k.cur →
          m.walk k.cur.root v = (G'.leaf (k.cur.root, v / 4096)).map Pte.word :=
        fun hv => hB.inv.walk hv'.root (huserpage hv)
      refine ⟨hv.heap_start, rfl, ?_, ?_, ?_, ?_, ?_, ⟨hB.frame.kpml4, ?_⟩, rfl⟩
      · change (brk m k.cur : Int) = _
        omega
      · change _ < (brk m k.cur : Int)
        omega
      · intro v hlo hhi
        obtain ⟨f, hfree, hf⟩ := hleaf hlo hhi
        refine ⟨f, (onFreeList_iff h.inv f).mpr hfree, ?_, hB.inv.refs.own _ _ hf rfl, ?_⟩
        · intro hcon
          have hdata := hB.inv.refs.target _ _ hf
          rw [(onFreeList_iff hB.inv f).mp hcon] at hdata
          cases hdata
        · rw [hwalk hhi, hf]
          rfl
      · intro v v' hlo hhi hlo' hhi' heq
        obtain ⟨f, -, hf⟩ := hleaf hlo hhi
        obtain ⟨f', -, hf'⟩ := hleaf hlo' hhi'
        refine hB.inv.refs.inj _ _ _ _ _ hf hf' ?_
        rw [hwalk hhi, hwalk hhi', hf, hf'] at heq
        have hword := congrArg frameOf (Option.some.inj heq)
        rwa [Pte.frameOf_word (hB.inv.leaf_lt hf), Pte.frameOf_word (hB.inv.leaf_lt hf')] at hword
      · refine fun i hi => ⟨rfl, fun v hvu hout => ?_⟩
        rw [h.inv.walk (h.valid i hi).root hvu]
        refine (hB.inv.walk (hgood'.valid i hi).root hvu).trans (congrArg _ ?_)
        refine hfresh.other _ _ fun hcon => ?_
        have hir : i = k.sched.r := by
          by_contra hne
          exact h.root_ne huser hi hne hcon.1
        exact hout ⟨hir, hin.mpr hcon.2⟩
      · exact fun f hf => hB.frame.kword f ((h.kernel f).mpr hf)

end Call

/-- In every run, the regions that `malloc` has returned to one process ascend without
touching each other, and the next call does what it should. -/
theorem sbrk_regions (m₀ : Mem) (s : Heaps)
    (h : Reachable Heaps.step HeapStep (HeapStart m₀) s) :
    (∀ i, s.sys.InUse i → Ascending (s.regions i)) ∧
    ∀ bytes : Int, s.sys.inUser = true → 0 ≤ bytes → bytes < 2 ^ 31 →
      (Supplied (4 * mallocPages bytes) s.sys.mem → ∃ s', s.step (.malloc bytes) = some s') ∧
      ∀ s', s.step (.malloc bytes) = some s' → Sbrk m₀ s.sys bytes s'.sys ∧
        s'.regions s.sys.sched.r =
          (brk s.sys.mem s.sys.cur, bytes) :: s.regions s.sys.sched.r := by
  obtain ⟨G, hgood, hbelow⟩ := Heaps.below h
  refine ⟨fun i hi => (hbelow i hi).ascending, fun bytes huser hlo hhi => ⟨?_, ?_⟩⟩
  · intro hs
    obtain ⟨m', hrun⟩ := malloc_ok (n := 0) hgood.inv hgood.homed (hgood.cur_valid huser) hs
    have hstep : s.sys.step (.malloc bytes) = some { s.sys with mem := m' } := by
      simp only [System.step, huser, if_true, hrun, Option.map_some]
    exact ⟨_, by rw [Heaps.step, hstep]; rfl⟩
  · intro s' hstep
    obtain ⟨k', hk', rfl⟩ := Option.map_eq_some_iff.mp hstep
    exact ⟨hgood.sbrk hlo hk', Function.update_self _ _ _⟩

/-- The shell asks for a page, forks and asks for another. -/
theorem sbrk_regions_fork : ∃ s s' : Heaps, (s.regions 2).length = 1 ∧
    (s.regions 3).length = 1 ∧ Ascending (s.regions 3) ∧ s.step (.malloc 0) = some s' ∧
    Sbrk smallMem s.sys 0 s'.sys := by
  have hrun : ((System.start smallMem emptyImage []).bind fun k =>
      (Lib.exec Heaps.step { sys := k, regions := fun _ => [] }
        [.malloc 0, .sched (.sys .fork)]).bind fun s =>
      (s.step (.malloc 0)).map fun s' => (s, s')).any (fun r =>
        (r.1.regions 2).length = 1 ∧ (r.1.regions 3).length = 1 ∧ r.1.sys.inUser = true ∧
        (r.1.sys.sched.q 3).state ≠ .ready) = true := by
    decide +kernel
  obtain ⟨⟨s, s'⟩, hs, hp⟩ := (Option.any_eq_true _ _).mp hrun
  obtain ⟨k, hk, hs⟩ := Option.bind_eq_some_iff.mp hs
  obtain ⟨s₁, hexec, hs⟩ := Option.bind_eq_some_iff.mp hs
  obtain ⟨s₂, hstep, heq⟩ := Option.map_eq_some_iff.mp hs
  obtain ⟨rfl, rfl⟩ := Prod.mk.inj heq
  simp only [decide_eq_true_eq] at hp
  obtain ⟨h2, h3, huser, hready⟩ := hp
  have hstart : Reachable Heaps.step HeapStep (HeapStart smallMem)
      { sys := k, regions := fun _ => [] } :=
    .start ⟨smallMem_boot, ⟨emptyImage, [], emptyImage_ok, by decide, hk⟩, fun _ => rfl⟩
  have hreach := hstart.exec (fun a e he => by
    simp only [List.mem_cons, List.not_mem_nil, or_false] at he
    obtain rfl | rfl := he
    · exact ⟨trivial, fun n hn => by cases hn; decide⟩
    · exact ⟨⟨trivial, trivial⟩, fun n hn => by cases hn⟩) hexec
  obtain ⟨hasc, hcall⟩ := sbrk_regions smallMem s₁ hreach
  exact ⟨s₁, s₂, h2, h3, hasc 3 ⟨by decide, hready⟩, hstep,
    ((hcall 0 huser le_rfl (by decide)).2 s₂ hstep).1⟩

end X86Kernel.Kern
