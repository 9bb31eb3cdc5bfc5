import X86Kernel.Kern.Destroy

/-!
Isolation. A process that is not on the CPU finds its memory as it left it,
whatever the others do in the meantime; and a page that a process can write to
directly is in no other page table and nothing else.
-/

namespace X86Kernel.Kern

open Lib Paging Proc

/-- A step while the process in slot `i` is off the CPU and not reaped. -/
def OffCpu (i : Nat) (k : System) (act : Action) : Prop :=
  Safe k act ∧ k.sched.r ≠ i ∧ ∀ e, act = .sched e → reaps k.sched e ≠ some i

/-- What the process in slot `i` has of memory is the same: its space, what it
sees, and the nodes of its area list with everything in them. -/
structure SameMemory (i : Nat) (k k' : System) : Prop where
  space : k'.space i = k.space i
  bytes : ∀ a, view k'.mem (k'.space i).root a = view k.mem (k.space i).root a
  nodes : ∀ j, nodeAt k'.mem (k'.space i).vm j = nodeAt k.mem (k.space i).vm j
  areas : ∀ j f, nodeAt k.mem (k.space i).vm j = some f → k'.mem.word f = k.mem.word f

theorem SameMemory.of_eq {i : Nat} {k k' : System} (hspace : k'.space i = k.space i)
    (hmem : k'.mem = k.mem) : SameMemory i k k' := by
  refine ⟨hspace, ?_, ?_, ?_⟩
  · intro a
    rw [hspace, hmem]
  · intro j
    rw [hspace, hmem]
  · intro j f _
    rw [hmem]

theorem SameMemory.trans {i : Nat} {k₁ k₂ k₃ : System} (h : SameMemory i k₁ k₂)
    (h' : SameMemory i k₂ k₃) : SameMemory i k₁ k₃ := by
  refine ⟨h'.space.trans h.space, ?_, ?_, ?_⟩
  · intro a
    rw [h'.bytes a, h.bytes a]
  · intro j
    rw [h'.nodes j, h.nodes j]
  · intro j f hf
    rw [h'.areas j f (by rw [h.nodes j, hf]), h.areas j f hf]

section Step

variable {m₀ : Mem} {k k' : System} {G G' : Ghost} {i : Nat}

/-- Something happened in the space `p`, which is not that of slot `i`. -/
theorem Good.sameMemory (h : Good m₀ k G) (h' : Good m₀ k' G') {p : Nat}
    (hF : Frame (· = p) k.mem G k'.mem G') (hi : k.InUse i) (hspace : k'.space i = k.space i)
    (hne : (k.space i).root ≠ p) : SameMemory i k k' := by
  have hv := h.valid i hi
  obtain ⟨s, t, rest, hL⟩ := hv.areas
  have hL' := hL.frame hF hne
  have hnode : ∀ j, nodeAt k'.mem (k.space i).vm j = nodeAt k.mem (k.space i).vm j := by
    intro j
    rw [nodeAt_eq hL.areas (fun f hf => hL.lt h.inv hf),
      nodeAt_eq hL'.areas (fun f hf => hL'.lt h'.inv hf)]
  refine ⟨hspace, ?_, ?_, ?_⟩
  · intro a
    unfold view
    rw [hspace]
    split_ifs with ha
    · exact hF.load h.inv h'.inv hne hv.root ha
    · rfl
  · rw [hspace]
    exact hnode
  · intro j f hf
    rw [nodeAt_eq hL.areas (fun f hf => hL.lt h.inv hf)] at hf
    exact hF.node _ f hne ((hL.nodes f).mp (List.mem_of_getElem? hf))

/-- A step of the others leaves the process its slot and its memory. -/
theorem Good.offCpu (h : Good m₀ k G) (h' : Good m₀ k' G') {act : Action}
    (hE : Effect k G act k' G') (hi : k.InUse i) (hr : k.sched.r ≠ i)
    (hreap : ∀ e, act = .sched e → reaps k.sched e ≠ some i) :
    k'.InUse i ∧ SameMemory i k k' := by
  cases hE with
  | fork huser hfree hv hbrk hF hheld hleaf huse hnew =>
      rename_i s c m
      have hfree' : (k.space i).root ≠ c.root := by
        intro hcon
        have hrole := h.root_role hi
        rw [hcon, hfree] at hrole
        cases hrole
      have hspace : (k.forked s c m).space i = k.space i := by
        rw [forked_space, if_neg]
        intro hpid
        exact hnew i hpid hi
      exact ⟨(huse i).mpr (Or.inl hi),
        h.sameMemory h' (by rw [forked_mem]; exact hF) hi hspace hfree'⟩
  | reap hfork hreap' hi' hF hheld htab hleaf huse =>
      rename_i e s i' m
      have hne : i ≠ i' := by
        rintro rfl
        exact hreap e rfl hreap'
      exact ⟨(huse i).mpr ⟨hi, hne⟩,
        h.sameMemory h' hF hi rfl fun hcon => hne (h.distinct i i' hi hi' hcon)⟩
  | quiet hfork hnone huse => exact ⟨(huse i).mpr hi, .of_eq rfl rfl⟩
  | exec huser hroot htab hL hbrk =>
      exact ⟨hi, h.sameMemory h' hL.frame hi (Function.update_of_ne hr.symm _ _)
        (h.root_ne huser hi hr.symm)⟩
  | malloc huser hB hv hbrk hload =>
      exact ⟨hi, h.sameMemory h' hB.frame hi rfl (h.root_ne huser hi hr.symm)⟩
  | write huser hB hbrk hload =>
      exact ⟨hi, h.sameMemory h' hB.frame hi rfl (h.root_ne huser hi hr.symm)⟩
  | read huser hB hbrk =>
      exact ⟨hi, h.sameMemory h' hB.frame hi rfl (h.root_ne huser hi hr.symm)⟩
  | segv huser hact huse => exact ⟨(huse i).mpr hi, .of_eq rfl rfl⟩
  | stuck huser hact => exact ⟨hi, .of_eq rfl rfl⟩

end Step

/-- A process finds its memory as it left it: however long it is off the CPU, and
whatever safe steps the others make in the meantime, it keeps its slot, sees the
same byte at every user address and has the same areas. -/
theorem memory_kept_off_cpu (k k' : System) (h : Reachable System.step Safe BootStart k)
    (i : Nat) (hi : k.InUse i) (acts : List Action)
    (hrun : Run System.step (OffCpu i) k acts k') : k'.InUse i ∧ SameMemory i k k' := by
  obtain ⟨m₀, G, -, hgood⟩ := BootStart.good (fun _ _ hsafe => hsafe) h
  have hinv : (∃ G, Good m₀ k' G) ∧ k'.InUse i ∧ SameMemory i k k' := by
    refine hrun.invariant (P := fun k' => (∃ G, Good m₀ k' G) ∧ k'.InUse i ∧ SameMemory i k k')
      ⟨⟨G, hgood⟩, hi, .of_eq rfl rfl⟩ ?_
    rintro a act b ⟨⟨Ga, ha⟩, hia, hsame⟩ ⟨hsafe, hr, hreap⟩ hstep
    obtain ⟨Gb, hb, hE⟩ := ha.step hsafe hstep
    obtain ⟨hib, hsame'⟩ := ha.offCpu hb hE hia hr hreap
    exact ⟨⟨Gb, hb⟩, hib, hsame.trans hsame'⟩
  exact hinv.2

/-- The shell forks and writes to its stack; the child is off the CPU. -/
theorem memory_kept_off_cpu_child :
    ∃ k k', k.InUse 3 ∧ Run System.step (OffCpu 3) k [.write stackStart 7] k' ∧
      view k'.mem (k'.space 2).root stackStart = some 7 ∧ SameMemory 3 k k' := by
  have hrun : ((System.start smallMem emptyImage []).bind fun k =>
      (k.step (.sched (.sys .fork))).bind fun k => (k.step (.write stackStart 7)).map fun k' =>
        decide ((k.sched.q 3).state ≠ .ready ∧ k.sched.r ≠ 3 ∧
          (k.mem.walk k.cur.root stackStart).isSome ∧
          view k'.mem (k'.space 2).root stackStart = some 7)).any id = true := by
    decide +kernel
  obtain ⟨b, hrun, hb⟩ := (Option.any_eq_true _ _).mp hrun
  obtain ⟨k₀, hk₀, hrun⟩ := Option.bind_eq_some_iff.mp hrun
  obtain ⟨k₁, hk₁, hrun⟩ := Option.bind_eq_some_iff.mp hrun
  obtain ⟨k₂, hk₂, rfl⟩ := Option.map_eq_some_iff.mp hrun
  obtain ⟨hstate, hr, hwalk, hbyte⟩ := of_decide_eq_true hb
  have hstart : Reachable System.step Safe BootStart k₀ :=
    .start ⟨smallMem, emptyImage, [], smallMem_boot, emptyImage_ok, by decide, hk₀⟩
  have hfork := hstart.next (e := Action.sched (.sys .fork)) ⟨trivial, trivial⟩ hk₁
  have hsafe : Safe k₁ (.write stackStart 7) := ⟨by decide, Or.inl hwalk⟩
  have hwrite : Run System.step (OffCpu 3) k₁ ([] ++ [.write stackStart 7]) k₂ :=
    Run.nil.snoc ⟨hsafe, hr, by simp⟩ hk₂
  have huse : k₁.InUse 3 := ⟨by decide, hstate⟩
  exact ⟨k₁, k₂, huse, hwrite, hbyte, (memory_kept_off_cpu k₁ k₂ hfork 3 huse _ hwrite).2⟩

/-- The machine when `create_process` has made the first process, in a kernel that
had the memory `m₀` before. -/
def BootFrom (m₀ : Mem) (k : System) : Prop :=
  Boot m₀ ∧ ∃ img name, img.Ok ∧ name.length < 50 ∧ System.start m₀ img name = some k

/-- What the first process has, and every safe step keeps. -/
theorem BootFrom.invariant {m₀ : Mem} {k : System} {P : System → Prop}
    (h : Reachable System.step Safe (BootFrom m₀) k)
    (hinit : ∀ img name sp m, Boot m₀ → img.Ok → name.length < 50 →
      createProcess m₀ img name = some (sp, m) →
      P { sched := Proc.boot, space := bootSpace m₀ sp, mem := m, hung := fun _ => false })
    (hstep : ∀ k act k' G, Good m₀ k G → Safe k act → k.step act = some k' → P k → P k') :
    ∃ G, Good m₀ k G ∧ P k := by
  refine Good.reachable (P := fun k _ => P k) h ?_ (fun _ _ _ _ hok => hok)
    fun k act k' G _ hgood hok hnext _ hP => hstep k act k' G hgood hok hnext hP
  rintro k ⟨hboot, img, name, hok, hname, hrun⟩
  obtain ⟨G, hgood, -⟩ := hboot.start hok hname hrun
  obtain ⟨⟨sp, m⟩, hcreate, rfl⟩ := Option.map_eq_some_iff.mp hrun
  exact ⟨G, hgood, hinit img name sp m hboot hok hname hcreate⟩

theorem BootFrom.good {m₀ : Mem} {k : System} (h : Reachable System.step Safe (BootFrom m₀) k) :
    ∃ G, Good m₀ k G := by
  obtain ⟨G, hgood, -⟩ := BootFrom.invariant (P := fun _ => True) h
    (fun _ _ _ _ _ _ _ _ => trivial) fun _ _ _ _ _ _ _ _ => trivial
  exact ⟨G, hgood⟩

/-- The pages of a process are ordinary memory: in every state that safe steps lead to
from a booted kernel, a frame that a user address leads to was free when the first
process was made, is not free now, and is no PML4, page table or area node of any
process. If the address can be written to without a fault, its page table entry is the
only one for the frame. -/
theorem user_pages_private (m₀ : Mem) (k : System)
    (h : Reachable System.step Safe (BootFrom m₀) k) (i a : Nat) (w : Word) (hi : k.InUse i)
    (ha : a / 4096 < userPages) (hw : k.mem.walk (k.space i).root a = some w) :
    OnFreeList m₀ (frameOf w) ∧ ¬ OnFreeList k.mem (frameOf w) ∧
      (∀ u, k.Uses (frameOf w) u → ∃ i' n', u = .page i' n') ∧
      (writable w = true → (k.mem.page (frameOf w)).refCount = 1 ∧
        ∀ i' n', k.Uses (frameOf w) (.page i' n') → i' = i ∧ n' = a / 4096) := by
  obtain ⟨G, hgood⟩ := BootFrom.good h
  have hwalk := hgood.inv.walk (hgood.valid i hi).root ha
  rw [hw] at hwalk
  obtain ⟨e, he, rfl⟩ := Option.map_eq_some_iff.mp hwalk.symm
  rw [Pte.frameOf_word (hgood.inv.leaf_lt he), Pte.writable_word]
  have hrole := hgood.inv.refs.target _ e he
  refine ⟨?_, ?_, ?_, ?_⟩
  · by_contra hcon
    have hkernel := (hgood.kernel e.frame).mpr hcon
    rw [hrole] at hkernel
    cases hkernel
  · rw [onFreeList_iff hgood.inv, hrole]
    exact Role.noConfusion
  · intro u hu
    obtain ⟨i', n', rfl, -⟩ | ⟨i', d, key, -, -, -, hcon⟩ | ⟨i', j, -, -, hcon⟩ :=
      Uses.role hgood hu
    · exact ⟨i', n', rfl⟩
    · rw [hrole] at hcon
      cases hcon
    · rw [hrole] at hcon
      cases hcon
  · intro hown
    have hone := hgood.inv.refs.own _ e he hown
    refine ⟨hone, ?_⟩
    intro i' n' hu
    obtain ⟨hi', hmap'⟩ := (uses_page hgood _ i' n').mp hu
    have hmap : G.mapped ((k.space i).root, a / 4096) = some e.frame := by
      rw [Ghost.mapped, he, Option.map_some]
    -- the count is one, so there is one reference
    have hcount := hgood.inv.refs.count e.frame hrole
    have heq := eq_of_refCount_le_one hgood.inv.refs.finite (f := e.frame)
      (by omega) hmap' hmap
    obtain ⟨hroot, hn⟩ := Prod.mk.inj heq
    exact ⟨hgood.distinct i' i hi' hi hroot, hn⟩

/-- The shell's stack page. -/
theorem user_pages_private_stack :
    ∃ k w, Reachable System.step Safe (BootFrom smallMem) k ∧
      k.mem.walk (k.space 2).root stackStart = some w ∧ writable w = true ∧
      ∀ i' n', k.Uses (frameOf w) (.page i' n') → i' = 2 ∧ n' = stackStart / 4096 := by
  have hrun : ((System.start smallMem emptyImage []).bind fun k =>
      (k.mem.walk (k.space 2).root stackStart).map fun w => (k, w)).any (fun r =>
        decide ((r.1.sched.q 2).state ≠ .ready ∧ writable r.2 = true)) = true := by
    decide +kernel
  obtain ⟨⟨k, w⟩, hkw, hb⟩ := (Option.any_eq_true _ _).mp hrun
  obtain ⟨k₀, hk₀, hkw⟩ := Option.bind_eq_some_iff.mp hkw
  obtain ⟨w₀, hw₀, heq⟩ := Option.map_eq_some_iff.mp hkw
  obtain ⟨rfl, rfl⟩ := Prod.mk.inj heq
  obtain ⟨hstate, hwritable⟩ := of_decide_eq_true hb
  have hstart : Reachable System.step Safe (BootFrom smallMem) k₀ :=
    .start ⟨smallMem_boot, emptyImage, [], emptyImage_ok, by decide, hk₀⟩
  exact ⟨k₀, w₀, hstart, hw₀, hwritable,
    ((user_pages_private smallMem k₀ hstart 2 stackStart w₀ ⟨by decide, hstate⟩ (by decide)
      hw₀).2.2.2 hwritable).2⟩

end X86Kernel.Kern
