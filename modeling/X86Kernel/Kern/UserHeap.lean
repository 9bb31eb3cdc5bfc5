import X86Kernel.Kern.Sbrk
import X86Kernel.Libc.Grants

/-!
The two heaps together. The library's `malloc` cuts blocks from regions that it gets from
the kernel's `malloc`, which it calls `sbrk`; the kernel knows of pages and of the end of
the heap area only. Processes fork, run other images and call the library in any order,
and a region is what the kernel returned and nothing else.
-/

namespace X86Kernel.Kern

open Lib Paging Proc

structure Program where
  base : Nat
  client : Libc.Client

def Program.load (base : Nat) : Program := ⟨base, ⟨⟨fun _ => ⟨0, 0⟩, Libc.NULL, []⟩, []⟩⟩

structure Machine where
  sys : System
  program : Nat → Program

inductive Act where
  | kernel (act : Action)
  | exec (img : Image) (args : List (List Byte)) (base : Nat)
  | library (fuel : Nat) (c : Libc.Call)

/-- `sbrk(r.len)`, when it returns `r.start`. -/
def System.grant (k : System) (r : Extent) : Option System :=
  if mallocRet k.mem k.cur = r.start then k.step (.malloc r.len) else none

/-- The regions that are not in `past`, the first one granted first. -/
def newRegions (past now : List Extent) : List Extent :=
  (now.take (now.length - past.length)).reverse

def Machine.cur (s : Machine) : Program := s.program s.sys.sched.r

/-- A child has a copy of its parent's data. -/
def Machine.programs (s : Machine) : Action → Nat → Program
  | .sched (.sys .fork) => fun i => if newPID s.sys.sched.q = some i then s.cur else s.program i
  | _ => s.program

def Machine.step (s : Machine) : Act → Option Machine
  | .kernel act => (s.sys.step act).map fun k => ⟨k, s.programs act⟩
  | .exec img args base => (s.sys.step (.exec img args)).map fun k =>
      ⟨k, Function.update s.program s.sys.sched.r (.load base)⟩
  | .library fuel c =>
      if s.sys.inUser then do
        let client ← s.cur.client.call Libc.heapGrows s.cur.base fuel c
        let k ← (newRegions s.cur.client.heap.regions client.heap.regions).foldlM
          System.grant s.sys
        some ⟨k, Function.update s.program s.sys.sched.r { s.cur with client := client }⟩
      else none

/-- Programs call the library as it wants to be called, and leave `sbrk` to it. -/
def MachineStep (s : Machine) : Act → Prop
  | .kernel act => Safe s.sys act ∧ (∀ bytes, act ≠ .malloc bytes) ∧
      ∀ img args, act ≠ .exec img args
  | .exec img args base => Safe s.sys (.exec img args) ∧ 0 < base ∧
      base + Libc.sizeofHeader ≤ heapStart
  | .library _ c => Libc.Permitted s.cur.client c

def MachineStart (m₀ : Mem) (s : Machine) : Prop :=
  Boot m₀ ∧ (∃ img name, img.Ok ∧ name.length < 50 ∧ System.start m₀ img name = some s.sys) ∧
    ∀ i, ∃ base, 0 < base ∧ base + Libc.sizeofHeader ≤ heapStart ∧ s.program i = .load base

/-- The kernel's heap of slot `i` ends where the library expects the next region. -/
structure Backed (k : System) (i : Nat) (P : Program) : Prop where
  base : 0 < P.base ∧ P.base + Libc.sizeofHeader ≤ heapStart
  history : Libc.History Libc.heapGrows P.base P.client
  low : ∀ r ∈ P.client.heap.regions, heapStart ≤ r.start
  ends : brk k.mem (k.space i) = Libc.heapGrows P.client.heap.regions 0

theorem heapGrows_fresh {base : Nat} (h : base + Libc.sizeofHeader ≤ heapStart) :
    Libc.Fresh base Libc.heapGrows where
  above past increment _ := h.trans (Libc.heapGrows_spec past increment).1
  higher past increment _ := (Libc.heapGrows_spec past increment).2.2
  granted past increment _ := by
    have := (Libc.heapGrows_spec past increment).2.1
    simp only [Libc.refused]
    omega

/-- A region moves the end by its pages, and one more. -/
theorem heapGrows_cons (past : List Extent) (n : Nat) :
    Libc.heapGrows (⟨Libc.heapGrows past 0, n⟩ :: past) 0 =
      Libc.heapGrows past 0 + 4096 * (n / 4096 + 1) := by
  have hdvd := (Libc.heapGrows_spec past 0).2.1
  have hcons : Libc.heapGrows (⟨Libc.heapGrows past 0, n⟩ :: past) 0 =
      max (Libc.heapGrows past 0) (4096 * ((Libc.heapGrows past 0 + n) / 4096 + 1)) := rfl
  rw [hcons]
  omega

@[simp] theorem newRegions_self (past : List Extent) : newRegions past past = [] := by
  simp [newRegions]

@[simp] theorem newRegions_cons (r : Extent) (past : List Extent) :
    newRegions past (r :: past) = [r] := by
  simp [newRegions]

section Step

variable {m₀ : Mem} {s s' : Machine} {k k' : System} {G G' : Ghost} {P : Program} {i : Nat}

theorem Backed.load {base : Nat} (hpos : 0 < base) (hlow : base + Libc.sizeofHeader ≤ heapStart)
    (hbrk : brk k.mem (k.space i) = heapStart) : Backed k i (.load base) :=
  ⟨⟨hpos, hlow⟩, .start _, fun _ hr => absurd hr List.not_mem_nil, hbrk⟩

theorem Backed.keep (h : Backed k i P)
    (hbrk : brk k'.mem (k'.space i) = brk k.mem (k.space i)) : Backed k' i P :=
  ⟨h.base, h.history, h.low, hbrk.trans h.ends⟩

/-- What happens in the space `p` leaves the heaps of others alone. -/
theorem Backed.other {p : Nat} (h : Backed k i P) (hgood : Good m₀ k G) (hi : k.InUse i)
    (hF : Frame (· = p) k.mem G k'.mem G') (hspace : k'.space i = k.space i)
    (hne : (k.space i).root ≠ p) : Backed k' i P := by
  refine h.keep ?_
  rw [hspace, ((hgood.valid i hi).frame hgood.inv hF hne).2]

theorem Machine.programs_sched {e : Proc.Event} (he : e ≠ .sys .fork) :
    s.programs (.sched e) = s.program := by
  unfold Machine.programs
  split
  · rename_i hact
    exact absurd (Action.sched.inj hact) he
  · rfl

/-- What the kernel does by itself. -/
theorem Machine.backed_kernel (hgood : Good m₀ s.sys G)
    (h : ∀ i, s.sys.InUse i → Backed s.sys i (s.program i)) {act : Action}
    (hmalloc : ∀ bytes, act ≠ .malloc bytes) (hexec : ∀ img args, act ≠ .exec img args)
    (hE : Effect s.sys G act k' G') (hi : k'.InUse i) : Backed k' i (s.programs act i) := by
  cases hE with
  | fork huser hfree hv hbrk hF hheld hleaf huse hnew =>
      rename_i t c m
      change Backed _ i (if newPID s.sys.sched.q = some i then _ else _)
      split_ifs with hn
      · have hcur := h _ (hgood.cur_inUse huser)
        refine ⟨hcur.base, hcur.history, hcur.low, ?_⟩
        rw [forked_space, if_pos hn, forked_mem, hbrk]
        exact hcur.ends
      · have hold := ((huse i).mp hi).resolve_right hn
        refine (h i hold).other (p := c.root) hgood hold (by rw [forked_mem]; exact hF)
          (by rw [forked_space, if_neg hn]) fun hcon => ?_
        have hrole := hgood.root_role hold
        rw [hcon, hfree] at hrole
        cases hrole
  | reap hfork hreap hj hF hheld htab hleaf huse =>
      rw [Machine.programs_sched hfork]
      obtain ⟨hold, hij⟩ := (huse i).mp hi
      exact (h i hold).other hgood hold hF rfl (fun hcon => hij (hgood.distinct i _ hold hj hcon))
  | quiet hfork hreap huse =>
      rw [Machine.programs_sched hfork]
      exact (h i ((huse i).mp hi)).keep rfl
  | exec => exact absurd rfl (hexec _ _)
  | malloc => exact absurd rfl (hmalloc _)
  | write huser hB hbrk hload =>
      by_cases hir : i = s.sys.sched.r
      · subst hir
        exact (h _ hi).keep hbrk
      · exact (h i hi).other hgood hi hB.frame rfl (hgood.root_ne huser hi hir)
  | read huser hB hbrk =>
      by_cases hir : i = s.sys.sched.r
      · subst hir
        exact (h _ hi).keep hbrk
      · exact (h i hi).other hgood hi hB.frame rfl (hgood.root_ne huser hi hir)
  | segv huser hact huse =>
      obtain ⟨a, b, rfl⟩ | ⟨a, rfl⟩ := hact
      · exact (h i ((huse i).mp hi)).keep rfl
      · exact (h i ((huse i).mp hi)).keep rfl
  | stuck huser hact =>
      obtain ⟨a, b, rfl⟩ | ⟨a, rfl⟩ := hact
      · exact (h i hi).keep rfl
      · exact (h i hi).keep rfl

/-- The region that the kernel has granted is the one the library expected. -/
theorem Good.granted {n : Nat} {past : List Extent} (hgood : Good m₀ k G)
    (hends : brk k.mem k.cur = Libc.heapGrows past 0)
    (hrun : k.step (.malloc n) = some k') :
    k.grant ⟨Libc.heapGrows past 0, n⟩ = some k' ∧
      ∃ G', Good m₀ k' G' ∧ k'.sched = k.sched ∧ k'.space = k.space ∧
        Frame (· = k.cur.root) k.mem G k'.mem G' ∧
        brk k'.mem k.cur = Libc.heapGrows (⟨Libc.heapGrows past 0, n⟩ :: past) 0 := by
  refine ⟨(if_pos hends).trans hrun, ?_⟩
  obtain ⟨G', hgood', hE⟩ := hgood.step (show Safe k (.malloc n) from trivial) hrun
  refine ⟨G', hgood', ?_⟩
  cases hE with
  | malloc huser hB hv hbrk hload =>
      have hpages := mallocPages_eq (Int.natCast_nonneg n)
      refine ⟨rfl, rfl, hB.frame, ?_⟩
      rw [heapGrows_cons, ← hends, hbrk]
      omega
  | segv huser hact => simp at hact
  | stuck huser hact => simp at hact

/-- The regions a grant has gone through for. -/
theorem grant_eq_some {r : Extent} (h : k.grant r = some k') :
    mallocRet k.mem k.cur = r.start ∧ k.step (.malloc r.len) = some k' := by
  unfold System.grant at h
  split_ifs at h with hret
  exact ⟨hret, h⟩

/-- A call of the library, on the regions the kernel has granted. -/
theorem Machine.backed_library (hgood : Good m₀ s.sys G)
    (h : ∀ i, s.sys.InUse i → Backed s.sys i (s.program i)) {fuel : Nat} {c : Libc.Call}
    (hp : Libc.Permitted s.cur.client c) (hrun : s.step (.library fuel c) = some s') :
    ∃ G', Good m₀ s'.sys G' ∧ ∀ i, s'.sys.InUse i → Backed s'.sys i (s'.program i) := by
  unfold Machine.step at hrun
  split_ifs at hrun with huser
  obtain ⟨client, hcall, hrun⟩ := Option.bind_eq_some_iff.mp hrun
  obtain ⟨k', hgrants, hrun⟩ := Option.bind_eq_some_iff.mp hrun
  obtain rfl := Option.some.inj hrun
  have hcur : Backed s.sys s.sys.sched.r s.cur := h _ (hgood.cur_inUse huser)
  have hfresh := heapGrows_fresh hcur.base.2
  have hnext := hcur.history.next hp hcall
  -- everybody else's program is as before
  have hset : ∀ i, i ≠ s.sys.sched.r →
      Function.update s.program s.sys.sched.r { s.cur with client := client } i = s.program i :=
    fun i hi => Function.update_of_ne hi _ _
  obtain hsame | ⟨n, -, hnew⟩ := Libc.call_asks hcur.base.1 hfresh hcur.history hp hcall
  · rw [hsame, newRegions_self] at hgrants
    obtain rfl : s.sys = k' := by simpa using hgrants
    refine ⟨G, hgood, fun i hi => ?_⟩
    by_cases hir : i = s.sys.sched.r
    · subst hir
      dsimp only
      rw [Function.update_self]
      refine ⟨hcur.base, hnext, ?_, ?_⟩
      · rw [hsame]
        exact hcur.low
      · rw [hsame]
        exact hcur.ends
    · dsimp only
      rw [hset i hir]
      exact h i hi
  · rw [hnew, newRegions_cons] at hgrants
    rw [List.foldlM_cons] at hgrants
    obtain ⟨k₁, hgrant, rfl⟩ : ∃ k₁, s.sys.grant _ = some k₁ ∧ k₁ = k' := by simpa using hgrants
    obtain ⟨-, hstep⟩ := grant_eq_some hgrant
    obtain ⟨-, G', hgood', hsched, hspace, hF, hends⟩ := hgood.granted hcur.ends hstep
    refine ⟨G', hgood', fun i hi => ?_⟩
    have hold : s.sys.InUse i := by
      unfold System.InUse at hi ⊢
      rwa [hsched] at hi
    dsimp only at hi ⊢
    by_cases hir : i = s.sys.sched.r
    · subst hir
      rw [Function.update_self]
      refine ⟨hcur.base, hnext, ?_, ?_⟩
      · rw [hnew]
        intro r hr
        obtain rfl | hr := List.mem_cons.mp hr
        · exact (Libc.heapGrows_spec _ 0).1
        · exact hcur.low r hr
      · rw [hnew, hspace]
        exact hends
    · rw [hset i hir]
      exact (h i hold).other hgood hold hF (by rw [hspace]) (hgood.root_ne huser hold hir)

/-- The run lemma. -/
theorem Machine.backed (h : Reachable Machine.step MachineStep (MachineStart m₀) s) :
    ∃ G, Good m₀ s.sys G ∧ ∀ i, s.sys.InUse i → Backed s.sys i (s.program i) := by
  refine h.invariant (P := fun s => ∃ G, Good m₀ s.sys G ∧
    ∀ i, s.sys.InUse i → Backed s.sys i (s.program i)) ?_ ?_
  · rintro s ⟨hboot, ⟨img, name, hok, hname, hstart⟩, hload⟩
    obtain ⟨G, hgood, hsched, -, hbrk⟩ := hboot.start hok hname hstart
    refine ⟨G, hgood, fun i hi => ?_⟩
    obtain rfl := (boot_inUse hsched i).mp hi
    obtain ⟨base, hpos, hlow, hprogram⟩ := hload 2
    rw [hprogram]
    exact .load hpos hlow hbrk
  · rintro s act s' ⟨G, hgood, hall⟩ hok hstep
    cases act with
    | kernel act =>
        obtain ⟨k', hk', rfl⟩ := Option.map_eq_some_iff.mp hstep
        obtain ⟨G', hgood', hE⟩ := hgood.step hok.1 hk'
        exact ⟨G', hgood', fun i hi => Machine.backed_kernel hgood hall hok.2.1 hok.2.2 hE hi⟩
    | exec img args base =>
        obtain ⟨k', hk', rfl⟩ := Option.map_eq_some_iff.mp hstep
        obtain ⟨G', hgood', hE⟩ := hgood.step hok.1 hk'
        refine ⟨G', hgood', fun i hi => ?_⟩
        cases hE with
        | exec huser hroot htab hL hbrk =>
            by_cases hir : i = s.sys.sched.r
            · subst hir
              dsimp only
              rw [Function.update_self]
              exact .load hok.2.1 hok.2.2 (by dsimp only; rw [Function.update_self, hbrk])
            · dsimp only
              rw [Function.update_of_ne hir]
              exact (hall i hi).other hgood hi hL.frame (Function.update_of_ne hir _ _)
                (hgood.root_ne huser hi hir)
        | segv huser hact => simp at hact
        | stuck huser hact => simp at hact
    | library fuel c => exact Machine.backed_library hgood hall hok hstep

end Step

/-- What a process has of its heap: the library's data is sound, and every byte that it was
given is on a page of its own address space. -/
structure Usable (k : System) (i : Nat) (P : Program) : Prop where
  sound : (∃ mem, P.client = ⟨⟨mem, Libc.NULL, []⟩, []⟩) ∨ ∃ nodes, Libc.Sound P.base P.client nodes
  apart : P.client.live.Pairwise fun e e' => e.1 + e.2 ≤ e'.1 ∨ e'.1 + e'.2 ≤ e.1
  mapped : ∀ e ∈ P.client.live, ∀ x, e.1 ≤ x → x < e.1 + e.2 →
    (k.mem.walk (k.space i).root x).isSome

section Use

variable {m₀ : Mem} {k : System} {G : Ghost} {P : Program} {i : Nat}

theorem sound_apart {base : Nat} {c : Libc.Client} {nodes : List Nat}
    (h : Libc.Sound base c nodes) :
    c.live.Pairwise fun e e' => e.1 + e.2 ≤ e'.1 ∨ e'.1 + e'.2 ≤ e.1 := by
  have hblocks := h.disjoint
  rw [List.map_append, List.pairwise_append] at hblocks
  have hlive := hblocks.2.1
  rw [Libc.Client.headers, List.map_map, List.pairwise_map] at hlive
  refine hlive.imp_of_mem fun {e e'} he he' hapart => ?_
  obtain ⟨hlow, hend⟩ := h.usable e he
  obtain ⟨hlow', hend'⟩ := h.usable e' he'
  simp only [Function.comp_apply, Libc.Heap.block_start] at hapart
  omega

/-- The blocks lie between the start and the end of the heap area. -/
theorem Backed.usable (h : Backed k i P) (hgood : Good m₀ k G) (hi : k.InUse i) :
    Usable k i P := by
  have hsound := (Libc.heap_sound h.base.1 (heapGrows_fresh h.base.2) h.history).1
  refine ⟨hsound, ?_, ?_⟩
  · obtain ⟨mem, hstart⟩ | ⟨nodes, hs⟩ := hsound
    · rw [hstart]
      exact List.Pairwise.nil
    · exact sound_apart hs
  · intro e he x hlo hhi
    obtain ⟨mem, hstart⟩ | ⟨nodes, hs⟩ := hsound
    · rw [hstart] at he
      exact absurd he List.not_mem_nil
    · obtain ⟨hlow, hend⟩ := hs.usable e he
      obtain ⟨r, hr, hin⟩ := hs.inside (e.1 - Libc.sizeofHeader)
        (List.mem_append_right _ (List.mem_map_of_mem he))
      have hrlow := h.low r hr
      have hrhigh := (Libc.heapGrows_spec P.client.heap.regions 0).2.2 r hr
      rw [← h.ends] at hrhigh
      have hv := hgood.valid i hi
      have hbrk := (hv.brk_le hgood.inv).2
      simp only [Extent.Within, Libc.Heap.block_start] at hin
      have hpage : x / 4096 < userPages := by
        simp only [heapStart, capacity, userPages] at *
        omega
      rw [hgood.inv.walk hv.root hpage]
      have hleaf := hv.heap_pages (x / 4096)
        (by simp only [heapPage, heapStart] at *; omega) (by omega)
      simpa [Option.isSome_iff_ne_none] using hleaf

end Use

/-- The heap of the C library is real memory. In every run of processes that fork, run
images, use their memory and call the library, the library's data is sound in every process,
its blocks are apart from each other, and each of their bytes is on a page of the process.
The next call that is permitted returns, and while there are frames the kernel gives it the
region that it counts on. -/
theorem library_heap_mapped (m₀ : Mem) (s : Machine)
    (h : Reachable Machine.step MachineStep (MachineStart m₀) s) :
    (∀ i, s.sys.InUse i → Usable s.sys i (s.program i)) ∧
    ∀ c, s.sys.inUser = true → Libc.Permitted s.cur.client c → ∃ N client,
      (∀ fuel ≥ N, s.cur.client.call Libc.heapGrows s.cur.base fuel c = some client) ∧
      ((∀ r ∈ newRegions s.cur.client.heap.regions client.heap.regions,
          Supplied (4 * mallocPages r.len) s.sys.mem) →
        ∀ fuel ≥ N, ∃ s', s.step (.library fuel c) = some s' ∧ s'.cur.client = client) := by
  obtain ⟨G, hgood, hall⟩ := Machine.backed h
  refine ⟨fun i hi => (hall i hi).usable hgood hi, fun c huser hp => ?_⟩
  have hcur : Backed s.sys s.sys.sched.r s.cur := hall _ (hgood.cur_inUse huser)
  have hfresh := heapGrows_fresh hcur.base.2
  obtain ⟨N, client, -, hN, -⟩ :=
    (Libc.heap_sound hcur.base.1 hfresh hcur.history).2 c hp
  refine ⟨N, client, hN, fun hs fuel hfuel => ?_⟩
  have hcall := hN fuel hfuel
  -- it is enough that the kernel has granted the new regions
  have hdone : ∀ k', (newRegions s.cur.client.heap.regions client.heap.regions).foldlM
      System.grant s.sys = some k' → k'.sched = s.sys.sched →
      ∃ s', s.step (.library fuel c) = some s' ∧ s'.cur.client = client := by
    intro k' hgrants hsched
    refine ⟨⟨k', Function.update s.program s.sys.sched.r { s.cur with client := client }⟩, ?_, ?_⟩
    · simp only [Machine.step, huser, if_true, hcall, hgrants, Option.bind_eq_bind,
        Option.bind_some]
    · unfold Machine.cur
      dsimp only
      rw [hsched, Function.update_self]
  obtain hsame | ⟨n, -, hnew⟩ := Libc.call_asks hcur.base.1 hfresh hcur.history hp hcall
  · refine hdone s.sys ?_ rfl
    rw [hsame, newRegions_self]
    rfl
  · rw [hnew, newRegions_cons] at hs hdone
    have hsupply : Supplied (4 * mallocPages (n : Int) + 0) s.sys.mem :=
      hs _ (List.mem_singleton.mpr rfl)
    obtain ⟨m', hrun⟩ := malloc_ok hgood.inv hgood.homed (hgood.cur_valid huser) hsupply
    have hstep : s.sys.step (.malloc n) = some { s.sys with mem := m' } := by
      simp only [System.step, huser, if_true, hrun, Option.map_some]
    obtain ⟨hgrant, -⟩ := hgood.granted hcur.ends hstep
    refine hdone { s.sys with mem := m' } ?_ rfl
    rw [List.foldlM_cons]
    change (s.sys.grant ⟨Libc.heapGrows s.cur.client.heap.regions 0, n⟩).bind _ = _
    rw [hgrant]
    rfl

/-- The shell forks and takes a block. -/
theorem library_heap_mapped_fork :
    ∃ s : Machine, s.sys.InUse 3 ∧ ((s.program 2).client.live.map Prod.snd) = [100] ∧
      Usable s.sys 2 (s.program 2) ∧ Usable s.sys 3 (s.program 3) ∧ ∃ N client, ∀ fuel ≥ N,
        s.cur.client.call Libc.heapGrows s.cur.base fuel (.malloc 20000) = some client := by
  have hrun : ((System.start smallMem emptyImage []).bind fun k =>
      Lib.exec Machine.step { sys := k, program := fun _ => .load 0x604000 }
        [.kernel (.sched (.sys .fork)), .library 9 (.malloc 100)]).any (fun s =>
          (s.sys.sched.q 2).state = .running ∧ (s.sys.sched.q 3).state = .running ∧
            s.sys.inUser = true ∧ (s.program 2).client.live.map Prod.snd = [100]) = true := by
    decide +kernel
  obtain ⟨s, hs, hp⟩ := (Option.any_eq_true _ _).mp hrun
  obtain ⟨k, hk, hs⟩ := Option.bind_eq_some_iff.mp hs
  obtain ⟨s₁, hfork, hs⟩ := Option.bind_eq_some_iff.mp hs
  obtain ⟨s₂, hcall, hs⟩ := Option.bind_eq_some_iff.mp hs
  obtain rfl := Option.some.inj hs
  obtain ⟨hrun₂, hrun₃, huser, hlive⟩ := of_decide_eq_true hp
  have hstart : Reachable Machine.step MachineStep (MachineStart smallMem)
      { sys := k, program := fun _ => .load 0x604000 } :=
    .start ⟨smallMem_boot, ⟨emptyImage, [], emptyImage_ok, by decide, hk⟩,
      fun _ => ⟨0x604000, by decide, by decide, rfl⟩⟩
  have hsafe : MachineStep { sys := k, program := fun _ => .load 0x604000 }
      (.kernel (.sched (.sys .fork))) := by
    refine ⟨⟨trivial, trivial⟩, ?_, ?_⟩ <;> simp
  have hfits : MachineStep s₁ (.library 9 (.malloc 100)) :=
    show Libc.Fits 100 from ⟨by decide, by decide⟩
  obtain ⟨husable, hnext⟩ :=
    library_heap_mapped smallMem s₂ ((hstart.next hsafe hfork).next hfits hcall)
  have huse₂ : s₂.sys.InUse 2 := ⟨by decide, by rw [hrun₂]; decide⟩
  have huse₃ : s₂.sys.InUse 3 := ⟨by decide, by rw [hrun₃]; decide⟩
  obtain ⟨N, client, hN, -⟩ := hnext (.malloc 20000) huser
    (show Libc.Fits 20000 from ⟨by decide, by decide⟩)
  exact ⟨s₂, huse₃, hlive, husable 2 huse₂, husable 3 huse₃, N, client, hN⟩

end X86Kernel.Kern
