import X86Kernel.Paging.Regions
import X86Kernel.Kern.Isolation

/-!
How the kernel comes up (`main.c`). `start` looks for the memory map among the
modules of the boot loader, lists the free frames, builds the tables of the kernel
and the process table, and enters the first process. What it leaves is where all
runs of the system begin.
-/

namespace X86Kernel.Kern.Main

open Lib Paging Proc

/-- The words behind the pointer that the boot loader hands over. -/
abbrev Words := Nat → UInt32

/-- `while(modulep[0] != 0x9001) modulep += modulep[1]+2;`, at most `n` times. -/
def findModule (w : Words) : Nat → Nat → Option Nat
  | 0, _ => none
  | n + 1, modulep =>
      if w modulep = 0x9001 then some modulep
      else findModule w n (modulep + (w (modulep + 1) + 2).toNat)

def quad (w : Words) (i : Nat) : Nat := (w i).toNat + 2 ^ 32 * (w (i + 1)).toNat

/-- The words of the `struct smap_t` with number `k`: it is packed, and has five. -/
def smapAt (modulep k : Nat) : Nat := modulep + 2 + 5 * k

/-- How many of them begin before `(char*)modulep+modulep[1]+2*4`. -/
def smapCount (w : Words) (modulep : Nat) : Nat := ((w (modulep + 1)).toNat + 19) / 20

def readSmap (w : Words) (at' : Nat) : Smap := { base := quad w at', length := quad w (at' + 2) }

/-- The body of the loop over the memory map. The second component is `max`. -/
def startRegion (w : Words) (modulep physfree : Nat) (s : Mem × Nat) (k : Nat) : Mem × Nat :=
  let smap := readSmap w (smapAt modulep k)
  if w (smapAt modulep k + 4) = 1 ∧ smap.length ≠ 0 then
    (memMap s.1 smap physfree, (smap.base + smap.length) % 2 ^ 64)
  else s

def initProc (q : Table) : Table := fun i =>
  if i < MAX then { q i with state := .ready, time := 0 } else q i

def enroll (q : Table) : Option (Nat × Table) := do
  let pid ← newPID q
  some (pid, q.modify pid fun t => { t with pid := pid, state := .running })

def initP (q : Table) : Option (Nat × Nat × Table) := do
  let (init, q) ← enroll q
  let (idle, q) ← enroll q
  some (init, idle, q)

def createSlot (q : Table) : Option (Nat × Table) := do
  let (pid, q) ← enroll q
  some (pid, q.modify pid fun t => { t with ppid := 0 })

/-- `q` before `init_proc`: all of it is zero, and `RUNNING` is the first state. -/
def zeroTable : Table := fun i =>
  { state := if i < MAX then .running else .ready, time := 0, pid := 0, ppid := 0, childCount := 0 }

/-- `start`, up to the first instruction of the first process, in whose image the file
is read. The search for the module takes at most `n` turns. -/
def start (w : Words) (n physfree : Nat) (word : Nat → Nat → Word) (img : Image)
    (name : List Byte) : Option System := do
  let modulep ← findModule w n 0
  let (m, max) := (List.range (smapCount w modulep)).foldl (startRegion w modulep physfree)
    (blankMem word, 0)
  let (_, m) ← m.initIa32ePaging 0 max
  let kernel : Space := { pml4e := m.kpml4 * 4096, vm := 0 }
  let (init, idle, q) ← initP (initProc zeroTable)
  let (pid, q) ← createSlot q
  let (sp, m) ← createProcess m img name
  some
    { sched := { Proc.boot with q := q, r := pid }
      space := fun i =>
        if i = init ∨ i = idle then kernel else if i = pid then sp else { pml4e := 0, vm := 0 }
      mem := m
      hung := fun _ => false }

section Regions

variable {w : Words} {modulep physfree n : Nat}

/-- Those of the first `n` regions that `start` gives to `mem_map`. -/
def regionsUpTo (w : Words) (modulep n : Nat) : List Smap :=
  ((List.range n).filter fun k =>
    w (smapAt modulep k + 4) = 1 ∧ (readSmap w (smapAt modulep k)).length ≠ 0).map fun k =>
      readSmap w (smapAt modulep k)

def regions (w : Words) (modulep : Nat) : List Smap := regionsUpTo w modulep (smapCount w modulep)

def lastEnd (regs : List Smap) : Nat := (regs.getLast?.map fun sm => sm.base + sm.length).getD 0

theorem lastEnd_concat (regs : List Smap) (sm : Smap) :
    lastEnd (regs ++ [sm]) = sm.base + sm.length := by
  simp [lastEnd]

theorem regionsUpTo_succ (n : Nat) :
    regionsUpTo w modulep (n + 1) = regionsUpTo w modulep n ++
      if w (smapAt modulep n + 4) = 1 ∧ (readSmap w (smapAt modulep n)).length ≠ 0 then
        [readSmap w (smapAt modulep n)] else [] := by
  unfold regionsUpTo
  rw [List.range_succ, List.filter_append, List.map_append]
  split_ifs with hk <;> simp [hk]

/-- The loop calls `mem_map` on the regions one after the other, and `max` is the end of
the last one. -/
theorem startRegions_eq (m : Mem)
    (hfit : ∀ sm ∈ regionsUpTo w modulep n, sm.base + sm.length < 2 ^ 64) :
    (List.range n).foldl (startRegion w modulep physfree) (m, 0) =
      (memMaps m (regionsUpTo w modulep n) physfree, lastEnd (regionsUpTo w modulep n)) := by
  induction n with
  | zero => rfl
  | succ n ih =>
      rw [regionsUpTo_succ] at hfit ⊢
      rw [List.range_succ, List.foldl_append, ih fun sm hsm => hfit sm (List.mem_append_left _ hsm),
        List.foldl_cons, List.foldl_nil, startRegion]
      split_ifs with hk
      · have hsm := hfit (readSmap w (smapAt modulep n)) (by simp [hk])
        simpa [memMaps, lastEnd] using hsm
      · rw [List.append_nil]

end Regions

/-- What a turn of the loop in `mem_map` does to the address and the flag of a frame. -/
theorem memMapPage_page (pf limit : Nat) (st : Mem × Option Nat) (ptr f : Nat) :
    ((memMapPage pf limit st ptr).1.page f).address =
      (if f = ptr / 4096 then ptr else (st.1.page f).address) ∧
    ((memMapPage pf limit st ptr).1.page f).free =
      if f = ptr / 4096 then decide (pf < ptr ∧ ptr + 4096 < limit) else (st.1.page f).free := by
  obtain ⟨⟨word, page, head, kpml4⟩, last⟩ := st
  simp only [memMapPage]
  by_cases hfit : pf < ptr ∧ ptr + 4096 < limit
  · simp only [if_pos hfit, decide_eq_true hfit]
    cases head with
    | none => by_cases hf : f = ptr / 4096 <;> simp [Mem.setPage, hf]
    | some b₀ =>
        cases last with
        | none => by_cases hf : f = ptr / 4096 <;> simp [Mem.setPage, hf]
        | some b =>
            by_cases hf : f = ptr / 4096 <;> by_cases hb : f = b <;>
              simp_all [Mem.setPage, Function.update_apply]
  · simp only [if_neg hfit, decide_eq_false hfit]
    by_cases hf : f = ptr / 4096 <;> simp [Mem.setPage, hf]

section Stock

variable {sm : Smap} {regs : List Smap} {physfree f : Nat}

/-- The frames that the first `k` turns have put on the list are free, at their address. -/
def Offered (physfree : Nat) (sm : Smap) (k : Nat) (st : Mem × Option Nat) : Prop :=
  ∀ f ∈ usableUpTo physfree sm k, (st.1.page f).address = f * 4096 ∧ (st.1.page f).free = true

theorem Offered.step {k : Nat} {st : Mem × Option Nat} (hbase : 4096 ∣ sm.base)
    (h : Offered physfree sm k st) :
    Offered physfree sm (k + 1) (memMapPage (physfree + sizeofPagelist) (sm.base + sm.length) st
      (sm.base + k * 4096)) := by
  intro f hf
  obtain ⟨⟨hlo, hhi⟩, hfit⟩ := mem_usableUpTo.mp hf
  obtain ⟨haddr, hfree⟩ := memMapPage_page (physfree + sizeofPagelist) (sm.base + sm.length) st
    (sm.base + k * 4096) f
  have hdiv : (sm.base + k * 4096) / 4096 = sm.base / 4096 + k := by omega
  rw [haddr, hfree, hdiv]
  by_cases hfk : f = sm.base / 4096 + k
  · have hptr : sm.base + k * 4096 = f * 4096 := by omega
    rw [if_pos hfk, if_pos hfk, hptr]
    exact ⟨rfl, decide_eq_true hfit⟩
  · rw [if_neg hfk, if_neg hfk]
    exact h f (mem_usableUpTo.mpr ⟨⟨hlo, by omega⟩, hfit⟩)

/-- The usable frames of a region have their address, and are free. -/
theorem memMap_usable (m : Mem) (hbase : 4096 ∣ sm.base) (hf : f ∈ usable physfree sm) :
    ((memMap m sm physfree).page f).address = f * 4096 ∧
      ((memMap m sm physfree).page f).free = true := by
  have hloop : Offered physfree sm ((sm.length + 4095) / 4096)
      ((List.range ((sm.length + 4095) / 4096)).foldl (fun st k =>
        memMapPage (physfree + sizeofPagelist) (sm.base + sm.length) st (sm.base + k * 4096))
        (m, none)) :=
    foldl_range_invariant (by simp [Offered, usableUpTo]) fun k st _ h => h.step hbase
  exact hloop f hf

/-- Pages outside the regions are left alone. -/
theorem memMaps_other (h : MemoryMap regs) (m : Mem) (hf : ∀ sm ∈ regs, ¬ sm.Page f) :
    (memMaps m regs physfree).page f = m.page f := by
  induction regs generalizing m with
  | nil => rfl
  | cons s regs ih =>
      obtain ⟨last, hlaid⟩ := memMap_laid m physfree (h.base s (by simp))
      have hs := hf s (by simp)
      rw [page_iff (h.base s (by simp)) (h.length s (by simp)).1] at hs
      rw [← hlaid.other f (by omega)]
      exact ih h.tail _ fun sm hsm => hf sm (by simp [hsm])

theorem memMaps_usable (h : MemoryMap regs) (m : Mem) (hsm : sm ∈ regs)
    (hf : f ∈ usable physfree sm) :
    ((memMaps m regs physfree).page f).address = f * 4096 ∧
      ((memMaps m regs physfree).page f).free = true := by
  induction regs generalizing m with
  | nil => simp at hsm
  | cons s regs ih =>
      obtain rfl | hin := List.mem_cons.mp hsm
      · -- the later calls are about other pages
        have hpage := ((h.mem_usable (by simp)).mp hf).1
        have hkeep := @memMaps_other _ physfree _ h.tail (memMap m sm physfree)
          fun s hs => h.not_page hpage hs
        rw [memMaps, List.foldl_cons]
        rw [memMaps] at hkeep
        rw [hkeep]
        exact memMap_usable m (h.base sm (by simp)) hf
      · exact ih h.tail _ hin

/-- `mem_map` on all regions leaves the frames of the first usable one. -/
theorem memMaps_stock (h : MemoryMap regs) (word : Nat → Nat → Word) :
    Stock (memMaps (blankMem word) regs physfree) (firstUsable physfree regs) := by
  have hlist := (@memMaps_spec _ physfree h (blankMem word) [] .nil (by simp)).1
  rw [if_pos rfl] at hlist
  have hpage : ∀ f ∈ firstUsable physfree regs,
      ((memMaps (blankMem word) regs physfree).page f).address = f * 4096 ∧
        ((memMaps (blankMem word) regs physfree).page f).free = true := by
    intro f hf
    obtain ⟨sm, hsm, -, heq⟩ := firstUsable_mem (List.ne_nil_of_mem hf)
    rw [heq] at hf
    exact memMaps_usable h _ hsm hf
  exact ⟨hlist, fun f hf => (hpage f hf).1, fun f hf => (hpage f hf).2⟩

def Ascending (regs : List Smap) : Prop :=
  regs.Pairwise fun a b => a.base + a.length ≤ b.base

theorem Ascending.le_lastEnd (h : Ascending regs) (hsm : sm ∈ regs) :
    sm.base + sm.length ≤ lastEnd regs := by
  induction regs using List.reverseRecOn with
  | nil => simp at hsm
  | append_singleton regs last ih =>
      rw [lastEnd_concat]
      obtain ⟨-, -, hlast⟩ := List.pairwise_append.mp h
      obtain hin | hin := List.mem_append.mp hsm
      · have hle := hlast sm hin last (by simp)
        omega
      · rw [List.mem_singleton.mp hin]

/-- What is on the list lies below the end of the last region. -/
theorem firstUsable_lt (h : MemoryMap regs) (hasc : Ascending regs)
    (hf : f ∈ firstUsable physfree regs) : 0 < f ∧ f < lastEnd regs / 4096 := by
  obtain ⟨sm, hsm, -, heq⟩ := firstUsable_mem (List.ne_nil_of_mem hf)
  rw [heq, h.mem_usable hsm] at hf
  obtain ⟨-, hlo, hhi⟩ := hf
  have hle := hasc.le_lastEnd hsm
  omega

theorem lastEnd_dvd (h : MemoryMap regs) :
    4096 ∣ lastEnd regs ∧ lastEnd regs ≤ capacity * 4096 := by
  unfold lastEnd
  cases hlast : regs.getLast? with
  | none => simp
  | some sm =>
      have hsm := List.mem_of_getLast? hlast
      exact ⟨(h.base sm hsm).add (h.length sm hsm).1, h.fit sm hsm⟩

end Stock

section Table

variable {q : Table} {i : Nat}

theorem initProc_ready (q : Table) (hi : i < MAX) : (initProc q i).state = .ready := by
  simp [initProc, hi]

/-- `enroll` takes the first slot that is ready. -/
theorem enroll_eq (hi : i < MAX) (hready : (q i).state = .ready)
    (hbefore : ∀ j < i, (q j).state ≠ .ready) :
    enroll q = some (i, q.modify i fun t => { t with pid := i, state := .running }) := by
  have hpid : newPID q = some i := newPID_eq_some_iff.mpr ⟨hi, hready, hbefore⟩
  rw [enroll, hpid]
  rfl

/-- The table of the first process: `init_proc`, `init_p` and `create_process` leave
init in slot 0, idle in slot 1 and the first process in slot 2. -/
theorem tables_boot :
    ∃ q, initP (initProc zeroTable) = some (0, 1, q) ∧ createSlot q = some (2, bootTable) := by
  have hmax : MAX = 1100 := rfl
  set q₀ := initProc zeroTable with hq₀
  set q₁ := q₀.modify 0 fun t => { t with pid := 0, state := .running } with hq₁
  set q₂ := q₁.modify 1 fun t => { t with pid := 1, state := .running } with hq₂
  have hr₀ : ∀ i < MAX, (q₀ i).state = .ready := fun i hi => initProc_ready zeroTable hi
  have hr₁ : ∀ i < MAX, i ≠ 0 → (q₁ i).state = .ready := by
    intro i hi hne
    rw [hq₁, Table.modify_ne _ _ hne]
    exact hr₀ i hi
  have hr₂ : (q₂ 2).state = .ready := by
    rw [hq₂, Table.modify_ne _ _ (by decide)]
    exact hr₁ 2 (by omega) (by decide)
  have h₀ : (q₁ 0).state ≠ .ready := by simp [hq₁]
  have h₁ : (q₂ 1).state ≠ .ready := by simp [hq₂]
  have h₂ : (q₂ 0).state ≠ .ready := by
    rw [hq₂, Table.modify_ne _ _ (by decide)]
    exact h₀
  have e₀ : enroll q₀ = some (0, q₁) :=
    enroll_eq (by omega) (hr₀ 0 (by omega)) (by omega)
  have e₁ : enroll q₁ = some (1, q₂) :=
    enroll_eq (by omega) (hr₁ 1 (by omega) (by decide)) (by
      intro j hj
      obtain rfl : j = 0 := by omega
      exact h₀)
  have e₂ := enroll_eq (q := q₂) (i := 2) (by omega) hr₂ (by
    intro j hj
    obtain rfl | rfl : j = 0 ∨ j = 1 := by omega
    · exact h₂
    · exact h₁)
  refine ⟨q₂, ?_, ?_⟩
  · simp only [initP, e₀, e₁, Option.bind_eq_bind, Option.bind_some]
  · simp only [createSlot, e₂, Option.bind_eq_bind, Option.bind_some, Option.some.injEq,
      Prod.mk.injEq, true_and]
    funext i
    by_cases hi : i < MAX <;> by_cases i0 : i = 0 <;> by_cases i1 : i = 1 <;>
      by_cases i2 : i = 2 <;>
      simp_all [Table.modify, Function.update_apply, initProc, zeroTable, bootTable]
    all_goals omega

end Table

section Start

variable {w : Words} {n physfree modulep : Nat}

/-- `start` makes the first process on the memory that `mem_map` and
`init_ia32e_paging` leave. -/
theorem start_eq (word : Nat → Nat → Word)
    (hfind : findModule w n 0 = some modulep) (hmap : MemoryMap (regions w modulep))
    (hasc : Ascending (regions w modulep))
    (henough : 4 + (lastEnd (regions w modulep) / 4096 + 511) / 512 ≤
      (firstUsable physfree (regions w modulep)).length)
    (hroom : 1 ≤ lastEnd (regions w modulep) / 4096 % 512 ∧
      lastEnd (regions w modulep) / 4096 % 512 ≤ 507) :
    ∃ P m₀, (memMaps (blankMem word) (regions w modulep) physfree).initIa32ePaging 0
        (lastEnd (regions w modulep)) = some (P, m₀) ∧ Boot m₀ ∧
      ∀ img name, start w n physfree word img name = System.start m₀ img name := by
  obtain ⟨hdvd, hcap⟩ := lastEnd_dvd hmap
  have hcapacity : capacity = 75000 := rfl
  have hfit : ∀ sm ∈ regions w modulep, sm.base + sm.length < 2 ^ 64 := by
    intro sm hsm
    have hend := hmap.fit sm hsm
    omega
  obtain ⟨P, m₀, hinit, hboot⟩ := initIa32ePaging_boot
    (@memMaps_stock _ physfree hmap word)
    (fun f hf => (firstUsable_lt hmap hasc hf).2)
    (fun hf => absurd (firstUsable_lt hmap hasc hf).1 (by omega)) (by omega) henough hroom
  rw [Nat.mul_div_cancel' hdvd] at hinit
  refine ⟨P, m₀, hinit, hboot, fun img name => ?_⟩
  obtain ⟨q, hq, hslot⟩ := tables_boot
  simp only [start, hfind, Option.bind_eq_bind, Option.bind_some, startRegions_eq _ hfit]
  simp only [regions] at hinit
  simp only [hinit, Option.bind_some, hq, hslot, System.start]
  cases createProcess m₀ img name with
  | none => rfl
  | some r =>
      rw [Option.bind_some, Option.map_some, Option.some.injEq, System.mk.injEq]
      refine ⟨rfl, ?_, rfl, rfl⟩
      funext i
      have hkernel : i < 2 ↔ i = 0 ∨ i = 1 := by omega
      simp only [bootSpace, hkernel]

end Start

/-- The kernel comes up. When the memory map of the boot loader has aligned regions in
ascending order inside the 75000 pages of `pagelist`, the first usable one has the
frames for the kernel's tables, and the last table of the linear map is begun and has
room for four entries behind the end of memory (`hroom`), `start` is the first process on
a memory that has booted; so the invariants of the system hold in every state that safe
steps lead to from it. -/
theorem start_boots {w : Words} {n physfree modulep : Nat} (word : Nat → Nat → Word)
    (hfind : findModule w n 0 = some modulep) (hmap : MemoryMap (regions w modulep))
    (hasc : Ascending (regions w modulep))
    (henough : 4 + (lastEnd (regions w modulep) / 4096 + 511) / 512 ≤
      (firstUsable physfree (regions w modulep)).length)
    (hroom : 1 ≤ lastEnd (regions w modulep) / 4096 % 512 ∧
      lastEnd (regions w modulep) / 4096 % 512 ≤ 507) :
    ∃ m₀, Boot m₀ ∧
      (∀ img name, start w n physfree word img name = System.start m₀ img name) ∧
      ∀ k, Reachable System.step Safe (fun k => ∃ img name, img.Ok ∧ name.length < 50 ∧
        start w n physfree word img name = some k) k → ∃ G, Good m₀ k G := by
  obtain ⟨-, m₀, -, hboot, hstart⟩ := start_eq word hfind hmap hasc henough hroom
  refine ⟨m₀, hboot, hstart, fun k hk => ?_⟩
  have hfrom : Reachable System.step Safe (BootFrom m₀) k := by
    obtain ⟨s, es, ⟨img, name, hok, hname, hrun⟩, hsteps⟩ := hk
    rw [hstart] at hrun
    exact ⟨s, es, ⟨hboot, img, name, hok, hname, hrun⟩, hsteps⟩
  exact BootFrom.good hfrom

/-- The memory map of a machine with 600 frames behind another module, which has two
words. -/
def smallWords : Words := fun i =>
  [(1 : UInt32), 2, 0, 0, 0x9001, 20, 0, 0, 2457600, 0, 1].getD i 0

theorem regions_smallWords : regions smallWords 4 = [{ base := 0, length := 2457600 }] :=
  rfl

/-- The kernel comes up on this machine. -/
theorem start_boots_small :
    ∃ m₀, Boot m₀ ∧
      (∀ img name, start smallWords 2 0 (fun _ _ => 0) img name = System.start m₀ img name) ∧
      ∀ k, Reachable System.step Safe (fun k => ∃ img name, img.Ok ∧ name.length < 50 ∧
        start smallWords 2 0 (fun _ _ => 0) img name = some k) k → ∃ G, Good m₀ k G := by
  refine @start_boots smallWords 2 0 4 (fun _ _ => 0) (by decide) ?_ ?_ ?_ ?_ <;>
    rw [regions_smallWords]
  · exact ⟨by decide, by decide, by decide, by decide⟩
  · exact List.pairwise_singleton _ _
  · decide +kernel
  · decide

end X86Kernel.Kern.Main
