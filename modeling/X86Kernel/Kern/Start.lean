import X86Kernel.Kern.Good
import X86Kernel.Paging.Boot

/-!
The machine when the first process starts: the memory that the kernel has set
up for itself, init and idle on the kernel's own tables, and one process made
by `create_process`.
-/

namespace X86Kernel.Kern

open Lib Paging Proc

open Classical in
/-- Before the first process, a frame is free or the kernel's. -/
noncomputable def bootRole (m : Mem) (f : Nat) : Role :=
  if OnFreeList m f then .free else .kernel

/-- Memory as `mem_map` and `init_ia32e_paging` leave it. The list of free
frames ends and has neither page 0 nor the kernel's PML4, and the linear map
covers it. -/
structure Boot (m : Mem) : Prop where
  ends : ∃ l, Chain (fun f => (m.page f).next) m.head l
  managed : ∀ f, OnFreeList m f →
    f < capacity ∧ (m.page f).address = f * 4096 ∧ (m.page f).free = true
  linear : Linear m (bootRole m)
  kpml4 : ¬ OnFreeList m m.kpml4
  zero : ¬ OnFreeList m 0

noncomputable def bootGhost (m : Mem) : Ghost where
  role := bootRole m
  tab := fun _ => none
  leaf := fun _ => none
  held := fun _ => 0

theorem bootRole_free {m : Mem} {f : Nat} : bootRole m f = .free ↔ OnFreeList m f := by
  unfold bootRole
  split_ifs with h <;> simp [h]

theorem bootRole_kernel {m : Mem} {f : Nat} : bootRole m f = .kernel ↔ ¬ OnFreeList m f := by
  unfold bootRole
  split_ifs with h <;> simp [h]

theorem bootRole_cases (m : Mem) (f : Nat) : bootRole m f = .free ∨ bootRole m f = .kernel := by
  unfold bootRole
  split_ifs <;> simp

theorem Boot.inv {m : Mem} (h : Boot m) : Inv m (bootGhost m) := by
  have hnot : ∀ f, bootRole m f ≠ .kernel → OnFreeList m f := by
    intro f hf
    by_contra hcon
    exact hf (bootRole_kernel.mpr hcon)
  obtain ⟨l, hchain⟩ := h.ends
  refine ⟨⟨⟨l, hchain, hchain.nodup, ?_⟩, ?_, ?_⟩, h.linear, ?_, ?_⟩
  · intro f
    change f ∈ l ↔ bootRole m f = .free
    rw [bootRole_free]
    exact (hchain.along_iff f).symm
  · intro f hf
    exact ⟨(h.managed f (hnot f hf)).1, (h.managed f (hnot f hf)).2.1⟩
  · intro f hf
    have hlist := hnot f hf
    exact ⟨fun _ => bootRole_free.mpr hlist, fun _ => (h.managed f hlist).2.2⟩
  · refine ⟨?_, ?_, ?_, ?_, ?_, ?_, ?_⟩
    · intro p l k t
      change none = some t ↔ bootRole m t = .table p l k
      obtain hf | hf := bootRole_cases m t <;> simp [hf]
    all_goals simp [bootGhost]
  · have hrole : ∀ f, (bootGhost m).role f ≠ .data ∧
        (∀ p l k, (bootGhost m).role f ≠ .table p l k) ∧ ∀ p, (bootGhost m).role f ≠ .vma p := by
      intro f
      change bootRole m f ≠ .data ∧ (∀ p l k, bootRole m f ≠ .table p l k) ∧
        ∀ p, bootRole m f ≠ .vma p
      obtain hf | hf := bootRole_cases m f <;> simp [hf]
    refine ⟨?_, ?_, ?_, ?_, ?_, ?_, ?_, ?_, ?_⟩
    · simp [bootGhost]
    · unfold FiniteRefs
      simp [Ghost.mapped, bootGhost]
    · intro f hf
      exact absurd hf (hrole f).1
    · intro f hf
      exact absurd hf (hrole f).1
    · simp [bootGhost]
    · intro f p l k hf
      exact absurd hf ((hrole f).2.1 p l k)
    · intro f p hf
      exact absurd hf ((hrole f).2.2 p)
    · intro f _
      rfl
    · simp [bootGhost]

theorem Boot.homed {m : Mem} (_ : Boot m) : Homed (bootGhost m) := by
  intro f p hf
  have hf' : bootRole m f = .vma p := hf
  obtain hcon | hcon := bootRole_cases m f <;> simp [hcon] at hf'

/-- `init_ia32e_paging` leaves such a memory, when the last page table of the linear
map has room for the pages behind it. -/
theorem initIa32ePaging_boot {m : Mem} {l : List Nat} {n : Nat} (hs : Stock m l)
    (hbelow : ∀ f ∈ l, f < n) (hzero : 0 ∉ l) (hcap : n ≤ capacity)
    (henough : 4 + (n + 511) / 512 ≤ l.length) (hroom : 1 ≤ n % 512 ∧ n % 512 ≤ 507) :
    ∃ P m', m.initIa32ePaging 0 (4096 * n) = some (P, m') ∧ Boot m' := by
  simp only [capacity] at hcap
  obtain ⟨p4, p3, p2, p1, ts, rfl⟩ := frames_of_length henough
  simp only [List.length_cons] at henough
  obtain ⟨m', t, hrun, hB⟩ := initIa32ePaging_built (n := n) hs (by omega) (by omega) (by omega)
  have hnodup := hs.nodup
  simp only [List.nodup_cons, List.mem_cons, not_or] at hnodup
  obtain ⟨⟨-, -, -, h4⟩, ⟨-, -, h3⟩, ⟨-, h2⟩, -, hts⟩ := hnodup
  have hchain : Chain (fun f => (m'.page f).next) m'.head (ts.drop ((n + 511) / 512)) :=
    hB.stock.list
  have hon : ∀ f, OnFreeList m' f ↔ f ∈ ts.drop ((n + 511) / 512) := hchain.along_iff
  have hin : ∀ {f}, OnFreeList m' f → f ∈ ts := fun hf => List.mem_of_mem_drop ((hon _).mp hf)
  have hlt : ∀ {f}, f ∈ ts → f < n := fun hf => hbelow _ (by simp [hf])
  have hkernel : ∀ {f}, f ∉ ts → bootRole m' f = .kernel :=
    fun hf => bootRole_kernel.mpr (mt hin hf)
  refine ⟨_, m', hrun, ⟨_, hB.stock.list⟩, ?_, ?_, ?_, ?_⟩
  · intro f hf
    have hf' := (hon f).mp hf
    have := hlt (hin hf)
    exact ⟨by simp only [capacity]; omega, hB.stock.address f hf', hB.stock.free f hf'⟩
  · intro f hf
    have hfree : f ∈ ts := by
      by_contra hcon
      exact hf (hkernel hcon)
    have hfn := hlt hfree
    obtain ⟨u, hu, hdir, hpage⟩ := hB.table f hfn
    -- the tables that hang in the directory are no longer on the list
    have hused : bootRole m' u = .kernel := by
      refine bootRole_kernel.mpr (fun hcon => ?_)
      obtain ⟨i, hi⟩ := List.mem_iff_getElem?.mp ((hon u).mp hcon)
      rw [List.getElem?_drop] at hi
      exact tables_ne hts hi hu (by omega) rfl
    have hflags : (3 : Word) &&& pageMask = 0 := by decide
    have hpresent : present (3 : Word) = true := by decide
    have b3 := hbelow p3 (by simp)
    have b2 := hbelow p2 (by simp)
    have bu := hlt (List.mem_of_getElem? hu)
    rw [Nat.mul_comm f 4096]
    simp only [idx_page_pml4 (show f < 262144 by omega), idx_page_pdpt (show f < 262144 by omega),
      idx_page_pd (show f < 262144 by omega), idx_page_pt, hB.kpml4, hB.top,
      frameOf_entry hflags (show p3 < 2 ^ 52 by omega), hB.middle,
      frameOf_entry hflags (show p2 < 2 ^ 52 by omega), hdir,
      frameOf_entry hflags (show u < 2 ^ 52 by omega), present_entry, hpresent, hkernel h4,
      hkernel h3, hkernel h2, hused, true_and]
    rw [hpage (fun _ c hc hc4 => by omega), Nat.mul_comm]
  · rw [hB.kpml4]
    exact fun hcon => h4 (hin hcon)
  · intro hcon
    exact hzero (by simp [hin hcon])

/-- `pml4e` and `vm` of every slot: init and idle have the kernel's PML4, slots
never used have zeros. -/
def bootSpace (m₀ : Mem) (sp : Space) (i : Nat) : Space :=
  if i < 2 then { pml4e := m₀.kpml4 * 4096, vm := 0 }
  else if i = 2 then sp
  else { pml4e := 0, vm := 0 }

/-- The machine as `create_process` enters its first process. -/
def System.start (m₀ : Mem) (img : Image) (name : List Byte) : Option System :=
  (createProcess m₀ img name).map fun r =>
    { sched := Proc.boot, space := bootSpace m₀ r.1, mem := r.2, hung := fun _ => false }

theorem boot_inUse {k : System} (h : k.sched = Proc.boot) (i : Nat) : k.InUse i ↔ i = 2 := by
  unfold System.InUse
  rw [h]
  simp only [Proc.boot, bootTable]
  split_ifs with hi
  · simp only [ne_eq, reduceCtorEq, not_false_eq_true, and_true]
    omega
  · simp only [ne_eq, not_true_eq_false, and_false, false_iff]
    omega

/-- What `create_process` adds to a kernel that has booted. -/
theorem Boot.start {m₀ : Mem} {img : Image} {name : List Byte} {k : System} (h : Boot m₀)
    (hok : img.Ok) (hname : name.length < 50) (hrun : System.start m₀ img name = some k) :
    ∃ G, Good m₀ k G ∧ k.sched = Proc.boot ∧ Loaded (k.space 2).root img m₀ (bootGhost m₀) k.mem G ∧
      brk k.mem (k.space 2) = heapStart := by
  obtain ⟨⟨sp, m⟩, hcreate, rfl⟩ := Option.map_eq_some_iff.mp hrun
  obtain ⟨G, hfree, hL, hv, hbrk, -⟩ := createProcess_spec h.inv h.homed hok hname hcreate
  refine ⟨G, ?_, rfl, hL, hbrk⟩
  refine ⟨Awake.boot, hL.inv, hL.homed, ?_, ?_, ?_, ?_, hL.frame.kpml4⟩
  · intro i hi
    obtain rfl := (boot_inUse rfl i).mp hi
    exact hv
  · intro i j hi hj _
    rw [(boot_inUse rfl i).mp hi, (boot_inUse rfl j).mp hj]
  · intro f
    rw [hL.frame.kernel f]
    exact bootRole_kernel
  · intro f hf
    exact hL.frame.kword f ((hL.frame.kernel f).mp hf)

/-- A small machine: frames 8 to 47 are free, frames 1 to 4 hold the linear map
of the first 512 frames. -/
def smallMem : Mem where
  word f i :=
    if f = 1 then if i = 511 then entry 8192 3 else 0
    else if f = 2 then if i = 510 then entry 12288 3 else 0
    else if f = 3 then if i = 0 then entry 16384 3 else 0
    else if f = 4 then entry (i * 4096) 3
    else 0
  page f :=
    { address := f * 4096, free := decide (8 ≤ f ∧ f < 48), refCount := 0,
      next := if f + 1 < 48 then some (f + 1) else none }
  head := some 8
  kpml4 := 1

theorem smallMem_chain (n : Nat) (hn : n < 40) :
    Chain (fun f => (smallMem.page f).next) (some (47 - n)) (List.range' (47 - n) (n + 1)) := by
  induction n with
  | zero => exact .cons .nil
  | succ n ih =>
      have hnext : (smallMem.page (47 - (n + 1))).next = some (47 - n) := by
        have hidx : 47 - (n + 1) + 1 = 47 - n := by omega
        have hlt : 47 - n < 48 := by omega
        simp only [smallMem, hidx, if_pos hlt]
      have htail := ih (by omega)
      rw [← hnext] at htail
      have hcons : List.range' (47 - (n + 1)) (n + 1 + 1) =
          (47 - (n + 1)) :: List.range' (47 - n) (n + 1) := by
        rw [List.range'_succ, show 47 - (n + 1) + 1 = 47 - n by omega]
      rw [hcons]
      exact .cons htail

theorem smallMem_free (f : Nat) : OnFreeList smallMem f ↔ 8 ≤ f ∧ f < 48 := by
  have hchain := smallMem_chain 39 (by omega)
  refine (hchain.along_iff f).trans ?_
  rw [List.mem_range'_1]

/-- The small machine boots, whatever page 0 holds. -/
theorem smallMem_boot_zero (ws : Nat → Word) : Boot (smallMem.setFrame 0 ws) := by
  refine ⟨⟨_, smallMem_chain 39 (by omega)⟩, ?_, ?_, ?_, ?_⟩
  · intro f hf
    have hf := (smallMem_free f).mp hf
    refine ⟨by simp only [capacity]; omega, rfl, ?_⟩
    simpa [smallMem] using hf
  · intro f hf
    have hlt : 8 ≤ f ∧ f < 48 := by
      by_contra hcon
      exact hf (bootRole_kernel.mpr (mt (smallMem_free f).mp hcon))
    have hkernel : ∀ g, g < 8 → bootRole (smallMem.setFrame 0 ws) g = .kernel := by
      intro g hg
      refine bootRole_kernel.mpr (mt (smallMem_free g).mp ?_)
      omega
    have h39 : idx (kernBase + f * 4096) 39 = 511 := by
      simp only [idx, kernBase]
      omega
    have h30 : idx (kernBase + f * 4096) 30 = 510 := by
      simp only [idx, kernBase]
      omega
    have h21 : idx (kernBase + f * 4096) 21 = 0 := by
      simp only [idx, kernBase]
      omega
    have h12 : idx (kernBase + f * 4096) 12 = f := by
      simp only [idx, kernBase]
      omega
    have e4 : (smallMem.setFrame 0 ws).word (smallMem.setFrame 0 ws).kpml4 511 = entry 8192 3 := rfl
    have f4 : frameOf (entry 8192 3) = 2 := by decide
    have e3 : (smallMem.setFrame 0 ws).word 2 510 = entry 12288 3 := rfl
    have f3 : frameOf (entry 12288 3) = 3 := by decide
    have e2 : (smallMem.setFrame 0 ws).word 3 0 = entry 16384 3 := rfl
    have f2 : frameOf (entry 16384 3) = 4 := by decide
    simp only [h39, h30, h21, h12, e4, f4, e3, f3, e2, f2]
    exact ⟨by decide, by decide, by decide, hkernel 1 (by omega), hkernel 2 (by omega),
      hkernel 3 (by omega), hkernel 4 (by omega), rfl⟩
  · exact mt (smallMem_free 1).mp (by decide)
  · exact mt (smallMem_free 0).mp (by decide)

theorem smallMem_boot : Boot smallMem := by
  have hboot := smallMem_boot_zero (smallMem.word 0)
  rwa [Mem.setFrame_self] at hboot

def emptyImage : Image := { phdrs := [], data := fun _ => 0 }

theorem emptyImage_ok : emptyImage.Ok := by
  intro ep hep
  simp [emptyImage] at hep

theorem emptyImage_apart : emptyImage.Apart := by
  refine ⟨List.Pairwise.nil, ?_⟩
  intro ep hep
  simp [emptyImage] at hep

end X86Kernel.Kern
