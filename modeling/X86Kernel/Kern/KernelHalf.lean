import X86Kernel.Paging.Top
import X86Kernel.Kern.Child
import X86Kernel.Kern.Isolation

/-!
The kernel's half of the address spaces over whole runs. Every operation on memory
leaves entry 511 of every PML4 alone or makes it the kernel's; a new process gets it
from the loader, a child from its parent. So the kernel is mapped in the same way
whoever runs.
-/

namespace X86Kernel.Kern

open Lib Paging Proc

section Call

variable {m m' : Mem} {G : Ghost} {sp : Space}

/-- The loop over the areas writes to nodes only. -/
theorem copyNodes_top {la : List Nat} {e : Nat} {c : Space} (h : Inv m G)
    (hL : Listed m G sp.root sp.vm la)
    (hrun : (if sp.vm = 0 then some ({ pml4e := e, vm := 0 }, m)
      else do
        let (w, m) ← kmalloc m vmaSize
        let m := copyNode m ((w - kernBase) / 4096) sp.vm
        let m ← copyAreas fuel m (vmNext m sp.vm) (BitVec.ofNat 64 w)
        some ({ pml4e := e, vm := BitVec.ofNat 64 w }, m)) = some (c, m'))
    {q : Nat} (hq : G.tab (q, 3, 0) = some q) : m'.word q = m.word q ∧ c.pml4e = e := by
  obtain ⟨s, hP, hs⟩ := hL.parent h
  obtain ⟨c', m₁, hrun', hspends⟩ | ⟨hnone, -⟩ := copyNodes_or (n := fuel) hP.stock hP.linear
    (fun f hf => (hP.kernel f hf).1) hP.lt hP.areas hP.nodes
    ((hP.areas.length_le fun f hf => hP.lt f (.inr hf)).trans (by decide)) hrun
  · obtain ⟨rfl, rfl⟩ : c' = c ∧ m₁ = m' := by simpa using hrun'.symm
    refine ⟨hspends.frame q (fun hcon => hcon) fun hcon => ?_, ?_⟩
    · have hfree := (hs q).mp (List.mem_of_mem_take hcon)
      simp [h.root_role hq] at hfree
    · split_ifs at hrun
      · obtain ⟨rfl, -⟩ := Prod.mk.inj (Option.some.inj hrun)
        rfl
      · obtain ⟨⟨w, m₂⟩, -, hrun⟩ := Option.bind_eq_some_iff.mp hrun
        obtain ⟨m₃, -, hrun⟩ := Option.bind_eq_some_iff.mp hrun
        obtain ⟨rfl, -⟩ := Prod.mk.inj (Option.some.inj hrun)
        rfl
  · simp at hnone

/-- The child's entry is the parent's, and nobody's changes. -/
theorem copytask_top {c : Space} (h : Inv m G) (hv : Valid m G sp)
    (hrun : copytask m sp = some (c, m')) :
    KeepsTop G m m' ∧ m'.word c.root 511 = m.word sp.root 511 := by
  obtain ⟨la, hL⟩ : ∃ la, Listed m G sp.root sp.vm la := by
    obtain ⟨s, t, rest, hL⟩ := hv.areas
    exact ⟨_, hL⟩
  obtain ⟨⟨v, m₁⟩, halloc, hrun⟩ := Option.bind_eq_some_iff.mp hrun
  obtain ⟨c₀, G₂, hfree, rfl, h₂, hleaf₂, hheld₂, htab₂, hnoleaf, hnotab, hrole₂, hword₂, hkp₁⟩ :=
    newRoot h halloc
  have hidx := frame_div c₀
  simp only [kptr_sub, hidx] at hrun
  obtain ⟨m₃, hcopy, hrun⟩ := Option.bind_eq_some_iff.mp hrun
  have hold : ∀ q, G.tab (q, 3, 0) = some q → q ≠ c₀ := by
    rintro q hq rfl
    simp [h.root_role hq] at hfree
  have hL₂ := hL.frame (newRoot_frame h hfree hleaf₂ htab₂ hrole₂ hword₂ hkp₁) (hold _ hL.root)
  have hc₂ : G₂.tab (c₀, 3, 0) = some c₀ := by rw [htab₂, Function.update_self]
  have hold₂ : ∀ q, G.tab (q, 3, 0) = some q → G₂.tab (q, 3, 0) = some q := by
    intro q hq
    rw [htab₂, Function.update_of_ne fun hcon => hold q hq (congrArg Prod.fst hcon), hq]
  -- no table of the parent is the new PML4
  obtain ⟨s, hP, hs⟩ := hL₂.parent h₂
  have htable : ∀ q, q ≠ sp.root → G₂.tab (q, 3, 0) = some q →
      ¬ pageTables.Table (m₁.memset0 c₀).word 3 sp.root q := by
    intro q hne hq hcon
    obtain ⟨l, k, -, -, ht⟩ := h₂.table_tab hL₂.root hcon
    have hrole := (h₂.trees.role _ _ _ _).mp ht
    rw [h₂.root_role hq] at hrole
    exact hne (by simpa using hrole : q = sp.root ∧ _).1
  have hnotfree : ∀ q, G₂.tab (q, 3, 0) = some q → q ∉ s := by
    intro q hq hcon
    have hrole := (hs q).mp hcon
    simp [h₂.root_role hq] at hrole
  have hne : sp.root ≠ c₀ := hold _ hL.root
  have hshar : Sharable (m₁.memset0 c₀) G₂.role 3 sp.root c₀ s := by
    refine ⟨hP.sound, hP.stock, fun f hf => hP.lt f (.inl hf), fun f hf => hP.tables f (.inl hf),
      htable _ hne.symm hc₂, hnotfree _ hc₂, fun i _ => by simp, hP.leaf, hP.linear, ?_⟩
    intro f hf
    refine ⟨(hP.kernel f hf).1, ?_, (hP.kernel f hf).2⟩
    rintro rfl
    simp [h₂.root_role hc₂] at hf
  have hS := (copytables_spec hshar).2 m₃ hcopy
  obtain ⟨hpastc, hpastp⟩ := hS.past 511 (by decide)
  rw [Mem.set_word_self] at hpastc
  rw [Mem.set_word_of_ne _ _ hne, hword₂ _ hne] at hpastp
  rw [hword₂ _ hne] at hpastc
  obtain ⟨G₃, h₃, hg₃, -⟩ := h₂.copytables hne hL₂.root hc₂ (fun n => by rw [hleaf₂, hnoleaf])
    (fun k => by rw [htab₂, Function.update_of_ne (by simp), hnotab]) hcopy
  have hE₃ := hg₃.extends fun _ => False
  have hL₃ := hL₂.extends h₂ h₃ hE₃ fun _ hx => hx.elim
  have hroot₃ : ∀ q, G₂.tab (q, 3, 0) = some q → G₃.tab (q, 3, 0) = some q :=
    fun q hq => by rw [hE₃.root h₂ h₃, hq]
  obtain ⟨hlastc, hpml⟩ := copyNodes_top h₃ hL₃ hrun (hroot₃ _ hc₂)
  have hcroot : c.root = c₀ := by
    unfold Space.root
    rw [hpml, frame_div]
  refine ⟨fun q hq => Or.inl ?_, ?_⟩
  · rw [(copyNodes_top h₃ hL₃ hrun (hroot₃ _ (hold₂ q hq))).1]
    by_cases hqp : q = sp.root
    · rw [hqp, hpastp]
    · rw [hS.frame q (hold q hq) (fun hcon => hnotfree q (hold₂ q hq) (List.mem_of_mem_take hcon)),
        Mem.set_word_of_ne _ _ (hold q hq), hword₂ _ (hold q hq)]
      have hagree := hshar.agree_set 511 ((m₁.memset0 c₀).word sp.root 511)
      rw [hagree.table]
      exact htable q hqp (hold₂ q hq)
  · rw [hcroot, hlastc, hpastc]

/-- `removeProcess` gives the tables back, and writes to no other PML4. -/
theorem removeProcess_top (h : Inv m G) (hv : Valid m G sp)
    (hrun : removeProcess m sp = some m') : KeepsTop G m m' := by
  obtain ⟨s, t, rest, hL⟩ := hv.areas
  obtain ⟨m₁, G₁, hrun₁, h₁, hw₁, hkp₁, htab₁, -⟩ :=
    freeAreas_spec (n := fuel) (p := sp.root) h hL.areas (fun f hf => (hL.nodes f).mp hf)
      (hL.nodup h) (by
        have hlen := hL.length_le h
        simp only [capacity, fuel] at *
        omega)
  unfold removeProcess at hrun
  rw [hrun₁, Option.bind_eq_bind, Option.bind_some, Option.some.injEq] at hrun
  have hs : Steady m G m₁ G₁ :=
    ⟨fun q hq => by rw [htab₁, hq], kernelEntry_eq hkp₁ (by rw [hw₁])⟩
  refine KeepsTop.trans (.of_word fun q _ => by rw [hw₁]) hs ?_
  intro q hq
  rw [← hrun, Mem.free_word]
  exact h₁.dealloc_top (hs.root _ hv.root) q hq

end Call

def SharesKernel (m₀ : Mem) (k : System) : Prop :=
  ∀ i, k.InUse i → k.mem.word (k.space i).root 511 = m₀.kernelEntry

section Run

variable {m₀ : Mem} {k k' : System} {G G' : Ghost}

theorem Good.kernelEntry (h : Good m₀ k G) {i : Nat} (hi : k.InUse i) :
    k.mem.kernelEntry = m₀.kernelEntry := by
  have hkernel := h.inv.kpml4_kernel (h.valid i hi).root
  refine kernelEntry_eq h.kpml4 ?_
  rw [← h.kpml4, h.kword _ hkernel]

/-- What keeps the entries keeps them the kernel's. -/
theorem SharesKernel.keep (hk : SharesKernel m₀ k) (h : Good m₀ k G)
    (htop : KeepsTop G k.mem k'.mem) {i : Nat} (hi : k.InUse i)
    (hroot : (k'.space i).root = (k.space i).root) :
    k'.mem.word (k'.space i).root 511 = m₀.kernelEntry := by
  rw [hroot]
  obtain hsame | hkernel := htop _ (h.valid i hi).root
  · rw [hsame, hk i hi]
  · rw [hkernel, h.kernelEntry hi]

theorem SharesKernel.step (hk : SharesKernel m₀ k) (h : Good m₀ k G) {act : Action}
    (hok : Safe k act) (hstep : k.step act = some k') : SharesKernel m₀ k' := by
  have hquiet : ∀ {e : Proc.Event} {s : Sched}, KillsExisting k.sched e → e ≠ .sys .fork →
      reaps k.sched e = none → k.sched.step e = some s →
      ∀ i, ({ k with sched := s } : System).InUse i → k.InUse i :=
    fun hkill hfork hreap hs i hi => (h.inUse_quiet hkill hfork hreap hs i).mp hi
  cases step_moves hstep with
  | @fork s c m huser hs hcopy =>
      obtain ⟨htop, hchild⟩ := copytask_top h.inv (h.cur_valid huser) hcopy
      intro i hi
      have hold := (forked_inUse i).mp hi
      rw [h.inUse_step (e := .sys .fork) trivial hs] at hold
      by_cases hn : newPID k.sched.q = some i
      · rw [forked_space, if_pos hn, forked_mem, hchild]
        exact hk _ (h.cur_inUse huser)
      · have huse : k.InUse i := hold.1.resolve_right fun hcon => hn hcon.2
        refine hk.keep h (by rwa [forked_mem]) huse ?_
        rw [forked_space, if_neg hn]
  | @reap e s i m hfork hs hreap hrun =>
      intro j hj
      have hi : k.InUse i := ⟨(h.awake.reaps_ne hreap).1, by
        rw [(reaps_zombie hreap).2]
        decide⟩
      have hold := h.inUse_step hok.2 hs j
      rw [forks_eq_none hfork] at hold
      have huse : k.InUse j := by
        have huse := (hold.mp hj).1
        simpa using huse
      exact hk.keep h (removeProcess_top h.inv (h.valid i hi) hrun) huse rfl
  | quiet hfork hs hreap =>
      exact fun i hi => hk i (hquiet hok.2 hfork hreap hs i hi)
  | exec huser hrun =>
      obtain ⟨G', hroot, -, hloaded, -⟩ :=
        execvpe_spec h.inv h.homed (h.cur_valid huser) hok.1 hok.2 hrun
      intro i hi
      refine hk.keep h hloaded.kernel.keeps hi ?_
      by_cases hir : i = k.sched.r
      · subst hir
        simpa [System.cur] using hroot
      · simp [Function.update_of_ne hir]
  | malloc huser hrun =>
      obtain ⟨G', hB, -⟩ := malloc_spec h.inv h.homed (h.cur_valid huser) hrun
      exact fun i hi => hk.keep h hB.kernel.keeps hi rfl
  | write huser hrun =>
      obtain ⟨hpage, hpte⟩ := h.resolves huser hok
      obtain ⟨G', hB, -⟩ := write_spec h.inv h.homed (h.cur_valid huser) hpage hpte hrun
      exact fun i hi => hk.keep h hB.kernel.keeps hi rfl
  | read huser hrun =>
      obtain ⟨hpage, hpte⟩ := h.resolves huser hok
      obtain ⟨G', hB, -⟩ := read_spec h.inv h.homed (h.cur_valid huser) hpage hpte hrun
      exact fun i hi => hk.keep h hB.kernel.keeps hi rfl
  | segv huser hact hs =>
      exact fun i hi => hk i (hquiet (e := .sys .exit) trivial (by simp) rfl hs i hi)
  | stuck huser hact => exact fun i hi => hk i hi

theorem BootFrom.sharesKernel (h : Reachable System.step Safe (BootFrom m₀) k) :
    ∃ G, Good m₀ k G ∧ SharesKernel m₀ k := by
  refine BootFrom.invariant h ?_ fun k act k' G hgood hok hstep hk => hk.step hgood hok hstep
  intro img name sp m hboot hok hname hcreate i hi
  obtain rfl := (boot_inUse rfl i).mp hi
  obtain ⟨G, -, hloaded, -⟩ := createProcess_spec hboot.inv hboot.homed hok hname hcreate
  exact hloaded.entry

end Run

/-- The kernel's entry leads where entry 511 of the kernel's PML4 leads. -/
theorem frameOf_kernelEntry (m : Mem) :
    frameOf m.kernelEntry = frameOf (m.word m.kpml4 511) := by
  have hlt : addrOf (m.word m.kpml4 511) < 2 ^ 64 := BitVec.isLt _
  have hdvd : 4096 ∣ addrOf (m.word m.kpml4 511) := by
    unfold addrOf
    rw [toNat_and_pageMask]
    exact Dvd.intro_left _ rfl
  unfold frameOf Mem.kernelEntry
  rw [addrOf_entry (by decide) hlt hdvd]

/-- With the kernel's entry a space shows in its kernel's half what the kernel's own
tables show. -/
theorem walk_kernelEntry {m : Mem} {p v : Nat} (hp : m.word p 511 = m.kernelEntry)
    (hpresent : present (m.word m.kpml4 511) = true) (hv : idx v 39 = 511) :
    m.walk p v = m.walk m.kpml4 v := by
  have hkernel : present m.kernelEntry = true := by
    unfold Mem.kernelEntry
    rw [present_entry]
    decide
  unfold Mem.walk
  dsimp only
  rw [hv, hp, if_pos hkernel, if_pos hpresent, frameOf_kernelEntry]

/-- The kernel is in every address space: in every state that safe steps lead to from a
booted kernel, the tables of every process show in the kernel's half what the kernel's own
tables show there, and the linear map of every frame that was free at boot is part of
it. So `yield`, `exec` and the loader may load `cr3` with the PML4 of any process. -/
theorem kernel_in_every_space (m₀ : Mem) (k : System)
    (h : Reachable System.step Safe (BootFrom m₀) k) (i : Nat) (hi : k.InUse i) :
    (∀ v, idx v 39 = 511 → k.mem.walk (k.space i).root v = k.mem.walk m₀.kpml4 v) ∧
    ∀ f, OnFreeList m₀ f →
      k.mem.walk (k.space i).root (kernBase + f * 4096) = some (entry (f * 4096) 3) := by
  obtain ⟨G, hgood, hshares⟩ := BootFrom.sharesKernel h
  have hentry : k.mem.word (k.space i).root 511 = k.mem.kernelEntry := by
    rw [hshares i hi, hgood.kernelEntry hi]
  have hrole : G.role (k.space i).root ≠ .kernel := by simp [hgood.root_role hi]
  have h39 : ∀ f, G.role f ≠ .kernel → idx (kernBase + f * 4096) 39 = 511 := by
    intro f hf
    have hlt := (hgood.inv.pool.managed f hf).1
    unfold idx kernBase
    simp only [capacity] at hlt
    omega
  have hpresent : present (k.mem.word k.mem.kpml4 511) = true := by
    have hlinear := (hgood.inv.linear _ hrole).1
    rwa [h39 _ hrole] at hlinear
  refine ⟨fun v hv => ?_, fun f hf => ?_⟩
  · rw [walk_kernelEntry hentry hpresent hv, hgood.kpml4]
  · have hf' : G.role f ≠ .kernel := fun hcon => (hgood.kernel f).mp hcon hf
    obtain ⟨h4, h3, h2, -, -, -, -, hleaf⟩ := hgood.inv.linear f hf'
    rw [walk_kernelEntry hentry hpresent (h39 f hf')]
    unfold Mem.walk
    dsimp only
    rw [if_pos h4, if_pos h3, if_pos h2, hleaf, present_entry, if_pos (by decide)]

/-- The shell of the small machine and its child. -/
theorem kernel_in_every_space_child :
    ∃ k, Reachable System.step Safe (BootFrom smallMem) k ∧ k.InUse 3 ∧
      (∀ v, idx v 39 = 511 → k.mem.walk (k.space 3).root v = k.mem.walk smallMem.kpml4 v) ∧
      ∀ f, OnFreeList smallMem f →
        k.mem.walk (k.space 3).root (kernBase + f * 4096) = some (entry (f * 4096) 3) := by
  have hrun : ((System.start smallMem emptyImage []).bind fun k =>
      (k.step (.sched (.sys .fork))).map fun k' =>
        decide ((k'.sched.q 3).state ≠ .ready)).any id = true := by
    decide +kernel
  obtain ⟨b, hrun, hb⟩ := (Option.any_eq_true _ _).mp hrun
  obtain ⟨k₀, hk₀, hrun⟩ := Option.bind_eq_some_iff.mp hrun
  obtain ⟨k₁, hk₁, rfl⟩ := Option.map_eq_some_iff.mp hrun
  have hstart : Reachable System.step Safe (BootFrom smallMem) k₀ :=
    .start ⟨smallMem_boot, emptyImage, [], emptyImage_ok, by decide, hk₀⟩
  have hfork := hstart.next (e := Action.sched (.sys .fork)) ⟨trivial, trivial⟩ hk₁
  have huse : k₁.InUse 3 := ⟨by decide, of_decide_eq_true hb⟩
  exact ⟨k₁, hfork, huse, kernel_in_every_space smallMem k₁ hfork 3 huse⟩

end X86Kernel.Kern
