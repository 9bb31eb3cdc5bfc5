import X86Kernel.Kern.Accept
import X86Kernel.Kern.Isolation
import X86Kernel.Kern.Replace

/-!
Areas and pages. A process has its memory twice: as a list of areas, which `isr14` asks
whether an address is the process's own, and as page tables, which the MMU asks. The
loader, `malloc`, `fork` and the fault handler each write both; no page is ever outside
of the areas.
-/

namespace X86Kernel.Kern

open Lib Paging Proc

/-- Page `n` is one of the area's. The stack grows down, from `vm_start` to `vm_end`. -/
def inArea (area : Word × Word) (n : Nat) : Prop :=
  if area.2.toNat < area.1.toNat then area.2.toNat / 4096 ≤ n ∧ n ≤ area.1.toNat / 4096
  else area.1.toNat / 4096 ≤ n ∧ n * 4096 < area.2.toNat

def InAreas (m : Mem) (l : List Nat) (n : Nat) : Prop := ∃ area ∈ bounds m l, inArea area n

structure Covered (m : Mem) (sp : Space) (l : List Nat) : Prop where
  list : AreaList m sp.vm l
  frames : ∀ f ∈ l, f < capacity
  pages : ∀ v, v / 4096 < userPages → m.walk sp.root v ≠ none → InAreas m l (v / 4096)

section Space

variable {m m' : Mem} {G G' : Ghost} {sp : Space} {l : List Nat} {n : Nat}

theorem Covered.of_listed (h : Inv m G) (hL : Listed m G sp.root sp.vm l)
    (hpages : ∀ n, n < userPages → G.leaf (sp.root, n) ≠ none → InAreas m l n) :
    Covered m sp l := by
  refine ⟨hL.areas, fun f hf => hL.lt h hf, fun v hv hwalk => hpages _ hv ?_⟩
  intro hnone
  rw [h.walk hL.root hv, hnone] at hwalk
  exact hwalk rfl

theorem Covered.listed (hc : Covered m sp l) (h : Inv m G) (hv : Valid m G sp) :
    Listed m G sp.root sp.vm l := by
  obtain ⟨s, t, rest, hL⟩ := hv.areas
  obtain rfl := hc.list.unique hL.areas hc.frames fun f hf => hL.lt h hf
  exact hL

theorem Covered.page (hc : Covered m sp l) (h : Inv m G) (hv : Valid m G sp) (hn : n < userPages)
    (hleaf : G.leaf (sp.root, n) ≠ none) : InAreas m l n := by
  have hdiv := frame_div n
  have hin := hc.pages (n * 4096) (by rwa [hdiv])
  rw [h.walk hv.root (by rwa [hdiv]), hdiv] at hin
  refine hin ?_
  simpa using hleaf

/-- The pages between the bounds of the stack. -/
theorem stack_inArea (hlo : stackEnd / 4096 ≤ n) (hhi : n ≤ stackPage) :
    inArea (BitVec.ofNat 64 stackStart, BitVec.ofNat 64 stackEnd) n := by
  have hstart : (BitVec.ofNat 64 stackStart).toNat = stackStart := by decide
  have hend : (BitVec.ofNat 64 stackEnd).toNat = stackEnd := by decide
  unfold inArea
  rw [if_pos (by dsimp only; rw [hstart, hend]; decide)]
  dsimp only
  rw [hstart, hend]
  exact ⟨hlo, hhi⟩

/-- The first area is the stack. -/
theorem Covered.stack (hc : Covered m sp l) (h : Inv m G) (hv : Valid m G sp)
    (hlo : stackEnd / 4096 ≤ n) (hhi : n ≤ stackPage) : InAreas m l n := by
  obtain ⟨s, t, rest, hL, -, -, hframe, -⟩ := hv.nodes h
  obtain rfl := hc.list.unique hL.areas hc.frames fun f hf => hL.lt h hf
  refine ⟨(m.word s 0, m.word s 1), by simp [bounds], ?_⟩
  have hstart := hv.stack_start
  have hend := hv.stack_end
  unfold vmStart at hstart
  unfold vmEnd at hend
  rw [hframe] at hstart hend
  rw [hstart, hend]
  exact stack_inArea hlo hhi

/-- What happens to others. -/
theorem Covered.frame {S : Nat → Prop} (hc : Covered m sp l) (h : Inv m G) (hv : Valid m G sp)
    (hI : Inv m' G') (hF : Frame S m G m' G') (hp : ¬ S sp.root) : Covered m' sp l := by
  have hL := hc.listed h hv
  refine .of_listed hI (hL.frame hF hp) fun n hn hleaf => ?_
  have hmap := hF.mapped sp.root n hp
  have hold : G.leaf (sp.root, n) ≠ none := by
    intro hnone
    unfold Ghost.mapped at hmap
    rw [hnone] at hmap
    exact hleaf (by simpa using hmap)
  unfold InAreas
  rw [bounds_congr fun f hf => hF.node sp.root f hp ((hL.nodes f).mp hf)]
  exact hc.page h hv hn hold

/-- New pages on the stack. -/
theorem Covered.grow {N : Nat → Prop} (hc : Covered m sp l) (h : Inv m G) (hv : Valid m G sp)
    (hB : Builds sp.root True N m G m' G') (hv' : Valid m' G' sp)
    (hword : ∀ f, G.role f = .vma sp.root → m'.word f = m.word f)
    (hN : ∀ n, N n → stackEnd / 4096 ≤ n ∧ n ≤ stackPage) : Covered m' sp l := by
  have hL := hc.listed h hv
  have hL' : Listed m' G' sp.root sp.vm l :=
    hL.congr hB.root (hv.vma_iff h hv' hB.inv hword) fun f hf => by rw [hword f hf]
  refine .of_listed hB.inv hL' fun n hn hleaf => ?_
  unfold InAreas
  rw [bounds_congr fun f hf => hword f ((hL.nodes f).mp hf)]
  obtain hold | hnew := hB.pages n hleaf
  · exact hc.page h hv hn hold
  · exact hc.stack h hv (hN n hnew).1 (hN n hnew).2

/-- What the handler takes for the process's own is in one of the areas. -/
theorem Covered.isr14 {v : Nat} (hc : Covered m sp l) (h : Inv m G) (hv : Valid m G sp)
    (hout : ¬ InAreas m l (v / 4096)) : isr14 m sp v = some .segv := by
  have hlen := hc.list.length_le hc.frames
  obtain ⟨b, hscan, hb⟩ := scanAreas_eq (a := v) hc.list hc.frames (n := fuel)
    (by simp only [fuel, capacity] at *; omega)
  have hstart : (vmStart m sp.vm + 4096).toNat = stackStart + 4096 := by
    rw [hv.stack_start]
    decide
  have hend : (vmEnd m sp.vm).toNat = stackEnd := by
    rw [hv.stack_end]
    decide
  have hnot : b = false := by
    rw [← Bool.not_eq_true, hb]
    rintro ⟨f, hf, hlo, hhi⟩
    unfold areaStart at hlo
    unfold areaEnd at hhi
    refine hout ⟨(m.word f 0, m.word f 1), List.mem_map_of_mem hf, ?_⟩
    unfold inArea
    dsimp only
    rw [if_neg (by omega)]
    omega
  apply isr14_outside
  unfold inAreas
  rw [hstart, hend, if_neg, hscan, hnot]
  rintro ⟨hhi, hlo⟩
  exact hout (hc.stack h hv (by omega) (by simp only [stackPage, stackStart] at *; omega))

end Space

section Call

variable {m m' : Mem} {G : Ghost} {sp : Space} {l : List Nat}

/-- The heap area grows with its pages. -/
theorem Covered.malloc {bytes : Int} (hc : Covered m sp l) (h : Inv m G) (hhome : Homed G)
    (hv : Valid m G sp) (hrun : malloc m sp bytes = some m') : Covered m' sp l := by
  obtain ⟨G', hB, hv', hbrk, -, -, hnodes⟩ := malloc_spec h hhome hv hrun
  obtain ⟨s, t, rest, hL, hvm, -, -, hnext, hs, ht, hst⟩ := hv.nodes h
  obtain rfl := hc.list.unique hL.areas hc.frames fun f hf => hL.lt h hf
  have htlt := hL.lt h (f := t) (by simp)
  have hframe : frameAt (vmNext m sp.vm) = t := by rw [hnext, frameAt_kptr htlt]
  have hword : ∀ f ∈ s :: t :: rest, ∀ i, ¬ (f = t ∧ i = 1) → m'.word f i = m.word f i :=
    fun f hf i hfi => hnodes.word f i ((hL.nodes f).mp hf) (by rwa [hframe])
  have hL' : Listed m' G' sp.root sp.vm (s :: t :: rest) :=
    hL.congr hB.root hnodes.nodes fun f hf => hword f ((hL.nodes f).mpr hf) 5 (by simp)
  -- the heap area, before and after
  have hstart : m.word t 0 = BitVec.ofNat 64 heapStart := by
    have := hv.heap_start
    unfold vmStart at this
    rwa [hframe] at this
  have hend : (m.word t 1).toNat = brk m sp := by
    unfold brk vmEnd
    rw [hframe]
  have hend' : (m'.word t 1).toNat = brk m' sp := by
    obtain ⟨s₁, t₁, rest₁, hL₁, -, -, -, hnext₁, -⟩ := hv'.nodes hB.inv
    have heq := hL'.areas.unique hL₁.areas (fun f hf => hL'.lt hB.inv hf)
      fun f hf => hL₁.lt hB.inv hf
    obtain ⟨-, rfl, -⟩ : s = s₁ ∧ t = t₁ ∧ rest = rest₁ := by simpa using heq
    unfold brk vmEnd
    rw [hnext₁, frameAt_kptr htlt]
  have hheap : (BitVec.ofNat 64 heapStart).toNat = heapStart := by decide
  have hlo := (hv.brk_le h).1
  have hsub : ∀ n, InAreas m (s :: t :: rest) n → InAreas m' (s :: t :: rest) n := by
    rintro n ⟨area, harea, hn⟩
    obtain ⟨f, hf, rfl⟩ := List.mem_map.mp harea
    refine ⟨(m'.word f 0, m'.word f 1), List.mem_map_of_mem hf, ?_⟩
    rw [hword f hf 0 (by simp)]
    by_cases hft : f = t
    · subst hft
      unfold inArea at hn ⊢
      dsimp only at hn ⊢
      rw [hstart, hheap] at hn ⊢
      rw [hend, if_neg (by omega)] at hn
      rw [hend', if_neg (by omega)]
      omega
    · rwa [hword f hf 1 (by simp [hft])]
  refine .of_listed hB.inv hL' fun n hn hleaf => ?_
  obtain hold | ⟨hnlo, hnhi⟩ := hB.pages n hleaf
  · exact hsub n (hc.page h hv hn hold)
  · refine ⟨(m'.word t 0, m'.word t 1), List.mem_map_of_mem (by simp), ?_⟩
    unfold inArea
    dsimp only
    rw [hword t (by simp) 0 (by simp), hstart, hheap, hend', if_neg (by omega)]
    exact ⟨by omega, hnhi⟩

theorem Copied.bounds {l l' : List Nat} (h : Copied m l m' l') :
    bounds m' l' = Kern.bounds m l := by
  unfold Kern.bounds
  induction h with
  | nil => rfl
  | cons hf _ ih => rw [List.map_cons, List.map_cons, hf.1, hf.2, ih]

/-- A child has copies of the areas and the same pages. -/
theorem Covered.copytask {c : Space} (hc : Covered m sp l) (h : Inv m G) (hhome : Homed G)
    (hv : Valid m G sp) (hrun : copytask m sp = some (c, m')) : ∃ l', Covered m' c l' := by
  have hL := hc.listed h hv
  obtain ⟨G', l', -, -, h', -, hL', hcopied, -, -, hleaf⟩ := copytask_spec h hhome hL hrun
  refine ⟨l', .of_listed h' hL' fun n hn hne => ?_⟩
  unfold InAreas
  rw [hcopied.bounds]
  refine hc.page h hv hn fun hnone => hne ?_
  rw [hleaf, if_pos (.inr rfl), hnone]
  rfl

/-- The areas of an image and the stack have all the pages of a fresh process. -/
theorem Image.areas_cover {img : Image} (hok : img.Ok) {n : Nat}
    (hn : img.brings n ∨ stackEnd / 4096 ≤ n ∧ n ≤ stackPage) :
    ∃ area ∈ img.areas, inArea area n := by
  have hstack : stackEnd / 4096 ≤ n ∧ n ≤ stackPage → ∃ area ∈ img.areas, inArea area n :=
    fun hn => ⟨_, List.mem_cons_self, stack_inArea hn.1 hn.2⟩
  obtain (⟨ep, hep, htype, hlo, hhi⟩ | rfl) | hn := hn
  · obtain ⟨hbound, -⟩ := hok ep hep htype
    simp only [userPages] at hbound
    refine ⟨(BitVec.ofNat 64 ep.vaddr, BitVec.ofNat 64 (ep.vaddr + ep.memsz)), ?_, ?_⟩
    · unfold Image.areas segmentAreas
      simp only [List.mem_cons, List.mem_map, List.mem_filter]
      exact .inr (.inr ⟨ep, ⟨hep, by simpa using htype⟩, rfl⟩)
    · unfold inArea
      dsimp only
      rw [BitVec.toNat_ofNat, BitVec.toNat_ofNat, Nat.mod_eq_of_lt (by omega),
        Nat.mod_eq_of_lt (by omega), if_neg (by omega)]
      exact ⟨hlo, hhi⟩
  · exact hstack ⟨by decide, le_rfl⟩
  · exact hstack hn

/-- A new image. -/
theorem Covered.execvpe {img : Image} {args : List (List Byte)} {sp' : Space} (h : Inv m G)
    (hhome : Homed G) (hv : Valid m G sp) (hok : img.Ok) (hargs : FitsArgs args)
    (hrun : execvpe m sp img args = some (sp', m')) : ∃ l', Covered m' sp' l' := by
  obtain ⟨s, t, rest, hL⟩ := hv.areas
  obtain ⟨G₁, new, h₁, hL₁, hareas, -⟩ := execvpe_areas h hhome hv.aligned hL hok hargs hrun
  obtain ⟨G₂, hroot, -, hloaded, hv₂, -⟩ := execvpe_spec h hhome hv hok hargs hrun
  rw [← hroot] at hL₁ hloaded
  have hfrom : Covered m' sp' (new ++ s :: t :: rest) := by
    refine ⟨hL₁.areas, fun f hf => hL₁.lt h₁ hf, fun v hvu hwalk => ?_⟩
    rw [hloaded.inv.walk hv₂.root hvu] at hwalk
    have hpage := hloaded.pages (v / 4096) (by simpa using hwalk)
    obtain ⟨area, harea, hn⟩ := Image.areas_cover hok hpage
    exact ⟨area, by rw [bounds_append, hareas]; exact List.mem_append_left _ harea, hn⟩
  exact ⟨_, hfrom⟩

/-- The first process. -/
theorem Covered.createProcess {img : Image} {name : List Byte} (h : Inv m G) (hhome : Homed G)
    (hok : img.Ok) (hname : name.length < 50)
    (hrun : createProcess m img name = some (sp, m')) : ∃ l', Covered m' sp l' := by
  obtain ⟨G', -, hloaded, -, -, new, hL, hareas⟩ := createProcess_spec h hhome hok hname hrun
  refine ⟨new, .of_listed hloaded.inv hL fun n hn hleaf => ?_⟩
  obtain ⟨area, harea, hin⟩ := Image.areas_cover hok (hloaded.pages n hleaf)
  exact ⟨area, by rwa [hareas], hin⟩

end Call

section Run

variable {m₀ : Mem} {k k' : System} {G G' : Ghost} {i : Nat}

def System.AllCovered (k : System) : Prop := ∀ i, k.InUse i → ∃ l, Covered k.mem (k.space i) l

/-- A step in the space `p` leaves the other processes covered. -/
theorem System.AllCovered.act {p : Nat} (hall : k.AllCovered) (h : Good m₀ k G)
    (hI : Inv k'.mem G') (hF : Frame (· = p) k.mem G k'.mem G')
    (hslot : ∀ i, k'.InUse i → (k.InUse i ∧ k'.space i = k.space i ∧ (k.space i).root ≠ p) ∨
      ∃ l, Covered k'.mem (k'.space i) l) : k'.AllCovered := by
  intro i hi
  obtain ⟨hold, hspace, hne⟩ | hnew := hslot i hi
  · obtain ⟨l, hc⟩ := hall i hold
    rw [hspace]
    exact ⟨l, hc.frame h.inv (h.valid i hold) hI hF hne⟩
  · exact hnew

/-- The current process does something to its own memory. -/
theorem System.AllCovered.own (hall : k.AllCovered) (h : Good m₀ k G) (huser : k.inUser = true)
    {sp : Space} {m : Mem} (hI : Inv m G')
    (hF : Frame (· = k.cur.root) k.mem G m G') (hcov : ∃ l, Covered m sp l) :
    System.AllCovered { k with space := Function.update k.space k.sched.r sp, mem := m } := by
  refine hall.act h hI hF fun i hi => ?_
  by_cases hir : i = k.sched.r
  · subst hir
    dsimp only
    rw [Function.update_self]
    exact .inr hcov
  · dsimp only
    rw [Function.update_of_ne hir]
    exact .inl ⟨hi, rfl, h.root_ne huser hi hir⟩

/-- Its areas stay where they are. -/
theorem System.AllCovered.own_mem (hall : k.AllCovered) (h : Good m₀ k G) (huser : k.inUser = true)
    {m : Mem} (hI : Inv m G') (hF : Frame (· = k.cur.root) k.mem G m G')
    (hcov : ∃ l, Covered m k.cur l) : System.AllCovered { k with mem := m } := by
  have hsame : Function.update k.space k.sched.r k.cur = k.space := Function.update_eq_self _ _
  have hall' := hall.own h huser hI hF hcov
  rwa [hsame] at hall'

theorem System.AllCovered.quiet (hall : k.AllCovered) (hmem : k'.mem = k.mem)
    (hspace : k'.space = k.space) (huse : ∀ j, k'.InUse j → k.InUse j) : k'.AllCovered := by
  intro i hi
  rw [hmem, hspace]
  exact hall i (huse i hi)

/-- The step lemma. -/
theorem System.AllCovered.step (hall : k.AllCovered) (h : Good m₀ k G) {act : Action}
    (hok : Safe k act) (hstep : k.step act = some k') : k'.AllCovered := by
  cases step_moves hstep with
  | fork huser hs hcopy =>
      rename_i s c m
      obtain ⟨l, hc⟩ := hall _ (h.cur_inUse huser)
      obtain ⟨G', hfree, hI, -, -, -, hF, -⟩ :=
        copytask_valid h.inv h.homed (h.cur_valid huser) hcopy
      have hI' : Inv (k.forked s c m).mem G' := by rwa [forked_mem]
      have hF' : Frame (· = c.root) k.mem G (k.forked s c m).mem G' := by rwa [forked_mem]
      refine hall.act h hI' hF' fun i hi => ?_
      rw [forked_space, forked_mem]
      split_ifs with hn
      · exact .inr (hc.copytask h.inv h.homed (h.cur_valid huser) hcopy)
      · have hold : k.InUse i := by
          have hi := (forked_inUse i).mp hi
          rw [h.inUse_step (e := .sys .fork) trivial hs] at hi
          simpa [forks, reaps, hn] using hi
        refine .inl ⟨hold, rfl, fun hcon => ?_⟩
        have hrole := h.root_role hold
        rw [hcon, hfree] at hrole
        cases hrole
  | @reap e s i m hfork hs hreap hrun =>
      have hi : k.InUse i := ⟨(h.awake.reaps_ne hreap).1, by
        rw [(reaps_zombie hreap).2]
        decide⟩
      obtain ⟨a, b, rest, hL⟩ := (h.valid i hi).areas
      obtain ⟨m', G', hrun', hI, hF, -⟩ := removeProcess_spec h.inv hL (h.valid i hi).aligned
      obtain rfl : m' = m := Option.some.inj (hrun'.symm.trans hrun)
      refine hall.act (p := (k.space i).root) h hI hF fun j hj => ?_
      have hstep := (h.inUse_step hok.2 hs j).mp hj
      rw [forks_eq_none hfork, hreap] at hstep
      have hold : k.InUse j := by simpa using hstep.1
      have hij : j ≠ i := fun hcon => hstep.2 (by rw [hcon])
      exact .inl ⟨hold, rfl, fun hcon => hij (h.distinct j i hold hi hcon)⟩
  | quiet hfork hs hreap =>
      exact hall.quiet rfl rfl fun j => (h.inUse_quiet hok.2 hfork hreap hs j).mp
  | exec huser hrun =>
      have hv := h.cur_valid huser
      obtain ⟨G', -, -, hloaded, -⟩ := execvpe_spec h.inv h.homed hv hok.1 hok.2 hrun
      exact hall.own h huser hloaded.inv hloaded.frame
        (Covered.execvpe h.inv h.homed hv hok.1 hok.2 hrun)
  | malloc huser hrun =>
      have hv := h.cur_valid huser
      obtain ⟨l, hc⟩ := hall _ (h.cur_inUse huser)
      obtain ⟨G', hB, -⟩ := malloc_spec h.inv h.homed hv hrun
      exact hall.own_mem h huser hB.inv hB.frame ⟨l, hc.malloc h.inv h.homed hv hrun⟩
  | write huser hrun =>
      have hv := h.cur_valid huser
      obtain ⟨l, hc⟩ := hall _ (h.cur_inUse huser)
      obtain ⟨hpage, hpte⟩ := h.resolves huser hok
      obtain ⟨G', hB, hv', -⟩ := write_spec h.inv h.homed hv hpage hpte hrun
      refine hall.own_mem h huser hB.inv hB.frame ⟨l, hc.grow h.inv hv hB hv' ?_ ?_⟩
      · exact fun f hf => write_nodes h.inv hv hpage hpte hrun hf
      · exact fun n hn => ⟨(growsAt.stack _ _ _ n hn).1, (growsAt.stack _ _ _ n hn).2.1⟩
  | read huser hrun =>
      have hv := h.cur_valid huser
      obtain ⟨l, hc⟩ := hall _ (h.cur_inUse huser)
      obtain ⟨hpage, hpte⟩ := h.resolves huser hok
      obtain ⟨G', hB, hv', -⟩ := read_spec h.inv h.homed hv hpage hpte hrun
      refine hall.own_mem h huser hB.inv hB.frame ⟨l, hc.grow h.inv hv hB hv' ?_ ?_⟩
      · exact fun f hf => read_nodes h.inv hv hpage hpte hrun hf
      · exact fun n hn => ⟨(growsAt.stack _ _ _ n hn).1, (growsAt.stack _ _ _ n hn).2.1⟩
  | segv huser hact hs =>
      exact hall.quiet rfl rfl fun j =>
        (h.inUse_quiet (e := .sys .exit) trivial (by simp) rfl hs j).mp
  | stuck huser hact => exact hall.quiet rfl rfl fun _ hj => hj

theorem BootFrom.allCovered (h : Reachable System.step Safe (BootFrom m₀) k) :
    ∃ G, Good m₀ k G ∧ k.AllCovered := by
  refine BootFrom.invariant h ?_ fun k act k' G hgood hok hstep hk => hk.step hgood hok hstep
  intro img name sp m hboot hok hname hcreate i hi
  obtain rfl := (boot_inUse rfl i).mp hi
  exact Covered.createProcess hboot.inv hboot.homed hok hname hcreate

end Run

/-- The page tables never show more than the areas say: in every state that safe steps
lead to from a booted kernel, the area list of every process ends, an address outside of
the areas is not mapped, and a fault there ends the process. -/
theorem pages_in_areas (m₀ : Mem) (k : System)
    (h : Reachable System.step Safe (BootFrom m₀) k) (i : Nat) (hi : k.InUse i) :
    ∃ l : List Nat, AreaList k.mem (k.space i).vm l ∧ l.Nodup ∧
      ∀ v, v / 4096 < userPages → ¬ InAreas k.mem l (v / 4096) →
        k.mem.walk (k.space i).root v = none ∧ isr14 k.mem (k.space i) v = some .segv := by
  obtain ⟨G, hgood, hall⟩ := BootFrom.allCovered h
  obtain ⟨l, hc⟩ := hall i hi
  have hv := hgood.valid i hi
  refine ⟨l, hc.list, (hc.listed hgood.inv hv).nodup hgood.inv, fun v hvu hout => ⟨?_, ?_⟩⟩
  · by_contra hcon
    exact hout (hc.pages v hvu hcon)
  · exact hc.isr14 hgood.inv hv hout

/-- The shell forks, and the child has asked for heap. -/
theorem pages_in_areas_child :
    ∃ (k : System) (l : List Nat), k.InUse 3 ∧ AreaList k.mem (k.space 3).vm l ∧ l.Nodup ∧
      ∀ v, v / 4096 < userPages → ¬ InAreas k.mem l (v / 4096) →
        k.mem.walk (k.space 3).root v = none ∧ isr14 k.mem (k.space 3) v = some .segv := by
  have hrun : ((System.start smallMem emptyImage []).bind fun k =>
      (k.step (.sched (.sys .fork))).bind fun k => k.step (.malloc 4096)).any
        (fun k => (k.sched.q 3).state = .running) = true := by
    decide +kernel
  obtain ⟨k, hk, hstate⟩ := (Option.any_eq_true _ _).mp hrun
  obtain ⟨k₀, hk₀, hk⟩ := Option.bind_eq_some_iff.mp hk
  obtain ⟨k₁, hk₁, hk⟩ := Option.bind_eq_some_iff.mp hk
  have hstart : Reachable System.step Safe (BootFrom smallMem) k₀ :=
    .start ⟨smallMem_boot, emptyImage, [], emptyImage_ok, by decide, hk₀⟩
  have hfork := hstart.next (show Safe k₀ (.sched (.sys .fork)) from ⟨trivial, trivial⟩) hk₁
  have hmalloc := hfork.next (show Safe k₁ (.malloc 4096) from trivial) hk
  have huse : k.InUse 3 := ⟨by decide, by rw [of_decide_eq_true hstate]; decide⟩
  obtain ⟨l, hcov⟩ := pages_in_areas smallMem k hmalloc 3 huse
  exact ⟨k, l, huse, hcov⟩

end X86Kernel.Kern
