import X86Kernel.Kern.Arguments

/-!
What `execvpe` makes of the areas of a process. It pushes those of the new image onto
the list that is there. `create_process` starts with an empty list and
`removeProcess` frees the nodes of a list; `execvpe` does neither.
-/

namespace X86Kernel.Kern

open Lib Paging Proc

structure Replaces (img : Image) (l : List Nat) (m : Mem) (vm : Word) : Prop where
  areas : ∃ l', AreaList m vm l' ∧ bounds m l' = img.areas ∧ ∀ f ∈ l, f ∉ l'
  freed : ∀ f ∈ l, OnFreeList m f

theorem fitsArgs_nil : FitsArgs [] := ⟨by decide, by simp⟩

section Exec

variable {m m' : Mem} {G : Ghost} {sp sp' : Space} {img : Image} {args : List (List Byte)}
  {l : List Nat}

/-- The new areas come first, the old ones follow with the bounds they had. -/
theorem execvpe_areas (h : Inv m G) (hhome : Homed G) (haligned : sp.pml4e = sp.root * 4096)
    (hL : Listed m G sp.root sp.vm l) (hok : img.Ok) (hargs : FitsArgs args)
    (hrun : execvpe m sp img args = some (sp', m')) :
    ∃ G' new, Inv m' G' ∧ Listed m' G' sp.root sp'.vm (new ++ l) ∧ bounds m' new = img.areas ∧
      bounds m' l = bounds m l := by
  obtain ⟨⟨vm, m₂⟩, hload, hrun⟩ := Option.bind_eq_some_iff.mp hrun
  obtain ⟨m₃, hwrites, hrun⟩ := Option.bind_eq_some_iff.mp hrun
  obtain ⟨rfl, rfl⟩ : { sp with vm := vm } = sp' ∧ m₃ = m' := by simpa using hrun
  obtain ⟨G₁, hE, hL₁, hkeep₁⟩ := hL.emptied h hhome
  obtain ⟨G₂, hB₂, hv₂, -, -, new, hL₂, hareas, hkeep₂⟩ :=
    loadImage_spec hE.inv hE.homed hL₁ hok hload
  have hsp : ({ pml4e := sp.root * 4096, vm := vm } : Space) = { sp with vm := vm } := by
    rw [← haligned]
  rw [hsp] at hv₂
  obtain ⟨G₃, N, hB₃, -, hv₃, -, -, hnode⟩ := stackWrites_spec _
    (fun w hw => mem_execWrites hargs hw) hB₂.inv hB₂.homed hv₂ (hB₂.added _ (Or.inr rfl)) hwrites
  have hword : ∀ f ∈ new ++ l, m₃.word f = m₂.word f := fun f hf => hnode f ((hL₂.nodes f).mp hf)
  refine ⟨G₃, new, hB₃.inv, ⟨hv₃.root, ?_, ?_⟩, ?_, ?_⟩
  · exact hL₂.areas.congr fun f hf => by rw [hword f hf]
  · intro f
    rw [hL₂.nodes]
    exact (hv₂.vma_iff hB₂.inv hv₃ hB₃.inv hnode f).symm
  · rw [bounds_congr fun f hf => hword f (List.mem_append_left _ hf), hareas]
  · refine bounds_congr fun f hf => ?_
    rw [hword f (List.mem_append_right _ hf), hkeep₂ f hf, hkeep₁ f hf]

end Exec

/-- For every process and every list it has: `execvpe` replaces the list if and only if
it is empty. -/
theorem execvpe_replaces_iff (m m' : Mem) (G : Ghost) (sp sp' : Space) (img : Image)
    (args : List (List Byte)) (l : List Nat) (h : Inv m G) (hhome : Homed G)
    (haligned : sp.pml4e = sp.root * 4096) (hL : Listed m G sp.root sp.vm l) (hok : img.Ok)
    (hargs : FitsArgs args) (hrun : execvpe m sp img args = some (sp', m')) :
    Replaces img l m' sp'.vm ↔ l = [] := by
  obtain ⟨G', new, h', hL', hareas, -⟩ := execvpe_areas h hhome haligned hL hok hargs hrun
  constructor
  · rintro ⟨-, hfreed⟩
    refine List.eq_nil_iff_forall_not_mem.mpr fun f hf => ?_
    -- an old node is still a node
    have hrole := (hL'.nodes f).mp (List.mem_append_right _ hf)
    have hfree := (onFreeList_iff h' f).mp (hfreed f hf)
    rw [hrole] at hfree
    cases hfree
  · rintro rfl
    rw [List.append_nil] at hL'
    exact ⟨⟨new, hL'.areas, hareas, by simp⟩, by simp⟩

/-- The first process of the small machine replaces itself. -/
theorem first_process_execs : ∃ m G sp sp' m', Inv m G ∧ Homed G ∧ Valid m G sp ∧
    execvpe m sp emptyImage [] = some (sp', m') := by
  obtain ⟨k, G, -, huser, hgood, hsupply⟩ := smallMem_supplied
  have hv := hgood.cur_valid huser
  obtain ⟨⟨sp', m'⟩, hexec⟩ := execvpe_ok hgood.inv hgood.homed hv emptyImage_ok fitsArgs_nil
    emptyImage_brings rfl hsupply
  exact ⟨k.mem, G, k.cur, sp', m', hgood.inv, hgood.homed, hv, hexec⟩

/-- The first process has a stack and a heap area, which are not replaced. -/
theorem execvpe_replaces_iff_first : ∃ m G sp l sp' m', Inv m G ∧ Listed m G sp.root sp.vm l ∧
    execvpe m sp emptyImage [] = some (sp', m') ∧ ¬ Replaces emptyImage l m' sp'.vm := by
  obtain ⟨m, G, sp, sp', m', h, hhome, hv, hexec⟩ := first_process_execs
  obtain ⟨s, t, rest, hL⟩ := hv.areas
  refine ⟨m, G, sp, _, sp', m', h, hL, hexec, fun hcon => ?_⟩
  have hnil := (execvpe_replaces_iff m m' G sp sp' emptyImage [] _ h hhome hv.aligned hL
    emptyImage_ok fitsArgs_nil hexec).mp hcon
  cases hnil

/-- Its old stack area is still in the list and not on the free list. -/
theorem old_areas_stay : ¬ ∀ m m' G sp sp' img args l, Inv m G → Homed G →
    sp.pml4e = sp.root * 4096 → Listed m G sp.root sp.vm l → img.Ok → FitsArgs args →
    execvpe m sp img args = some (sp', m') → Replaces img l m' sp'.vm := by
  intro hall
  obtain ⟨m, G, sp, sp', m', h, hhome, hv, hexec⟩ := first_process_execs
  obtain ⟨s, t, rest, hL⟩ := hv.areas
  obtain ⟨G', new, h', hL', -⟩ :=
    execvpe_areas h hhome hv.aligned hL emptyImage_ok fitsArgs_nil hexec
  have hfreed := (hall m m' G sp sp' emptyImage [] _ h hhome hv.aligned hL emptyImage_ok
    fitsArgs_nil hexec).freed s (by simp)
  have hrole := (hL'.nodes s).mp (by simp)
  have hfree := (onFreeList_iff h' s).mp hfreed
  rw [hrole] at hfree
  cases hfree

end X86Kernel.Kern
