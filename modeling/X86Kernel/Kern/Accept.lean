import X86Kernel.Kern.Resolve

/-!
Which addresses `isr14` takes for the process's own. The test for the stack
covers the whole page above `vm_start`; the scan over the areas compares with
`<` at both ends, so the first byte of an area is not inside it.
-/

namespace X86Kernel.Kern

open Lib Paging Proc

def areaStart (m : Mem) (f : Nat) : Nat := (m.word f 0).toNat

def areaEnd (m : Mem) (f : Nat) : Nat := (m.word f 1).toNat

/-- The lists the loader builds: the node `s` of the stack, which grows down from
`vm_start`, and then the others. -/
structure StackFirst (m : Mem) (sp : Space) (s : Nat) (rest : List Nat) : Prop where
  list : AreaList m sp.vm (s :: rest)
  frames : ∀ f ∈ s :: rest, f < capacity
  stack : areaEnd m s < areaStart m s ∧ areaStart m s / 4096 < userPages
  others : ∀ f ∈ rest, areaStart m f ≤ areaEnd m f

def InStack (m : Mem) (s a : Nat) : Prop := areaEnd m s < a ∧ a < areaStart m s + 4096

/-- The process's own memory: its areas are half-open intervals. -/
def InMemory (m : Mem) (s : Nat) (rest : List Nat) (a : Nat) : Prop :=
  (∃ f ∈ rest, areaStart m f ≤ a ∧ a < areaEnd m f) ∨ InStack m s a

def Accepted (m : Mem) (s : Nat) (rest : List Nat) (a : Nat) : Prop :=
  (∃ f ∈ rest, areaStart m f < a ∧ a < areaEnd m f) ∨ InStack m s a

/-- `isr14` accepts exactly the process's own memory: it makes the page of an
address there writable and returns, and ends the process at any other. -/
def AcceptsExactly (m : Mem) (sp : Space) (s : Nat) (rest : List Nat) (a : Nat) : Prop :=
  (InMemory m s rest a → ∃ m' w, isr14 m sp a = some (.resume m') ∧
    m'.walk sp.root a = some w ∧ writable w = true) ∧
  (¬ InMemory m s rest a → isr14 m sp a = some .segv)

section Scan

variable {m : Mem} {sp : Space} {s a : Nat} {rest : List Nat}

/-- The scan, on a list that ends before the fuel does. -/
theorem scanAreas_eq {vm : Word} {l : List Nat} (h : AreaList m vm l)
    (hl : ∀ f ∈ l, f < capacity) {n : Nat} (hn : l.length < n) :
    ∃ b, scanAreas m a n vm = some b ∧
      (b = true ↔ ∃ f ∈ l, areaStart m f < a ∧ a < areaEnd m f) := by
  induction l generalizing vm n with
  | nil =>
      obtain rfl : vm = 0 := h
      obtain ⟨n, rfl⟩ := Nat.exists_eq_add_of_lt hn
      exact ⟨false, by simp [scanAreas], by simp⟩
  | cons f l ih =>
      obtain ⟨rfl, htail⟩ := h
      have hf := hl f (by simp)
      obtain ⟨n, rfl⟩ : ∃ k, n = k + 1 := ⟨n - 1, by omega⟩
      have hstart : (vmStart m (kptr f)).toNat = areaStart m f := by
        unfold vmStart areaStart
        rw [frameAt_kptr hf]
      have hend : (vmEnd m (kptr f)).toNat = areaEnd m f := by
        unfold vmEnd areaEnd
        rw [frameAt_kptr hf]
      unfold scanAreas
      rw [if_neg (kptr_ne_zero hf), hstart, hend]
      split_ifs with hin
      · exact ⟨true, rfl, by simp [hin]⟩
      · have hnext : vmNext m (kptr f) = m.word f 5 := by
          unfold vmNext
          rw [frameAt_kptr hf]
        obtain ⟨b, hb, hiff⟩ := ih htail (fun g hg => hl g (by simp [hg])) (n := n)
          (by simp only [List.length_cons] at hn; omega)
        refine ⟨b, by rw [hnext, hb], ?_⟩
        rw [hiff]
        simp only [List.mem_cons, exists_eq_or_imp]
        tauto

/-- The test at the start of `isr14`, for a list with the stack in front. -/
theorem StackFirst.inAreas_eq (h : StackFirst m sp s rest) :
    ∃ b, inAreas m sp a = some b ∧ (b = true ↔ Accepted m s rest a) := by
  have hs := h.frames s (by simp)
  obtain ⟨hvm, -⟩ := h.list
  have hstart : (vmStart m sp.vm + 4096).toNat = areaStart m s + 4096 := by
    have hlt := h.stack.2
    unfold vmStart
    rw [hvm, frameAt_kptr hs, BitVec.toNat_add]
    simp only [areaStart, userPages] at hlt ⊢
    have hconst : (4096 : Word).toNat = 4096 := rfl
    rw [hconst, Nat.mod_eq_of_lt (by omega)]
  have hend : (vmEnd m sp.vm).toNat = areaEnd m s := by
    unfold vmEnd areaEnd
    rw [hvm, frameAt_kptr hs]
  unfold inAreas
  rw [hstart, hend]
  split_ifs with hin
  · exact ⟨true, rfl, by simp [Accepted, InStack, hin]⟩
  · have hlen := h.list.length_le h.frames
    obtain ⟨b, hb, hiff⟩ := scanAreas_eq (a := a) h.list h.frames (n := fuel)
      (by simp only [fuel, capacity] at *; omega)
    refine ⟨b, hb, hiff.trans ?_⟩
    have hstack := h.stack.1
    unfold Accepted InStack
    simp only [List.mem_cons, exists_eq_or_imp]
    constructor
    · rintro (hcon | hrest)
      · exact absurd (hcon.1.trans hcon.2) (Nat.lt_asymm hstack)
      · exact .inl hrest
    · rintro (hrest | hcon)
      · exact .inr hrest
      · exact absurd ⟨hcon.2, hcon.1⟩ hin

/-- Outside of the areas nothing else is looked at. -/
theorem isr14_outside (hin : inAreas m sp a = some false) : isr14 m sp a = some .segv := by
  unfold isr14
  rw [hin]
  rfl

end Scan

/-- For an address on a shared page with one or two references, the handler is
right about the process's memory unless the address is the first byte of every
area it lies in, or the copy finds no free frame; and it ends the process
exactly at the addresses it does not accept. -/
theorem accepts_exactly_iff (m : Mem) (G : Ghost) (sp : Space) (s : Nat) (rest : List Nat) (a : Nat)
    (w : Word) (h : Inv m G) (hroot : G.tab (sp.root, 3, 0) = some sp.root)
    (hlist : StackFirst m sp s rest) (ha : a / 4096 < userPages)
    (hw : m.walk sp.root a = some w) (hcow : cow w = true)
    (hrc : m.getrefcount (addrOf w) = 1 ∨ m.getrefcount (addrOf w) = 2) :
    (AcceptsExactly m sp s rest a ↔ (InMemory m s rest a →
      Accepted m s rest a ∧ (m.getrefcount (addrOf w) = 2 → m.head ≠ none))) ∧
    (isr14 m sp a = some .segv ↔ ¬ Accepted m s rest a) := by
  obtain ⟨e, he, hown, rfl, -, haddr⟩ := shared_leaf h hroot ha hw hcow
  unfold Mem.getrefcount at hrc ⊢
  rw [haddr, frame_div] at hrc ⊢
  obtain ⟨b, hin, hb⟩ := hlist.inAreas_eq (a := a)
  have hsub : Accepted m s rest a → InMemory m s rest a := by
    rintro (⟨f, hf, hlo, hhi⟩ | hstack)
    · exact .inl ⟨f, hf, hlo.le, hhi⟩
    · exact .inr hstack
  cases b with
  | false =>
      have hnot : ¬ Accepted m s rest a := by simp [← hb]
      have hsegv := isr14_outside hin
      refine ⟨?_, by simp [hsegv, hnot]⟩
      unfold AcceptsExactly
      rw [hsegv]
      simp [hnot]
  | true =>
      have hacc : Accepted m s rest a := hb.mp rfl
      have hreturns := isr14_returns_iff h hroot ha he hown hin
      have hiff : (∃ m', isr14 m sp a = some (.resume m')) ↔
          ((m.page e.frame).refCount = 2 → m.head ≠ none) := by
        rw [hreturns]
        constructor
        · rintro (hone | ⟨-, hhead⟩) htwo
          · omega
          · exact hhead
        · intro hhead
          exact hrc.imp_right (fun htwo => ⟨htwo, hhead htwo⟩)
      have htab := h.trees.leaf _ _ (by simp [he] : G.leaf (sp.root, a / 4096) ≠ none)
      obtain ⟨t, ht⟩ := Option.ne_none_iff_exists'.mp htab
      refine ⟨?_, iff_of_false ?_ (by simp [hacc])⟩
      · unfold AcceptsExactly
        simp only [hsub hacc, hacc, true_and, forall_const, not_true_eq_false, IsEmpty.forall_iff,
          and_true, ← hiff]
        constructor
        · rintro ⟨m', -, hrun, -⟩
          exact ⟨m', hrun⟩
        · rintro ⟨m', hrun⟩
          obtain ⟨G', hR, hrefit⟩ := isr14_mapped h hroot ha he hown hrun
          obtain ⟨w', hw', hwrite, -⟩ := (hR.resolved h hroot ha he hrefit).own
          exact ⟨m', w', hrun, hw', hwrite⟩
      · rw [isr14_shared h hroot ha ht he hown hin]
        split_ifs
        · intro hcon
          obtain ⟨r, -, hcon⟩ := Option.bind_eq_some_iff.mp hcon
          obtain ⟨m₂, -, hcon⟩ := Option.map_eq_some_iff.mp hcon
          cases hcon
        · simp
        · simp

def dataImage : Image := { phdrs := [⟨1, 0, 0x600000, 0, 8⟩], data := fun _ => 0 }

theorem dataImage_ok : dataImage.Ok := by
  intro ep hep _
  obtain rfl := List.mem_singleton.mp hep
  simp only [userPages]
  omega

/-- The shell with that image has forked: its data, shared with the child, is the
last of its three areas. -/
theorem dataImage_forked :
    ∃ k G, Reachable System.step Safe BootStart k ∧ Good smallMem k G ∧ k.inUser = true ∧
      k.mem.head ≠ none ∧ StackFirst k.mem k.cur 19 [14, 9] ∧
      areaStart k.mem 9 = 0x600000 ∧ areaEnd k.mem 9 = 0x600008 ∧
      inAreas k.mem k.cur 0x600000 = some false ∧
      ∀ a, a = 0x600000 ∨ a = 0x600001 → ∃ w, k.mem.walk k.cur.root a = some w ∧ cow w = true ∧
        k.mem.getrefcount (addrOf w) = 2 := by
  -- the tables are read at their frames, one by one: evaluating the walk itself would
  -- compute the first table again at every level
  have hrun : ((System.start smallMem dataImage []).bind fun k =>
      k.step (.sched (.sys .fork))).any (fun k => k.inUser && decide (k.mem.head ≠ none ∧
        (k.cur.vm = kptr 19 ∧ k.mem.word 19 5 = kptr 14 ∧ k.mem.word 14 5 = kptr 9 ∧
          k.mem.word 9 5 = 0) ∧
        (areaEnd k.mem 19 < areaStart k.mem 19 ∧ areaStart k.mem 19 / 4096 < userPages) ∧
        areaStart k.mem 14 ≤ areaEnd k.mem 14 ∧ areaStart k.mem 9 = 0x600000 ∧
        areaEnd k.mem 9 = 0x600008 ∧ inAreas k.mem k.cur 0x600000 = some false ∧
        k.cur.root = 8 ∧ k.mem.word 8 0 = entry 0xB000 7 ∧ k.mem.word 11 0 = entry 0xC000 7 ∧
        k.mem.word 12 3 = entry 0xD000 7 ∧ k.mem.word 13 0 = entry 0xA000 0x205 ∧
        (k.mem.page 10).refCount = 2)) = true := by
    decide +kernel
  obtain ⟨k, hk, hprop⟩ := (Option.any_eq_true _ _).mp hrun
  obtain ⟨k₀, hk₀, hk⟩ := Option.bind_eq_some_iff.mp hk
  simp only [Bool.and_eq_true, decide_eq_true_eq] at hprop
  obtain ⟨huser, hhead, hlist, hstack, hheap, hstart, hend, hout, hroot, h4, h3, h2, h1, hrc⟩ :=
    hprop
  obtain ⟨G₀, hgood₀, -⟩ := smallMem_boot.start dataImage_ok (by decide) hk₀
  have hsafe : Safe k₀ (.sched (.sys .fork)) := ⟨trivial, trivial⟩
  obtain ⟨G, hgood, -⟩ := hgood₀.step hsafe hk
  refine ⟨k, G, .next (.start ⟨smallMem, dataImage, [], smallMem_boot, dataImage_ok, by decide,
    hk₀⟩) hsafe hk, hgood, huser, hhead, ⟨hlist, by decide, hstack, ?_⟩, hstart, hend, hout, ?_⟩
  · intro f hf
    obtain rfl | rfl : f = 14 ∨ f = 9 := by simpa using hf
    · exact hheap
    · rw [hstart, hend]
      decide
  · intro a ha
    have hidx : idx a 39 = 0 ∧ idx a 30 = 0 ∧ idx a 21 = 3 ∧ idx a 12 = 0 := by
      obtain rfl | rfl := ha <;> decide
    obtain ⟨h39, h30, h21, h12⟩ := hidx
    have f4 : frameOf (entry 0xB000 7) = 11 := by decide
    have f3 : frameOf (entry 0xC000 7) = 12 := by decide
    have f2 : frameOf (entry 0xD000 7) = 13 := by decide
    have hpresent : present (entry 0xB000 7) ∧ present (entry 0xC000 7) ∧
        present (entry 0xD000 7) ∧ present (entry 0xA000 0x205) := by decide
    obtain ⟨p4, p3, p2, p1⟩ := hpresent
    refine ⟨entry 0xA000 0x205, ?_, by decide, hrc⟩
    simp only [Mem.walk, hroot, h39, h30, h21, h12, h4, f4, h3, f3, h2, f2, h1, p4, p3, p2, p1,
      if_true]

/-- The shell writes to the second byte of its data. -/
theorem accepts_exactly_iff_data :
    ∃ k, Reachable System.step Safe BootStart k ∧
      AcceptsExactly k.mem k.cur 19 [14, 9] 0x600001 := by
  obtain ⟨k, G, hreach, hgood, huser, hhead, hlist, hstart, hend, -, hpages⟩ := dataImage_forked
  obtain ⟨w, hw, hcow, hrc⟩ := hpages 0x600001 (.inr rfl)
  have hiff := (accepts_exactly_iff k.mem G k.cur 19 [14, 9] 0x600001 w hgood.inv
    (hgood.cur_valid huser).root hlist (by decide) hw hcow (.inr hrc)).1
  refine ⟨k, hreach, hiff.mpr (fun _ => ⟨.inl ⟨9, by simp, ?_⟩, fun _ => hhead⟩)⟩
  rw [hstart, hend]
  decide

/-- It writes to the first byte, and is ended. -/
theorem first_byte_refused :
    ¬ ∀ k, Reachable System.step Safe BootStart k → k.inUser = true → ∀ s rest a w,
      StackFirst k.mem k.cur s rest → a / 4096 < userPages → k.mem.walk k.cur.root a = some w →
      cow w = true → k.mem.getrefcount (addrOf w) = 1 ∨ k.mem.getrefcount (addrOf w) = 2 →
        AcceptsExactly k.mem k.cur s rest a := by
  intro hall
  obtain ⟨k, G, hreach, hgood, huser, -, hlist, hstart, hend, hout, hpages⟩ := dataImage_forked
  obtain ⟨w, hw, hcow, hrc⟩ := hpages 0x600000 (.inl rfl)
  have hexact := hall k hreach huser 19 [14, 9] 0x600000 w hlist (by decide) hw hcow (.inr hrc)
  obtain ⟨m', w', hrun, -⟩ := hexact.1 (.inl ⟨9, by simp, by rw [hstart], by rw [hend]; decide⟩)
  rw [isr14_outside hout] at hrun
  cases hrun

end X86Kernel.Kern
