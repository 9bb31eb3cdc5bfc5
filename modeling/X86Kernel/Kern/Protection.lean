import X86Kernel.Kern.KernelHalf
import X86Kernel.Kern.Main

/-!
What user code can reach. The CPU is in user mode outside of the kernel, and the MMU
then asks for the user bit in every entry on the way. The entries of the kernel's
tables are written with flags 3, without this bit, those of a process with 7.
-/

namespace X86Kernel.Kern

open Lib Paging Proc

def user (e : Word) : Bool := e &&& 4 ≠ 0

def passes (e : Word) : Bool := present e && user e

/-- What the MMU does with an access of user code to `v`. -/
def userWalk (m : Mem) (pml4 v : Nat) : Option Word :=
  let e4 := m.word pml4 (idx v 39)
  if passes e4 then
    let e3 := m.word (frameOf e4) (idx v 30)
    if passes e3 then
      let e2 := m.word (frameOf e3) (idx v 21)
      if passes e2 then
        let e1 := m.word (frameOf e2) (idx v 12)
        if passes e1 then some e1 else none
      else none
    else none
  else none

@[simp] theorem user_entry (a : Nat) (flags : Word) : user (entry a flags) = user flags := by
  unfold user
  rw [entry_and_of_mask (by decide)]

theorem passes_tableWord (o : Option Nat) : passes (tableWord o) = present (tableWord o) := by
  cases o with
  | none => decide
  | some f =>
      simp only [passes, tableWord, user_entry, present_entry]
      decide

theorem passes_leafWord (o : Option Pte) : passes (leafWord o) = present (leafWord o) := by
  cases o with
  | none => decide
  | some e =>
      simp only [passes, leafWord, Pte.word, user_entry, present_entry]
      cases e.own <;> decide

section Walk

variable {m : Mem} {G : Ghost} {p v : Nat}

/-- Two walks see the low 48 bits of an address. -/
theorem idx_low (v : Nat) : idx (v % 2 ^ 48) 39 = idx v 39 ∧ idx (v % 2 ^ 48) 30 = idx v 30 ∧
    idx (v % 2 ^ 48) 21 = idx v 21 ∧ idx (v % 2 ^ 48) 12 = idx v 12 := by
  unfold idx
  omega

theorem walk_low (m : Mem) (p v : Nat) : m.walk p (v % 2 ^ 48) = m.walk p v := by
  obtain ⟨h39, h30, h21, h12⟩ := idx_low v
  unfold Mem.walk
  rw [h39, h30, h21, h12]

theorem userWalk_low (m : Mem) (p v : Nat) : userWalk m p (v % 2 ^ 48) = userWalk m p v := by
  obtain ⟨h39, h30, h21, h12⟩ := idx_low v
  unfold userWalk
  rw [h39, h30, h21, h12]

/-- Every page of a process is for user code, with the tables that lead to it. -/
theorem userWalk_eq (h : Inv m G) (hp : G.tab (p, 3, 0) = some p) (hv : v / 4096 < userPages) :
    userWalk m p v = m.walk p v := by
  unfold userWalk Mem.walk
  simp only [idx_39, idx_30, idx_21, idx_12]
  generalize v / 4096 = n at *
  rw [h.word_top hp hv, passes_tableWord]
  cases h2 : G.tab (p, 2, n / 134217728) with
  | none => simp
  | some t2 =>
      rw [tableWord_some_frame (h.tab_lt h2), h.word_dir h2 hv, passes_tableWord]
      cases h1 : G.tab (p, 1, n / 262144) with
      | none => simp
      | some t1 =>
          rw [tableWord_some_frame (h.tab_lt h1), h.word_mid h1 hv, passes_tableWord]
          cases h0 : G.tab (p, 0, n / 512) with
          | none => simp
          | some t0 =>
              rw [tableWord_some_frame (h.tab_lt h0), h.word_page h0, passes_leafWord]

end Walk

/-- No entry of the kernel's PDPT is for user code. -/
def SupervisorOnly (m : Mem) : Prop :=
  ∀ i, user (m.word (frameOf (m.word m.kpml4 511)) i) = false

section Boot

variable {m m' : Mem}

def NoUser (m : Mem) : Prop := ∀ f i, user (m.word f i) = false

theorem NoUser.setEntry (h : NoUser m) (p i a : Nat) : NoUser (m.setEntry p i a) := by
  intro f j
  rw [Mem.setEntry, Mem.set_word]
  split_ifs
  · rw [user_entry]
    decide
  · exact h f j

theorem NoUser.alloc (h : NoUser m) {a : Nat} (hrun : m.allocatePage = some (a, m')) :
    NoUser m' := by
  obtain ⟨-, -, -, hw, -⟩ := Mem.allocatePage_eq hrun
  intro f i
  rw [hw]
  exact h f i

theorem NoUser.mapNext (h : NoUser m) {pde physbase pte pte' j : Nat}
    (hrun : Mem.mapNext pde physbase (pte, m) j = some (pte', m')) : NoUser m' := by
  unfold Mem.mapNext at hrun
  dsimp only at hrun
  split_ifs at hrun
  · obtain ⟨-, rfl⟩ := Prod.mk.inj (Option.some.inj hrun)
    exact h.setEntry _ _ _
  · obtain ⟨⟨a, m₁⟩, halloc, hrun⟩ := Option.bind_eq_some_iff.mp hrun
    obtain ⟨-, rfl⟩ := Prod.mk.inj (Option.some.inj hrun)
    exact ((h.alloc halloc).setEntry _ _ _).setEntry _ _ _

/-- `init_ia32e_paging` writes the kernel's tables for the kernel only. -/
theorem NoUser.init (h : NoUser m) {physbase physfree : Nat} {P : Pointers}
    (hrun : m.initIa32ePaging physbase physfree = some (P, m')) : NoUser m' := by
  obtain ⟨⟨pml4e, m₁⟩, h₁, hrun⟩ := Option.bind_eq_some_iff.mp hrun
  obtain ⟨⟨pdpte, m₂⟩, h₂, hrun⟩ := Option.bind_eq_some_iff.mp hrun
  obtain ⟨⟨pde, m₃⟩, h₃, hrun⟩ := Option.bind_eq_some_iff.mp hrun
  obtain ⟨⟨pte, m₄⟩, h₄, hrun⟩ := Option.bind_eq_some_iff.mp hrun
  obtain ⟨⟨last, m₅⟩, h₅, hrun⟩ := Option.bind_eq_some_iff.mp hrun
  obtain ⟨-, rfl⟩ := Prod.mk.inj (Option.some.inj hrun)
  have hstart := ((((h.alloc h₁).alloc h₂).alloc h₃).alloc h₄)
  have hloop : NoUser m₅ := by
    refine foldlM_range_invariant (P := fun _ s => NoUser s.2) h₅ ?_ ?_
    · exact ((hstart.setEntry _ _ _).setEntry _ _ _).setEntry _ _ _
    · rintro j ⟨a, m⟩ ⟨b, m'⟩ - hm hbody
      exact hm.mapNext hbody
  have hroot : NoUser ({ m₅ with kpml4 := pml4e / 4096 } : Mem) := hloop
  exact (((hroot.setEntry _ _ _).setEntry _ _ _).setEntry _ _ _).setEntry _ _ _

theorem memMapPage_word (physfree limit : Nat) (st : Mem × Option Nat) (ptr : Nat) :
    (memMapPage physfree limit st ptr).1.word = st.1.word := by
  unfold memMapPage
  dsimp only
  split_ifs
  · cases st.1.head with
    | none => rfl
    | some b => cases st.2 <;> rfl
  · rfl

theorem memMap_word (m : Mem) (sm : Smap) (physfree : Nat) :
    (memMap m sm physfree).word = m.word := by
  unfold memMap
  generalize (sm.length + 4095) / 4096 = pages
  induction pages with
  | zero => rfl
  | succ n ih =>
      rw [List.range_succ, List.foldl_append, List.foldl_cons, List.foldl_nil, memMapPage_word, ih]

theorem memMaps_word (m : Mem) (regs : List Smap) (physfree : Nat) :
    (memMaps m regs physfree).word = m.word := by
  induction regs generalizing m with
  | nil => rfl
  | cons sm regs ih =>
      have hrest := ih (memMap m sm physfree)
      rw [memMap_word] at hrest
      rw [← hrest, memMaps, memMaps, List.foldl_cons]

end Boot

/-- A machine whose memory is clear before `start` has a kernel for supervisors only. -/
theorem start_supervisorOnly {w : Main.Words} {n physfree modulep : Nat}
    (hfind : Main.findModule w n 0 = some modulep) (hmap : MemoryMap (Main.regions w modulep))
    (hasc : Main.Ascending (Main.regions w modulep))
    (henough : 4 + (Main.lastEnd (Main.regions w modulep) / 4096 + 511) / 512 ≤
      (firstUsable physfree (Main.regions w modulep)).length)
    (hroom : 1 ≤ Main.lastEnd (Main.regions w modulep) / 4096 % 512 ∧
      Main.lastEnd (Main.regions w modulep) / 4096 % 512 ≤ 507) :
    ∃ m₀, Boot m₀ ∧ SupervisorOnly m₀ ∧
      ∀ img name, Main.start w n physfree (fun _ _ => 0) img name = System.start m₀ img name := by
  obtain ⟨P, m₀, hinit, hboot, hstart⟩ :=
    Main.start_eq (fun _ _ => 0) hfind hmap hasc henough hroom
  have hclear : NoUser (memMaps (blankMem fun _ _ => 0) (Main.regions w modulep) physfree) := by
    intro f i
    rw [memMaps_word]
    change user 0 = false
    decide
  exact ⟨m₀, hboot, fun i => hclear.init hinit _ i, hstart⟩

section Run

variable {m₀ : Mem} {k : System} {G : Ghost} {i v : Nat}

/-- The kernel's half is closed to user code. -/
theorem Good.userWalk_kernel (h : Good m₀ k G) (hshares : SharesKernel m₀ k)
    (hsup : SupervisorOnly m₀) (hi : k.InUse i) (hv : idx v 39 = 511) :
    userWalk k.mem (k.space i).root v = none := by
  have hentry : k.mem.word (k.space i).root 511 = k.mem.kernelEntry := by
    rw [hshares i hi, h.kernelEntry hi]
  have hkp := h.inv.kpml4_kernel (h.valid i hi).root
  -- the PDPT is a frame of the kernel, so it is what it was at boot
  have hpdpt : ∀ j, user (k.mem.word (frameOf k.mem.kernelEntry) j) = false := by
    have hrole : G.role (k.space i).root ≠ .kernel := by simp [h.root_role hi]
    obtain ⟨-, -, -, -, hkernel, -⟩ := h.inv.linear _ hrole
    have h39 : idx (kernBase + (k.space i).root * 4096) 39 = 511 := by
      have hlt := (h.inv.pool.managed _ hrole).1
      unfold idx kernBase
      simp only [capacity] at hlt
      omega
    rw [h39] at hkernel
    intro j
    rw [frameOf_kernelEntry, h.kword _ hkernel, h.kword _ hkp, h.kpml4]
    exact hsup j
  unfold userWalk
  dsimp only
  rw [hv, hentry]
  simp [passes, hpdpt]

/-- The rest of an address space is open to it. -/
theorem Good.userWalk_page (h : Good m₀ k G) (hi : k.InUse i) (hv : idx v 39 ≠ 511) :
    v % 2 ^ 48 / 4096 < userPages ∧
      userWalk k.mem (k.space i).root v = k.mem.walk (k.space i).root v := by
  have hpage : v % 2 ^ 48 / 4096 < userPages := by
    unfold idx at hv
    simp only [userPages]
    omega
  rw [← userWalk_low, ← walk_low]
  exact ⟨hpage, userWalk_eq h.inv (h.valid i hi).root hpage⟩

end Run

/-- User code is confined. When the kernel's tables are for supervisors only at boot, then
in every state that safe steps lead to the MMU refuses a process every address of the
kernel's half, shows it its own pages everywhere else, and leads it to frames that were
free at boot and are pages of processes, never tables or nodes. -/
theorem user_mode_confined (m₀ : Mem) (hsup : SupervisorOnly m₀) (k : System)
    (h : Reachable System.step Safe (BootFrom m₀) k) (i v : Nat) (hi : k.InUse i) :
    (idx v 39 = 511 → userWalk k.mem (k.space i).root v = none) ∧
    (idx v 39 ≠ 511 → userWalk k.mem (k.space i).root v = k.mem.walk (k.space i).root v) ∧
    ∀ e, userWalk k.mem (k.space i).root v = some e → OnFreeList m₀ (frameOf e) ∧
      k.Uses (frameOf e) (.page i (v % 2 ^ 48 / 4096)) ∧
      ∀ u, k.Uses (frameOf e) u → ∃ i' n', u = .page i' n' := by
  obtain ⟨G, hgood, hshares⟩ := BootFrom.sharesKernel h
  refine ⟨hgood.userWalk_kernel hshares hsup hi, fun hv => (hgood.userWalk_page hi hv).2, ?_⟩
  intro e he
  have hv : idx v 39 ≠ 511 := by
    intro hcon
    rw [hgood.userWalk_kernel hshares hsup hi hcon] at he
    cases he
  obtain ⟨hpage, hwalk⟩ := hgood.userWalk_page hi hv
  rw [he, ← walk_low, hgood.inv.walk (hgood.valid i hi).root hpage] at hwalk
  obtain ⟨x, hx, rfl⟩ := Option.map_eq_some_iff.mp hwalk.symm
  rw [Pte.frameOf_word (hgood.inv.leaf_lt hx)]
  have hrole := hgood.inv.refs.target _ x hx
  refine ⟨?_, ?_, ?_⟩
  · by_contra hcon
    have hkernel := (hgood.kernel x.frame).mpr hcon
    rw [hrole] at hkernel
    cases hkernel
  · exact (uses_page hgood _ i _).mpr ⟨hi, by rw [Ghost.mapped, hx, Option.map_some]⟩
  · intro u hu
    obtain ⟨i', n', rfl, -⟩ | ⟨i', d, key, -, -, -, hcon⟩ | ⟨i', j, -, -, hcon⟩ :=
      Uses.role hgood hu
    · exact ⟨i', n', rfl⟩
    · rw [hrole] at hcon
      cases hcon
    · rw [hrole] at hcon
      cases hcon

/-- The shell of the small machine, at an address of the kernel's and at its own stack. -/
theorem user_mode_confined_shell :
    ∃ k e, Reachable System.step Safe (BootFrom smallMem) k ∧
      userWalk k.mem (k.space 2).root kernBase = none ∧
      userWalk k.mem (k.space 2).root stackStart = some e ∧ OnFreeList smallMem (frameOf e) ∧
      k.Uses (frameOf e) (.page 2 (stackStart % 2 ^ 48 / 4096)) ∧
      ∀ u, k.Uses (frameOf e) u → ∃ i' n', u = .page i' n' := by
  have hsup : SupervisorOnly smallMem := by
    intro i
    change user (if i = 510 then entry 12288 3 else 0) = false
    split_ifs <;> decide
  have hrun : ((System.start smallMem emptyImage []).bind fun k =>
      (userWalk k.mem (k.space 2).root stackStart).map fun e => (k, e)).isSome = true := by
    decide +kernel
  obtain ⟨⟨k, e⟩, hke⟩ := Option.isSome_iff_exists.mp hrun
  obtain ⟨k₀, hk, hke⟩ := Option.bind_eq_some_iff.mp hke
  obtain ⟨e₀, he, heq⟩ := Option.map_eq_some_iff.mp hke
  obtain ⟨rfl, rfl⟩ := Prod.mk.inj heq
  have hstart : Reachable System.step Safe (BootFrom smallMem) k₀ :=
    .start ⟨smallMem_boot, emptyImage, [], emptyImage_ok, by decide, hk⟩
  obtain ⟨G, -, hsched, -⟩ := smallMem_boot.start emptyImage_ok (by decide) hk
  have huse : k₀.InUse 2 := (boot_inUse hsched 2).mpr rfl
  exact ⟨k₀, e₀, hstart,
    (user_mode_confined smallMem hsup k₀ hstart 2 kernBase huse).1 (by decide +kernel), he,
    (user_mode_confined smallMem hsup k₀ hstart 2 stackStart huse).2.2 e₀ he⟩

end X86Kernel.Kern
