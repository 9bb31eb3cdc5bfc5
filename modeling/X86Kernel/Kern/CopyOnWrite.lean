import X86Kernel.Kern.Start

/-!
Copy-on-write against the model it stands for: a `fork` that copies the whole
user memory of the parent, and writes that change the memory of the writer
only. The two run side by side; what a process sees through its page tables is
its memory in the reference.
-/

namespace X86Kernel.Kern

open Lib Paging Proc

/-- The reference. Every process has its own bytes, `none` where nothing is
mapped, and the end of its heap. -/
structure Ref where
  bytes : Nat → Nat → Option Byte
  brk : Nat → Nat

def Ref.fork (ref : Ref) (parent child : Nat) : Ref where
  bytes := Function.update ref.bytes child (ref.bytes parent)
  brk := Function.update ref.brk child (ref.brk parent)

def Ref.write (ref : Ref) (r a : Nat) (b : Byte) : Ref :=
  { ref with bytes := Function.update ref.bytes r (Function.update (ref.bytes r) a (some b)) }

/-- New pages at the end of the heap; `fresh` is what they hold. -/
def Ref.malloc (ref : Ref) (r pages : Nat) (fresh : Nat → Option Byte) : Ref where
  bytes := Function.update ref.bytes r fun a =>
    if ref.brk r ≤ a ∧ a < ref.brk r + 4096 * pages then fresh a else ref.bytes r a
  brk := Function.update ref.brk r (ref.brk r + 4096 * pages)

/-- The reference's part of a step from `k` to `k'`. A write is not done when
it was the end of its process, and the bytes of fresh pages are taken over. -/
def Ref.step (ref : Ref) (k k' : System) : Action → Ref
  | .sched (.sys .fork) =>
      match newPID k.sched.q with
      | some pid => ref.fork k.sched.r pid
      | none => ref
  | .malloc bytes =>
      ref.malloc k.sched.r (mallocPages bytes) (k'.mem.load k'.cur.root)
  | .write a b => if k'.hung k.sched.r then ref else ref.write k.sched.r a b
  | _ => ref

structure Joint where
  kern : System
  ref : Ref

def Joint.step (j : Joint) (act : Action) : Option Joint :=
  (j.kern.step act).map fun k' => { kern := k', ref := j.ref.step j.kern k' act }

/-- `fork` with a free slot, `malloc`, writes to mapped user pages, and every
step of the scheduler but `kill`. -/
def CowStep (j : Joint) : Action → Prop
  | .sched (.sys .fork) => newPID j.kern.sched.q ≠ none
  | .sched (.sys (.kill _)) => False
  | .sched _ => True
  | .malloc _ => True
  | .write a _ => a / 4096 < userPages ∧ (j.kern.mem.walk j.kern.cur.root a).isSome
  | .exec _ _ => False
  | .read _ => False

/-- What `create_process` leaves, with the same bytes on both sides. -/
def CowStart (j : Joint) : Prop :=
  ∃ m₀ img name, Boot m₀ ∧ img.Ok ∧ name.length < 50 ∧
    System.start m₀ img name = some j.kern ∧
    j.ref = { bytes := fun i => j.kern.mem.load (j.kern.space i).root, brk := fun _ => heapStart }

def Agree (j : Joint) : Prop :=
  ∀ i, j.kern.InUse i → brk j.kern.mem (j.kern.space i) = j.ref.brk i ∧
    ∀ a, a / 4096 < userPages →
      j.kern.mem.load (j.kern.space i).root a = j.ref.bytes i a

theorem CowStep.safe {j : Joint} {act : Action} (h : CowStep j act) : Safe j.kern act := by
  cases act with
  | sched e =>
      cases e with
      | sys call =>
          cases call with
          | kill pid => exact h.elim
          | _ => exact ⟨trivial, trivial⟩
      | _ => exact ⟨trivial, trivial⟩
  | malloc bytes => trivial
  | write a b => exact ⟨h.1, Or.inl h.2⟩
  | exec img args => exact h.elim
  | read a => exact h.elim

theorem Ref.step_sched (ref : Ref) (k k' : System) {e : Proc.Event} (h : e ≠ .sys .fork) :
    ref.step k k' (.sched e) = ref := by
  unfold Ref.step
  split
  · rename_i heq
    exact absurd (Action.sched.inj heq) h
  · rename_i heq
    cases heq
  · rename_i heq
    cases heq
  · rfl

section Agree

variable {m₀ : Mem} {k : System} {ref : Ref} {G G' : Ghost}

/-- What happens in another space does not disturb the agreement. -/
theorem Agree.frame (hA : Agree ⟨k, ref⟩) (h : Good m₀ k G) {m : Mem} {p : Nat} (hI : Inv m G')
    (hF : Frame (· = p) k.mem G m G') {i : Nat} (hi : k.InUse i) (hne : (k.space i).root ≠ p) :
    brk m (k.space i) = ref.brk i ∧ ∀ a, a / 4096 < userPages →
      m.load (k.space i).root a = ref.bytes i a := by
  obtain ⟨hbrk, hload⟩ := hA i hi
  have hv := h.valid i hi
  refine ⟨by rw [(hv.frame h.inv hF hne).2, hbrk], ?_⟩
  intro a ha
  rw [hF.load h.inv hI hne hv.root ha]
  exact hload a ha

/-- The child sees what its parent saw. -/
theorem load_child {m : Mem} {c : Space} (h : Good m₀ k G) (huser : k.inUser = true)
    (hI : Inv m G') (hv : Valid m G' c) (hfree : G.role c.root = .free)
    (hF : Frame (· = c.root) k.mem G m G')
    (hleaf : ∀ q n, G'.leaf (q, n) = if q = k.cur.root ∨ q = c.root then
      (G.leaf (k.cur.root, n)).map Pte.share else G.leaf (q, n)) {a : Nat}
    (ha : a / 4096 < userPages) : m.load c.root a = k.mem.load k.cur.root a := by
  have hne : k.cur.root ≠ c.root := by
    intro hcon
    have hrole := (h.inv.trees.role _ _ _ _).mp (h.cur_valid huser).root
    rw [hcon, hfree] at hrole
    cases hrole
  have hmap : G'.mapped (c.root, a / 4096) = G.mapped (k.cur.root, a / 4096) := by
    unfold Ghost.mapped
    rw [hleaf, if_pos (Or.inr rfl), Option.map_map]
    rfl
  rw [hI.load hv.root ha, h.inv.load (h.cur_valid huser).root ha, hmap]
  cases hf : G.mapped (k.cur.root, a / 4096) with
  | none => rfl
  | some f => simp [hF.data _ _ f hne hf]

/-- Both sides take a step, and still agree. -/
theorem Agree.step (hA : Agree ⟨k, ref⟩) (h : Good m₀ k G) {act : Action} {k' : System}
    (hok : CowStep ⟨k, ref⟩ act) (h' : Good m₀ k' G') (hE : Effect k G act k' G') :
    Agree ⟨k', ref.step k k' act⟩ := by
  cases hE with
  | fork huser hfree hv hbrk hF hheld hleaf huse hnew =>
      rename_i s c m
      intro i hi
      have hI := h'.inv
      rw [forked_mem] at hI
      obtain ⟨pid, hpid⟩ := Option.ne_none_iff_exists'.mp hok
      simp only [Ref.step, hpid, forked_mem, forked_space, Option.some.injEq, Ref.fork]
      by_cases hip : pid = i
      · subst hip
        simp only [if_true, Function.update_self]
        obtain ⟨hb, hl⟩ := hA _ (h.cur_inUse huser)
        refine ⟨by rw [hbrk]; exact hb, ?_⟩
        intro a ha
        rw [load_child h huser hI hv hfree hF hleaf ha]
        exact hl a ha
      · have hold := ((huse i).mp hi).resolve_right (by simpa [hpid] using hip)
        rw [if_neg hip, Function.update_of_ne (Ne.symm hip), Function.update_of_ne (Ne.symm hip)]
        refine hA.frame h hI hF hold ?_
        intro hcon
        have hrole := h.root_role hold
        rw [hcon, hfree] at hrole
        cases hrole
  | reap hfork hreap hi hF hheld htab hleaf huse =>
      rename_i e s i m
      rw [Ref.step_sched _ _ _ hfork]
      intro j hj
      obtain ⟨hj, hji⟩ := (huse j).mp hj
      exact hA.frame h h'.inv hF hj (fun hcon => hji (h.distinct j i hj hi hcon))
  | quiet hfork hreap huse =>
      rw [Ref.step_sched _ _ _ hfork]
      intro j hj
      exact hA j ((huse j).mp hj)
  | exec => exact hok.elim
  | read => exact hok.elim
  | malloc huser hB hv hbrk hload =>
      rename_i bytes m
      intro i hi
      simp only [Ref.step, Ref.malloc]
      by_cases hir : i = k.sched.r
      · subst hir
        obtain ⟨hb, hl⟩ := hA _ (h.cur_inUse huser)
        have hb' : brk k.mem k.cur = ref.brk k.sched.r := hb
        simp only [Function.update_self]
        refine ⟨by rw [← hb']; exact hbrk, ?_⟩
        intro a ha
        rw [← hb', ← hbrk]
        split_ifs with hnew
        · rfl
        · have hsame := hload a ha hnew
          exact hsame.trans (hl a ha)
      · rw [Function.update_of_ne hir, Function.update_of_ne hir]
        exact hA.frame h hB.inv hB.frame hi (h.root_ne huser hi hir)
  | write huser hB hbrk hload =>
      rename_i a b m
      have hhung : k.hung k.sched.r = false := by
        unfold System.inUser at huser
        simp only [decide_eq_true_eq] at huser
        exact huser.2
      have hmapped : G.leaf (k.cur.root, a / 4096) ≠ none := by
        intro hnone
        have hwalk : (k.mem.walk k.cur.root a).isSome = true := hok.2
        rw [h.inv.walk (h.cur_valid huser).root hok.1, hnone] at hwalk
        simp at hwalk
      intro i hi
      simp only [Ref.step, hhung, Bool.false_eq_true, if_false, Ref.write]
      by_cases hir : i = k.sched.r
      · subst hir
        obtain ⟨hb, hl⟩ := hA _ (h.cur_inUse huser)
        refine ⟨hbrk.trans hb, ?_⟩
        intro v hv
        simp only [Function.update_self, Function.update_apply]
        have hstep := hload hmapped v hv
        refine hstep.trans ?_
        split_ifs with hva
        · rfl
        · exact hl v hv
      · rw [Function.update_of_ne hir]
        exact hA.frame h hB.inv hB.frame hi (h.root_ne huser hi hir)
  | segv huser hact huse =>
      obtain ⟨a, b, rfl⟩ | ⟨a, rfl⟩ := hact
      · intro i hi
        simp only [Ref.step, Function.update_self, if_true]
        exact hA i ((huse i).mp hi)
      · exact hok.elim
  | stuck huser hact =>
      obtain ⟨a, b, rfl⟩ | ⟨a, rfl⟩ := hact
      · intro i hi
        simp only [Ref.step, Function.update_self, if_true]
        exact hA i hi
      · exact hok.elim

end Agree

/-- Copy-on-write refines eager copying: at every point of every run, a live
process sees at every user address the byte of its own memory in the
reference. -/
theorem cow_refines_eager_copy (j : Joint) (h : Reachable Joint.step CowStep CowStart j) (i : Nat)
    (hi : 2 ≤ i) (hlive : (j.kern.sched.q i).state.live) (a : Nat) (ha : a / 4096 < userPages) :
    j.kern.mem.load (j.kern.space i).root a = j.ref.bytes i a := by
  have hinv : (∃ m₀ G, Good m₀ j.kern G) ∧ Agree j := by
    refine h.invariant (P := fun j => (∃ m₀ G, Good m₀ j.kern G) ∧ Agree j) ?_ ?_
    · rintro ⟨k, ref⟩ ⟨m₀, img, name, hboot, hok, hname, hrun, href⟩
      obtain ⟨G, hgood, hsched, -, hbrk⟩ := hboot.start hok hname hrun
      refine ⟨⟨m₀, G, hgood⟩, ?_⟩
      intro i hi
      obtain rfl := (boot_inUse hsched i).mp hi
      rw [href]
      exact ⟨hbrk, fun _ _ => rfl⟩
    · rintro ⟨k, ref⟩ act ⟨k', ref'⟩ ⟨⟨m₀, G, hgood⟩, hagree⟩ hok hstep
      obtain ⟨k₁, hk, heq⟩ := Option.map_eq_some_iff.mp hstep
      obtain ⟨rfl, rfl⟩ := Joint.mk.inj heq
      obtain ⟨G', hgood', heffect⟩ := hgood.step hok.safe hk
      exact ⟨⟨m₀, G', hgood'⟩, hagree.step hgood hok hgood' heffect⟩
  have huse : j.kern.InUse i := by
    refine ⟨hi, ?_⟩
    intro hcon
    simp [hcon, PState.live] at hlive
  exact (hinv.2 i huse).2 a ha

/-- The shell forks and writes to its stack; the child keeps the old byte. -/
theorem cow_refines_eager_copy_child :
    ∃ j, Reachable Joint.step CowStep CowStart j ∧ (j.kern.sched.q 3).state.live ∧
      j.ref.bytes 2 stackStart = some 7 ∧
      j.kern.mem.load (j.kern.space 3).root stackStart = j.ref.bytes 3 stackStart := by
  have hrun : ((System.start smallMem emptyImage []).bind fun k =>
      (Joint.step ⟨k, ⟨fun i => k.mem.load (k.space i).root, fun _ => heapStart⟩⟩
        (.sched (.sys .fork))).bind fun j =>
      if (newPID k.sched.q).isSome ∧ (j.kern.mem.walk j.kern.cur.root stackStart).isSome then
        j.step (.write stackStart 7) else none).any (fun j =>
      decide ((j.kern.sched.q 3).state.live ∧ j.ref.bytes 2 stackStart = some 7)) = true := by
    decide +kernel
  obtain ⟨j, hj, hprop⟩ := (Option.any_eq_true _ _).mp hrun
  obtain ⟨k, hk, hj⟩ := Option.bind_eq_some_iff.mp hj
  obtain ⟨j₁, hfork, hj⟩ := Option.bind_eq_some_iff.mp hj
  split_ifs at hj with hok
  obtain ⟨hlive, hbyte⟩ : (j.kern.sched.q 3).state.live ∧ j.ref.bytes 2 stackStart = some 7 := by
    simpa using hprop
  have hstart : Reachable Joint.step CowStep CowStart
      ⟨k, ⟨fun i => k.mem.load (k.space i).root, fun _ => heapStart⟩⟩ :=
    .start ⟨smallMem, emptyImage, [], smallMem_boot, emptyImage_ok, by decide, hk, rfl⟩
  have hreach₁ := hstart.next (e := Action.sched (.sys .fork))
    (Option.isSome_iff_ne_none.mp hok.1) hfork
  have hreach := hreach₁.next (e := Action.write stackStart 7) ⟨by decide, hok.2⟩ hj
  exact ⟨j, hreach, hlive, hbyte,
    cow_refines_eager_copy j hreach 3 (by decide) hlive stackStart (by decide)⟩

end X86Kernel.Kern
