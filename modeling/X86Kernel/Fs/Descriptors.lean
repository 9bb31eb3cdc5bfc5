import X86Kernel.Fs.Tarfs
import X86Kernel.Proc.Slots

/-!
Descriptors of all processes. A slot of the process table keeps its descriptor
table and its counter when a process dies and another one is forked into it:
`fork` copies the current directory only, and nothing ever resets `fd_c`.
-/

namespace X86Kernel.Fs

open Lib Proc

structure System where
  sched : Sched
  files : Nat → Files

inductive Action where
  | sched (e : Proc.Event)
  | call (c : Call)

/-- What `copytask` copies of the files of a task. -/
def copytask (r c : Files) : Files := { c with currDir := r.currDir }

def System.forked (k : System) (e : Proc.Event) : Nat → Files := fun i =>
  if forks k.sched e = some i then copytask (k.files k.sched.r) (k.files i) else k.files i

def System.step (A : Archive) (k : System) : Action → Option System
  | .sched e => (k.sched.step e).map fun s => { sched := s, files := k.forked e }
  | .call c =>
      if k.sched.mode = .user then
        some { k with files :=
          Function.update k.files k.sched.r ((k.files k.sched.r).call A c).2 }
      else none

def System.cur (k : System) : Files := k.files k.sched.r

/-- `init_proc` has set every `fd_c` to 0. -/
def System.Boot (k : System) : Prop := k.sched = boot ∧ ∀ i, (k.files i).fdC = 0

/-- The machine with its history: how many files were opened in every slot
since boot, and the descriptors that the process in a slot has opened and not
closed. -/
structure Usage where
  sys : System
  opens : Nat → Nat
  held : Nat → List Int

def Usage.record (A : Archive) (u : Usage) (c : Call) : Usage :=
  let r := u.sys.sched.r
  if u.sys.cur.opens A c then
    { u with opens := Function.update u.opens r (u.opens r + 1)
             held := Function.update u.held r ((u.sys.cur.call A c).1.ret :: u.held r) }
  else
    match c with
    | .closeTarfs fp => { u with held := Function.update u.held r ((u.held r).erase fp) }
    | _ => u

def Usage.step (A : Archive) (u : Usage) (act : Action) : Option Usage :=
  (u.sys.step A act).map fun k =>
    match act with
    | .call c => { u.record A c with sys := k }
    | .sched e =>
        { u with sys := k
                 held := fun i => if forks u.sys.sched e = some i then [] else u.held i }

def UsageStart (u : Usage) : Prop :=
  u.sys.Boot ∧ (∀ i, u.opens i = 0) ∧ ∀ i, u.held i = []

/-- Opens are of existing paths, with at most 20 descriptors open at a time, and
the other calls are about descriptors the process has opened. -/
def Orderly (A : Archive) (u : Usage) : Action → Prop
  | .sched _ => True
  | .call (.readTarfs fd _) | .call (.readdirTarfs fd) | .call (.closeTarfs fd) =>
      fd ∈ u.held u.sys.sched.r
  | .call c => u.sys.cur.opens A c = true ∧ (u.held u.sys.sched.r).length < 20

/-- No slot opens more than 22 files, whoever is in it. -/
def OpensFew (A : Archive) (u : Usage) : Action → Prop
  | .call c => u.sys.cur.opens A c = true → u.opens u.sys.sched.r < 22
  | .sched _ => True

/-- Every index the call uses on `r->fd`, and every descriptor an open returns,
is in the table and behind the three standard descriptors. -/
def InTable (A : Archive) (f : Files) (c : Call) : Prop :=
  (∀ j ∈ f.indices A c, 3 ≤ j ∧ j ≤ 24) ∧
    (f.opens A c = true → 3 ≤ (f.call A c).1.ret ∧ (f.call A c).1.ret ≤ 24)

structure Tracked (u : Usage) : Prop where
  count : ∀ i, (u.sys.files i).fdC = u.opens i
  held : ∀ i, ∀ d ∈ u.held i, 3 ≤ d ∧ d ≤ 24

theorem forked_fdC (k : System) (e : Proc.Event) (i : Nat) :
    (k.forked e i).fdC = (k.files i).fdC := by
  unfold System.forked
  split_ifs <;> rfl

theorem Tracked.sched {A : Archive} {u u' : Usage} (h : Tracked u) {e : Proc.Event}
    (hstep : u.step A (.sched e) = some u') : Tracked u' := by
  obtain ⟨k, hk, rfl⟩ := Option.map_eq_some_iff.mp hstep
  obtain ⟨s, -, rfl⟩ := Option.map_eq_some_iff.mp hk
  refine ⟨?_, ?_⟩
  · intro i
    exact (forked_fdC u.sys e i).trans (h.count i)
  · intro i d hd
    simp only at hd
    split_ifs at hd
    · simp at hd
    · exact h.held i d hd

/-- The counter and the record of the current process after a call. -/
theorem Tracked.call {A : Archive} {u u' : Usage} (h : Tracked u) {c : Call}
    (hfew : OpensFew A u (.call c)) (hstep : u.step A (.call c) = some u') : Tracked u' := by
  obtain ⟨k, hk, rfl⟩ := Option.map_eq_some_iff.mp hstep
  simp only [System.step] at hk
  split_ifs at hk
  obtain rfl := Option.some.inj hk
  have hcur : u.sys.cur.fdC = u.opens u.sys.sched.r := h.count u.sys.sched.r
  by_cases hopen : u.sys.cur.opens A c = true
  · obtain ⟨hret, hfdc⟩ := Files.call_opens hopen
    have hlt := hfew hopen
    simp only [Usage.record, hopen, if_true]
    refine ⟨?_, ?_⟩
    · intro i
      by_cases hi : i = u.sys.sched.r
      · subst hi
        simp only [Function.update_self]
        refine hfdc.trans ?_
        rw [hcur]
        push_cast
        rfl
      · simp only [Function.update_of_ne hi]
        exact h.count i
    · intro i d hd
      by_cases hi : i = u.sys.sched.r
      · subst hi
        simp only [Function.update_self, List.mem_cons] at hd
        obtain rfl | hd := hd
        · omega
        · exact h.held _ d hd
      · simp only [Function.update_of_ne hi] at hd
        exact h.held i d hd
  · have hclosed : u.sys.cur.opens A c = false := by simpa using hopen
    have hfdc := Files.call_not_opens hclosed
    have hrecord : (u.record A c).opens = u.opens ∧
        ∀ i, ∀ d ∈ (u.record A c).held i, d ∈ u.held i := by
      simp only [Usage.record, hopen, Bool.false_eq_true, if_false]
      split
      · refine ⟨rfl, ?_⟩
        intro i d hd
        by_cases hi : i = u.sys.sched.r
        · subst hi
          simp only [Function.update_self] at hd
          exact List.mem_of_mem_erase hd
        · simpa [Function.update_of_ne hi] using hd
      · exact ⟨rfl, fun _ _ hd => hd⟩
    refine ⟨?_, fun i d hd => h.held i d (hrecord.2 i d hd)⟩
    intro i
    simp only [hrecord.1]
    by_cases hi : i = u.sys.sched.r
    · subst hi
      simp only [Function.update_self]
      exact hfdc.trans hcur
    · simp only [Function.update_of_ne hi]
      exact h.count i

theorem Tracked.step {A : Archive} {u u' : Usage} (h : Tracked u) {act : Action}
    (hfew : OpensFew A u act) (hstep : u.step A act = some u') : Tracked u' := by
  cases act with
  | sched e => exact h.sched hstep
  | call c => exact h.call hfew hstep

/-- Descriptor numbers stay inside the table as long as no slot opens more than
22 files since boot, whoever is in it: in every state such a run reaches, an
orderly call stays inside the table exactly when it does not open a 23rd. -/
theorem descriptors_in_table (A : Archive) (u : Usage)
    (h : Reachable (Usage.step A) (fun u act => Orderly A u act ∧ OpensFew A u act) UsageStart u)
    (c : Call) (hc : Orderly A u (.call c)) :
    InTable A u.sys.cur c ↔ OpensFew A u (.call c) := by
  have htrack : Tracked u := by
    refine h.invariant (P := Tracked) ?_ (fun a e b ha hok hstep => ha.step hok.2 hstep)
    rintro u ⟨⟨-, hfdc⟩, hopens, hheld⟩
    exact ⟨fun i => by rw [hfdc, hopens]; rfl, fun i d hd => by simp [hheld] at hd⟩
  have hcount : u.sys.cur.fdC = u.opens u.sys.sched.r := htrack.count u.sys.sched.r
  have hopen : ∀ c, u.sys.cur.opens A c = true → u.sys.cur.indices A c = [u.sys.cur.fdC + 3] →
      (InTable A u.sys.cur c ↔ OpensFew A u (.call c)) := by
    intro c hc hidx
    have hret := (Files.call_opens hc).1
    simp only [InTable, OpensFew, hc, hidx, hret, List.mem_singleton, forall_eq, true_imp_iff]
    omega
  have hother : ∀ c fd, u.sys.cur.opens A c = false → u.sys.cur.indices A c = [fd] →
      fd ∈ u.held u.sys.sched.r → (InTable A u.sys.cur c ↔ OpensFew A u (.call c)) := by
    intro c fd hc hidx hfd
    have hbound := htrack.held _ fd hfd
    simp only [InTable, OpensFew, hc, hidx, List.mem_singleton, forall_eq]
    simpa using hbound
  cases c with
  | openTarfs path flags around => exact hopen _ hc.1 (by simp [Files.indices, hc.1])
  | openDir path around => exact hopen _ hc.1 (by simp [Files.indices, hc.1])
  | readTarfs fd count => exact hother _ fd rfl rfl hc
  | readdirTarfs fd => exact hother _ fd rfl rfl hc
  | closeTarfs fp => exact hother _ fp rfl rfl hc

def noFile : FileT :=
  { fd := 0, fileName := [], aval := 0, offset := 0, entry := 0, flags := 0, size := 0,
    address := 0 }

def bootUsage : Usage :=
  { sys := { sched := boot, files := fun _ => { currDir := [47], fd := fun _ => noFile, fdC := 0 } }
    opens := fun _ => 0
    held := fun _ => [] }

theorem bootUsage_start : UsageStart bootUsage := ⟨⟨rfl, fun _ => rfl⟩, fun _ => rfl, fun _ => rfl⟩

def emptyArchive : Archive := { headers := [], byte := fun _ => 0 }

/-- The shell opens the root directory, and may close it. -/
theorem descriptors_in_table_root :
    ∃ u, Reachable (Usage.step emptyArchive)
        (fun u act => Orderly emptyArchive u act ∧ OpensFew emptyArchive u act) UsageStart u ∧
      u.opens 2 = 1 ∧ InTable emptyArchive u.sys.cur (.closeTarfs 3) := by
  have hstart : Reachable (Usage.step emptyArchive)
      (fun u act => Orderly emptyArchive u act ∧ OpensFew emptyArchive u act) UsageStart
      bootUsage := .start bootUsage_start
  have hopened := hstart.next (e := Action.call (.openDir [47] zeros))
    ⟨⟨by decide, by decide⟩, fun _ => by decide⟩ rfl
  refine ⟨_, hopened, by decide, ?_⟩
  exact (descriptors_in_table emptyArchive _ hopened (.closeTarfs 3)
    (show (3 : Int) ∈ [(3 : Int)] by decide)).mpr (fun hcon => absurd hcon (by decide))

/-- The shell opens and closes the root directory `n` times. -/
theorem reachable_opens (n : Nat) :
    ∃ u, Reachable (Usage.step emptyArchive) (Orderly emptyArchive) UsageStart u ∧
      u.sys.sched = boot ∧ u.sys.cur.fdC = n ∧ u.held 2 = [] := by
  induction n with
  | zero => exact ⟨bootUsage, .start bootUsage_start, rfl, rfl, rfl⟩
  | succ n ih =>
      obtain ⟨u, hu, hsched, hfdc, hheld⟩ := ih
      have hr : u.sys.sched.r = 2 := by rw [hsched]; rfl
      have hmode : u.sys.sched.mode = .user := by rw [hsched]; rfl
      have hopen : u.sys.cur.opens emptyArchive (.openDir [47] zeros) = true := by
        simp [Files.opens]
      have hnext := hu.next (e := Action.call (.openDir [47] zeros))
        ⟨hopen, by rw [hr, hheld]; decide⟩ (by simp only [Usage.step, System.step, hmode]; rfl)
      have hclosed := hnext.next (e := Action.call (.closeTarfs (n + 3)))
        (by simp [Orderly, Usage.record, hopen, hr, Files.call, Files.openDir, hfdc])
        (by simp only [Usage.step, System.step, hmode]; rfl)
      refine ⟨_, hclosed, hsched, ?_, ?_⟩
      · simp only [System.cur, Function.update_self, Files.call, Files.closeTarfs, Files.openDir,
          if_true]
        change u.sys.cur.fdC + 1 = _
        rw [hfdc]
        push_cast
        rfl
      · simp [Usage.record, hr, hheld, Files.call, Files.openDir, hfdc, Files.opens]

/-- The shell opens and closes the root directory 22 times; the next open uses
`fd[25]`. -/
theorem descriptor_leaves_table :
    ¬ ∀ A u, Reachable (Usage.step A) (Orderly A) UsageStart u → ∀ c, Orderly A u (.call c) →
      InTable A u.sys.cur c := by
  intro hall
  obtain ⟨u, hu, hsched, hfdc, hheld⟩ := reachable_opens 22
  have hr : u.sys.sched.r = 2 := by rw [hsched]; rfl
  have hopen : u.sys.cur.opens emptyArchive (.openDir [47] zeros) = true := by simp [Files.opens]
  have hin := hall emptyArchive u hu (.openDir [47] zeros) ⟨hopen, by rw [hr, hheld]; decide⟩
  have hidx := hin.1 (u.sys.cur.fdC + 3) (by simp [Files.indices, hopen])
  omega

end X86Kernel.Fs
