import X86Kernel.Kern.Account

/-!
Who destroys what. A process is destroyed once, and the kernel keeps the frames
it needs for itself, as long as nobody kills a slot without a process, or idle.
-/

namespace X86Kernel.Kern

open Lib Paging Proc

inductive Call where
  | created (i : Nat)
  | removed (i : Nat)
  deriving DecidableEq

def System.calls (k : System) : Action → List Call
  | .sched e =>
      ((forks k.sched e).map Call.created).toList ++ ((reaps k.sched e).map Call.removed).toList
  | _ => []

structure Logged where
  kern : System
  log : List Call

def Logged.step (l : Logged) (act : Action) : Option Logged :=
  (l.kern.step act).map fun k => { kern := k, log := l.log ++ l.kern.calls act }

def LogStart (l : Logged) : Prop :=
  l.log = [.created 2] ∧ ∃ m₀ img name, Boot m₀ ∧ img.Ok ∧ name.length < 50 ∧
    System.start m₀ img name = some l.kern

def Created (log : List Call) (i : Nat) : Prop :=
  ∃ a b, log = a ++ .created i :: b ∧ .removed i ∉ b

/-- Every `removeProcess` is about a slot that was made since it was last
destroyed. -/
def Paired (log : List Call) : Prop :=
  ∀ a b i, log = a ++ .removed i :: b → Created a i

theorem Created.snoc {log : List Call} {i : Nat} (h : Created log i) {c : Call}
    (hc : c ≠ .removed i) : Created (log ++ [c]) i := by
  obtain ⟨a, b, rfl, hb⟩ := h
  refine ⟨a, b ++ [c], by simp, ?_⟩
  intro hmem
  obtain hmem | hmem := List.mem_append.mp hmem
  · exact hb hmem
  · exact hc (List.mem_singleton.mp hmem).symm

/-- A new call at the end needs to be looked at alone. -/
theorem Paired.snoc {log : List Call} (h : Paired log) {c : Call}
    (hc : ∀ i, c = .removed i → Created log i) : Paired (log ++ [c]) := by
  intro a b i heq
  obtain rfl | ⟨b', x, rfl⟩ := List.eq_nil_or_concat b
  · obtain ⟨rfl, hlast⟩ : log = a ∧ c = .removed i := by
      have hsplit := List.append_inj' heq rfl
      simpa using hsplit
    exact hc i hlast
  · have hsplit : log = a ++ .removed i :: b' := by
      have hassoc : a ++ .removed i :: (b' ++ [x]) = (a ++ .removed i :: b') ++ [x] := by simp
      rw [List.concat_eq_append, hassoc] at heq
      exact (List.append_inj' heq rfl).1
    exact h a b' i hsplit

/-- The runs in which every `kill` is aimed at a process from slot 2 on. -/
def KillsProcess (l : Logged) : Action → Prop
  | .sched (.sys (.kill pid)) => 2 ≤ pid ∧ pid < MAX ∧ (l.kern.sched.q pid).state ≠ .ready
  | act => Safe l.kern act

theorem KillsProcess.safe {l : Logged} {act : Action} (h : KillsProcess l act) :
    Safe l.kern act := by
  unfold KillsProcess at h
  split at h
  · exact ⟨show _ ≠ 1 by omega, h.2.2⟩
  · exact h

structure Recorded (l : Logged) : Prop where
  paired : Paired l.log
  created : ∀ i, l.kern.InUse i → Created l.log i

theorem calls_of_ne {k : System} {act : Action} (h : ∀ e, act ≠ .sched e) : k.calls act = [] := by
  unfold System.calls
  split
  · rename_i e
    exact absurd rfl (h e)
  · rfl

/-- A step that makes and destroys nothing. -/
theorem Recorded.quiet {l : Logged} (h : Recorded l) {k : System} {act : Action}
    (hcalls : l.kern.calls act = []) (huse : ∀ j, k.InUse j → l.kern.InUse j) :
    Recorded { kern := k, log := l.log ++ l.kern.calls act } := by
  rw [hcalls, List.append_nil]
  exact ⟨h.paired, fun i hi => h.created i (huse i hi)⟩

theorem Recorded.step {l : Logged} {G G' : Ghost} (h : Recorded l)
    {act : Action} {k : System} (hE : Effect l.kern G act k G') :
    Recorded { kern := k, log := l.log ++ l.kern.calls act } := by
  cases hE with
  | fork huser hfree hv hbrk hF hheld hleaf huse hnew =>
      cases hn : newPID l.kern.sched.q with
      | none =>
          refine h.quiet ?_ ?_
          · simp [System.calls, forks, reaps, hn]
          · intro j hj
            exact ((huse j).mp hj).resolve_right (by simp [hn])
      | some pid =>
          have hcalls : l.kern.calls (.sched (.sys .fork)) = [.created pid] := by
            simp [System.calls, forks, reaps, hn]
          rw [hcalls]
          refine ⟨h.paired.snoc (by simp), ?_⟩
          intro j hj
          obtain hold | hpid := (huse j).mp hj
          · exact (h.created j hold).snoc (by simp)
          · obtain rfl : pid = j := by simpa [hn] using hpid
            exact ⟨l.log, [], rfl, by simp⟩
  | reap hfork hreap hi hF hheld htab hleaf huse =>
      rename_i e s i m
      have hcalls : l.kern.calls (.sched e) = [.removed i] := by
        simp [System.calls, forks_eq_none hfork, hreap]
      rw [hcalls]
      refine ⟨h.paired.snoc ?_, ?_⟩
      · intro j hj
        obtain rfl : i = j := by simpa using hj
        exact h.created i hi
      · intro j hj
        obtain ⟨hj, hji⟩ := (huse j).mp hj
        exact (h.created j hj).snoc (by simpa using Ne.symm hji)
  | quiet hfork hreap huse =>
      refine h.quiet ?_ (fun j hj => (huse j).mp hj)
      simp [System.calls, forks_eq_none hfork, hreap]
  | exec => exact h.quiet (calls_of_ne (by simp)) (fun j hj => hj)
  | malloc => exact h.quiet (calls_of_ne (by simp)) (fun j hj => hj)
  | write => exact h.quiet (calls_of_ne (by simp)) (fun j hj => hj)
  | read => exact h.quiet (calls_of_ne (by simp)) (fun j hj => hj)
  | segv huser hact huse =>
      refine h.quiet (calls_of_ne ?_) (fun j hj => (huse j).mp hj)
      obtain ⟨a, b, rfl⟩ | ⟨a, rfl⟩ := hact <;> simp
  | stuck huser hact =>
      refine h.quiet (calls_of_ne ?_) (fun j hj => hj)
      obtain ⟨a, b, rfl⟩ | ⟨a, rfl⟩ := hact <;> simp

/-- A table or a node of a process is not on the free list. -/
theorem Good.not_onFreeList {m₀ : Mem} {k : System} {G : Ghost} (h : Good m₀ k G) {f : Nat}
    {u : Place} (hu : k.Uses f u) : ¬ OnFreeList k.mem f := by
  rw [onFreeList_iff h.inv]
  obtain ⟨i, n, -, hf⟩ | ⟨i, d, key, -, -, -, hf⟩ | ⟨i, j, -, -, hf⟩ := Uses.role h hu <;> simp [hf]

/-- No process is destroyed twice when every `kill` is aimed at a process: the
record is paired, the free list ends, and no frame that a process still uses is
on it. -/
theorem no_process_destroyed_twice (l : Logged)
    (h : Reachable Logged.step KillsProcess LogStart l) :
    Paired l.log ∧ (∃ fl, Chain (fun f => (l.kern.mem.page f).next) l.kern.mem.head fl) ∧
      ∀ f u, l.kern.Uses f u → ¬ OnFreeList l.kern.mem f := by
  have hinv : (∃ m₀ G, Good m₀ l.kern G) ∧ Recorded l := by
    refine h.invariant (P := fun l => (∃ m₀ G, Good m₀ l.kern G) ∧ Recorded l) ?_ ?_
    · rintro ⟨k, log⟩ ⟨hlog, m₀, img, name, hboot, hok, hname, hrun⟩
      obtain rfl : log = [.created 2] := hlog
      obtain ⟨G, hgood, hsched, -, -⟩ := hboot.start hok hname hrun
      refine ⟨⟨m₀, G, hgood⟩, ?_, ?_⟩
      · intro a b i heq
        have hmem : Call.removed i ∈ a ++ Call.removed i :: b := by simp
        rw [← heq] at hmem
        simp at hmem
      · intro i hi
        obtain rfl := (boot_inUse hsched i).mp hi
        exact ⟨[], [], rfl, by simp⟩
    · rintro ⟨k, log⟩ act l' ⟨⟨m₀, G, hgood⟩, hrec⟩ hok hstep
      obtain ⟨k', hk, rfl⟩ := Option.map_eq_some_iff.mp hstep
      obtain ⟨G', hgood', hE⟩ := hgood.step hok.safe hk
      exact ⟨⟨m₀, G', hgood'⟩, hrec.step hE⟩
  obtain ⟨⟨m₀, G, hgood⟩, hrec⟩ := hinv
  obtain ⟨fl, hchain, -⟩ := hgood.inv.pool.chain
  exact ⟨hrec.paired, ⟨fl, hchain⟩, fun f u hu => hgood.not_onFreeList hu⟩

/-- The shell forks and kills its child. -/
theorem no_process_destroyed_twice_kill :
    ∃ l, Reachable Logged.step KillsProcess LogStart l ∧ (l.kern.sched.q 3).state = .zombie ∧
      Paired l.log := by
  have hrun : ((System.start smallMem emptyImage []).bind fun k =>
      (Logged.step ⟨k, [.created 2]⟩ (.sched (.sys .fork))).bind fun l =>
      if (l.kern.sched.q 3).state ≠ .ready then l.step (.sched (.sys (.kill 3))) else none).any
        (fun l => (l.kern.sched.q 3).state = .zombie) = true := by
    decide +kernel
  obtain ⟨l, hl, hzombie⟩ := (Option.any_eq_true _ _).mp hrun
  obtain ⟨k, hk, hl⟩ := Option.bind_eq_some_iff.mp hl
  obtain ⟨l₁, hfork, hl⟩ := Option.bind_eq_some_iff.mp hl
  split_ifs at hl with hslot
  have hstart : Reachable Logged.step KillsProcess LogStart ⟨k, [.created 2]⟩ :=
    .start ⟨rfl, smallMem, emptyImage, [], smallMem_boot, emptyImage_ok, by decide, hk⟩
  have hforked := hstart.next (e := Action.sched (.sys .fork)) ⟨trivial, trivial⟩ hfork
  have hkilled := hforked.next (e := Action.sched (.sys (.kill 3)))
    ⟨by decide, by decide, hslot⟩ hl
  exact ⟨l, hkilled, by simpa using hzombie, (no_process_destroyed_twice l hkilled).1⟩

/-- Any scheduler event, and `kill` with any number from 2 on. -/
def AnyKill (_ : Logged) : Action → Prop
  | .sched (.sys (.kill pid)) => 2 ≤ pid ∧ pid < MAX
  | .sched _ => True
  | _ => False

/-- The shell kills slot 50, which nobody has used, and sleeps; init finds a
zombie child there and destroys it. -/
theorem free_slot_destroyed :
    ¬ ∀ l, Reachable Logged.step AnyKill LogStart l → Paired l.log := by
  intro hall
  have hrun : ((System.start smallMem emptyImage []).bind fun k =>
      (Logged.step ⟨k, [.created 2]⟩ (.sched (.sys (.kill 50)))).bind fun l =>
      (l.step (.sched (.sys (.sleep 1)))).bind fun l => l.step (.sched .resume)).any
        (fun l => l.log = [.created 2, .removed 50]) = true := by
    decide +kernel
  obtain ⟨l, hl, hlog⟩ := (Option.any_eq_true _ _).mp hrun
  obtain ⟨k, hk, hl⟩ := Option.bind_eq_some_iff.mp hl
  obtain ⟨l₁, hkill, hl⟩ := Option.bind_eq_some_iff.mp hl
  obtain ⟨l₂, hsleep, hresume⟩ := Option.bind_eq_some_iff.mp hl
  have hstart : Reachable Logged.step AnyKill LogStart ⟨k, [.created 2]⟩ :=
    .start ⟨rfl, smallMem, emptyImage, [], smallMem_boot, emptyImage_ok, by decide, hk⟩
  have hkilled := hstart.next (e := Action.sched (.sys (.kill 50))) ⟨by decide, by decide⟩ hkill
  have hslept := hkilled.next (e := Action.sched (.sys (.sleep 1))) trivial hsleep
  have hreaped := hslept.next (e := Action.sched .resume) trivial hresume
  have hlog' : l.log = [.created 2, .removed 50] := by simpa using hlog
  obtain ⟨a, b, hsplit, -⟩ := hall l hreaped [.created 2] [] 50 (by rw [hlog']; rfl)
  have hmem : Call.created 50 ∈ [Call.created 2] := hsplit ▸ (by simp)
  simp at hmem

/-- The runs in which every `kill` is aimed at a process other than idle. -/
def KillsNotIdle (k : System) : Action → Prop
  | .sched (.sys (.kill pid)) => pid < MAX ∧ pid ≠ 1 ∧ (k.sched.q pid).state ≠ .ready
  | act => Safe k act

theorem KillsNotIdle.safe {k : System} {act : Action} (h : KillsNotIdle k act) : Safe k act := by
  unfold KillsNotIdle at h
  split at h
  · exact ⟨h.2.1, h.2.2⟩
  · exact h

def BootStart (k : System) : Prop :=
  ∃ m₀ img name, Boot m₀ ∧ img.Ok ∧ name.length < 50 ∧ System.start m₀ img name = some k

/-- Memory is in order in every run of safe steps. -/
theorem BootStart.good {ok : System → Action → Prop} (hsafe : ∀ k act, ok k act → Safe k act)
    {k : System} (h : Reachable System.step ok BootStart k) : ∃ m₀ G, Boot m₀ ∧ Good m₀ k G := by
  refine h.invariant (P := fun k => ∃ m₀ G, Boot m₀ ∧ Good m₀ k G) ?_ ?_
  · rintro k ⟨m₀, img, name, hboot, hok, hname, hrun⟩
    obtain ⟨G, hgood, -⟩ := hboot.start hok hname hrun
    exact ⟨m₀, G, hboot, hgood⟩
  · rintro k act k' ⟨m₀, G, hboot, hgood⟩ hok hstep
    obtain ⟨G', hgood', -⟩ := hgood.step (hsafe k act hok) hstep
    exact ⟨m₀, G', hboot, hgood'⟩

/-- The kernel keeps its PML4 and page 0 as long as `kill` spares idle and the
slots without a process: they are not on the free list, and `allocate_page`
does not return them. -/
theorem kernel_frames_kept (k : System) (h : Reachable System.step KillsNotIdle BootStart k) :
    (¬ OnFreeList k.mem k.mem.kpml4 ∧ ¬ OnFreeList k.mem 0) ∧
      ∀ a m, k.mem.allocatePage = some (a, m) → a ≠ k.mem.kpml4 * 4096 ∧ a ≠ 0 := by
  obtain ⟨m₀, G, hboot, hgood⟩ := BootStart.good (fun _ _ hok => hok.safe) h
  have hkept : ∀ f, ¬ OnFreeList m₀ f → ¬ OnFreeList k.mem f := by
    intro f hf
    rw [onFreeList_iff hgood.inv, (hgood.kernel f).mpr hf]
    simp
  have hroot : ¬ OnFreeList k.mem k.mem.kpml4 := by
    rw [hgood.kpml4]
    exact hkept _ hboot.kpml4
  have hzero := hkept 0 hboot.zero
  refine ⟨⟨hroot, hzero⟩, ?_⟩
  intro a m hrun
  obtain ⟨f, hhead, rfl, -⟩ := Mem.allocatePage_eq hrun
  have hlist : OnFreeList k.mem f := .head hhead
  have hrole : G.role f = .free := (onFreeList_iff hgood.inv f).mp hlist
  rw [(hgood.inv.pool.managed f (by simp [hrole])).2]
  refine ⟨?_, ?_⟩
  · intro hcon
    obtain rfl : f = k.mem.kpml4 := by omega
    exact hroot hlist
  · intro hcon
    obtain rfl : f = 0 := by omega
    exact hzero hlist

/-- The shell forks and kills its child. -/
theorem kernel_frames_kept_kill :
    ∃ k, Reachable System.step KillsNotIdle BootStart k ∧ (k.sched.q 3).state = .zombie ∧
      ¬ OnFreeList k.mem 0 := by
  have hrun : ((System.start smallMem emptyImage []).bind fun k =>
      (k.step (.sched (.sys .fork))).bind fun k =>
      if (k.sched.q 3).state ≠ .ready then k.step (.sched (.sys (.kill 3))) else none).any
        (fun k => (k.sched.q 3).state = .zombie) = true := by
    decide +kernel
  obtain ⟨k, hk, hzombie⟩ := (Option.any_eq_true _ _).mp hrun
  obtain ⟨k₀, hk₀, hk⟩ := Option.bind_eq_some_iff.mp hk
  obtain ⟨k₁, hfork, hk⟩ := Option.bind_eq_some_iff.mp hk
  split_ifs at hk with hslot
  have hstart : Reachable System.step KillsNotIdle BootStart k₀ :=
    .start ⟨smallMem, emptyImage, [], smallMem_boot, emptyImage_ok, by decide, hk₀⟩
  have hforked := hstart.next (e := Action.sched (.sys .fork)) ⟨trivial, trivial⟩ hfork
  have hkilled := hforked.next (e := Action.sched (.sys (.kill 3)))
    ⟨by decide, by decide, hslot⟩ hk
  exact ⟨k, hkilled, by simpa using hzombie, (kernel_frames_kept k hkilled).1.2⟩

/-- Any scheduler event, and `kill` with any number in the table. -/
def KillsInTable (_ : System) : Action → Prop
  | .sched (.sys (.kill pid)) => pid < MAX
  | .sched _ => True
  | _ => False

/-- A table without entries is cleared without any effect on the list. -/
theorem deallocLevel_absent {m : Mem} {p : Nat} (level : Nat) (h : ∀ i, m.word p i = 0) :
    (m.deallocLevel level p).page = m.page := by
  have hnone : present (0 : Word) = false := by decide
  have hbody : ∀ {a : Mem} {i : Nat}, a.page = m.page ∧ (∀ j, a.word p j = 0) →
      (a.set p i 0).page = m.page ∧ ∀ j, (a.set p i 0).word p j = 0 := by
    rintro a i ⟨hpage, hword⟩
    refine ⟨hpage, ?_⟩
    intro j
    rw [Mem.set_word]
    split_ifs
    · rfl
    · exact hword j
  have hloop : (m.deallocLevel level p).page = m.page ∧
      ∀ j, (m.deallocLevel level p).word p j = 0 := by
    cases level with
    | zero =>
        unfold Mem.deallocLevel
        refine foldl_range_invariant (P := fun _ (a : Mem) => a.page = m.page ∧ ∀ j, a.word p j = 0)
          ⟨rfl, h⟩ ?_
        intro i a _ ha
        simp only [ha.2 i, hnone]
        exact hbody ha
    | succ level =>
        unfold Mem.deallocLevel
        refine foldl_range_invariant (P := fun _ (a : Mem) => a.page = m.page ∧ ∀ j, a.word p j = 0)
          ⟨rfl, h⟩ ?_
        intro i a _ ha
        simp only [ha.2 i, hnone]
        exact hbody ha
  exact hloop.1

/-- To destroy a slot that was never used is to free page 0. -/
theorem removeProcess_unused {m m' : Mem} (hzero : ∀ i, m.word 0 i = 0)
    (hpage : (m.page 0).address = 0 ∧ (m.page 0).refCount ≤ 1)
    (hrun : removeProcess m { pml4e := 0, vm := 0 } = some m') : m'.head = some 0 := by
  have hareas : freeAreas fuel m 0 = some m := rfl
  unfold removeProcess at hrun
  rw [hareas] at hrun
  obtain rfl := Option.some.inj hrun
  have hkept := deallocLevel_absent 3 hzero
  have hadd : ((m.deallocLevel 3 0).page 0).address = 0 := by rw [hkept, hpage.1]
  have hcount : ¬ 1 < ((m.deallocLevel 3 0).page 0).refCount := by rw [hkept]; omega
  simp [Mem.free, Mem.deallocPml4, Space.root, hadd, hcount]

/-- The shell kills slot 50, which nobody has used, and sleeps; init destroys
the slot and so frees page 0. -/
theorem page_zero_freed :
    ¬ ∀ k, Reachable System.step KillsInTable BootStart k → ¬ OnFreeList k.mem 0 := by
  intro hall
  have hrun : ((System.start smallMem emptyImage []).bind fun k =>
      (k.step (.sched (.sys (.kill 50)))).bind fun k₁ =>
      (k₁.step (.sched (.sys (.sleep 1)))).bind fun k₂ =>
      if reaps k₂.sched .resume = some 50 then k₂.step (.sched .resume) else none).isSome
        = true := by
    decide +kernel
  obtain ⟨k, hk⟩ := Option.isSome_iff_exists.mp hrun
  obtain ⟨k₀, hk₀, hk⟩ := Option.bind_eq_some_iff.mp hk
  obtain ⟨k₁, hkill, hk⟩ := Option.bind_eq_some_iff.mp hk
  obtain ⟨k₂, hsleep, hresume⟩ := Option.bind_eq_some_iff.mp hk
  split_ifs at hresume with hreap
  have hboot := smallMem_boot
  obtain ⟨G, hgood, -⟩ := hboot.start emptyImage_ok (by decide) hk₀
  have hstart : Reachable System.step KillsInTable BootStart k₀ :=
    .start ⟨smallMem, emptyImage, [], hboot, emptyImage_ok, by decide, hk₀⟩
  have hkilled := hstart.next (e := Action.sched (.sys (.kill 50)))
    (show 50 < MAX by decide) hkill
  have hslept := hkilled.next (e := Action.sched (.sys (.sleep 1))) trivial hsleep
  have hreaped := hslept.next (e := Action.sched .resume) trivial hresume
  have hsame : k₂.mem = k₀.mem ∧ k₂.space = k₀.space := by
    obtain ⟨hmem₁, hspace₁⟩ := sched_quiet (by simp) rfl hkill
    obtain ⟨hmem₂, hspace₂⟩ := sched_quiet (by simp) rfl hsleep
    exact ⟨hmem₂.trans hmem₁, hspace₂.trans hspace₁⟩
  have hspace : k₀.space 50 = { pml4e := 0, vm := 0 } := by
    obtain ⟨r, -, rfl⟩ := Option.map_eq_some_iff.mp hk₀
    rfl
  have hword : ∀ i, k₀.mem.word 0 i = 0 := by
    intro i
    rw [hgood.kword 0 ((hgood.kernel 0).mpr hboot.zero)]
    rfl
  have hpage : (k₀.mem.page 0).address = 0 ∧ (k₀.mem.page 0).refCount ≤ 1 := by
    have hcheck : (System.start smallMem emptyImage []).all (fun k =>
        (k.mem.page 0).address = 0 ∧ (k.mem.page 0).refCount ≤ 1) = true := by
      decide +kernel
    rw [hk₀] at hcheck
    simpa using hcheck
  refine hall k hreaped (.head ?_)
  cases step_moves hresume with
  | reap _ _ hi hremove =>
      obtain rfl := Option.some.inj (hreap.symm.trans hi)
      rw [hsame.1, hsame.2, hspace] at hremove
      exact removeProcess_unused hword hpage hremove
  | quiet _ _ hnone => simp [hreap] at hnone
  | segv _ hact _ => simp at hact
  | stuck _ hact => simp at hact

end X86Kernel.Kern
