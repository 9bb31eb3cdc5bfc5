import X86Kernel.Lib.Run
import X86Kernel.Paging.Effects

/-!
The frame allocator by itself: `mem_map` builds the list of free frames, and
`allocate_page`, `increfcount` and `free` use it as a pool of counted frames.
The reference is the balance of every address: how often it was allocated and
counted, less how often it was freed.
-/

namespace X86Kernel.Paging

open Lib

structure Smap where
  base : Nat
  length : Nat

/-- The size of `pagelist`: 75000 elements of 24 bytes. -/
def sizeofPagelist : Nat := capacity * 24

/-- The body of the loop of `mem_map`. `last` is the element that was listed
last; a store through it while it is `NULL` goes past `pagelist`. -/
def memMapPage (physfree limit : Nat) (st : Mem × Option Nat) (ptr : Nat) : Mem × Option Nat :=
  let (m, last) := st
  let count := ptr / 4096
  if physfree < ptr ∧ ptr + 4096 < limit then
    match m.head with
    | none =>
        ({ m.setPage count { address := ptr, next := none, free := true, refCount := 0 } with
           head := some count }, some count)
    | some _ =>
        let m := m.setPage count { address := ptr, next := none, free := true, refCount := 0 }
        match last with
        | some b => (m.setPage b { m.page b with next := some count }, some count)
        | none => (m, some count)
  else (m.setPage count { address := ptr, next := none, free := false, refCount := 1 }, last)

/-- `mem_map`. The list must not reach into the kernel, which ends with
`pagelist`, nor into the last page of the region. -/
def memMap (m : Mem) (sm : Smap) (physfree : Nat) : Mem :=
  ((List.range ((sm.length + 4095) / 4096)).foldl (fun st k =>
    memMapPage (physfree + sizeofPagelist) (sm.base + sm.length) st (sm.base + k * 4096))
    (m, none)).1

/-- The allocator before `mem_map`: `pagelist` is zero and `head` is `NULL`. -/
def blankMem (word : Nat → Nat → Word) : Mem where
  word := word
  page := fun _ => { address := 0, free := false, refCount := 0, next := none }
  head := none
  kpml4 := 0

/-- What `mem_map` has built when the pages below `n` are done. -/
structure Listed (n : Nat) (st : Mem × Option Nat) (l : List Nat) : Prop where
  chain : Chain (fun f => (st.1.page f).next) st.1.head l
  flag : ∀ f, f ∈ l ↔ (st.1.page f).free = true
  last : st.2 = l.getLast?
  managed : ∀ f ∈ l, f < n ∧ (st.1.page f).address = f * 4096

section MemMap

variable {n physfree limit : Nat} {m : Mem} {last : Option Nat} {l : List Nat}

/-- A page that is not listed. -/
theorem Listed.skip (h : Listed n (m, last) l) (p : Page) (hp : p.free = false) :
    Listed (n + 1) (m.setPage n p, last) l := by
  have hn : n ∉ l := fun hin => absurd (h.managed n hin).1 (by omega)
  have hpage : ∀ f, f ≠ n → (m.setPage n p).page f = m.page f :=
    fun f hf => Function.update_of_ne hf _ _
  have hne : ∀ f ∈ l, f ≠ n := by
    rintro f hf rfl
    exact hn hf
  refine ⟨?_, ?_, h.last, ?_⟩
  · apply h.chain.congr
    intro f hf
    simp only [hpage f (hne f hf)]
  · intro f
    by_cases hf : f = n
    · subst hf
      simp [Mem.setPage, hp, hn]
    · rw [hpage f hf]
      exact h.flag f
  · intro f hf
    rw [hpage f (hne f hf)]
    exact ⟨by have := (h.managed f hf).1; omega, (h.managed f hf).2⟩

/-- A page that is listed goes behind the last one. -/
theorem Listed.add (h : Listed n (m, last) l)
    (hfit : physfree < n * 4096 ∧ n * 4096 + 4096 < limit) :
    Listed (n + 1) (memMapPage physfree limit (m, last) (n * 4096)) (l ++ [n]) := by
  have hn : n ∉ l := fun hin => absurd (h.managed n hin).1 (by omega)
  have hdiv : n * 4096 / 4096 = n := frame_div n
  cases hhead : m.head with
  | none =>
      obtain rfl : l = [] := by
        have hc := h.chain
        rw [hhead] at hc
        exact hc.eq_nil
      simp only [memMapPage, if_pos hfit, hhead, hdiv]
      refine ⟨?_, ?_, rfl, ?_⟩
      · refine .cons ?_
        simp only [Mem.setPage, Function.update_self]
        exact .nil
      · intro f
        by_cases hf : f = n
        · subst hf
          simp [Mem.setPage]
        · have hflag := h.flag f
          simpa [Mem.setPage, hf] using hflag
      · intro f hf
        obtain rfl : f = n := by simpa using hf
        simp [Mem.setPage]
  | some b₀ =>
      have hc := h.chain
      rw [hhead] at hc
      obtain ⟨rest, rfl, -⟩ := hc.eq_cons
      obtain ⟨b, hb⟩ : ∃ b, (b₀ :: rest).getLast? = some b := by
        cases hl : (b₀ :: rest).getLast? with
        | none => simp at hl
        | some b => exact ⟨b, rfl⟩
      have hlast : last = some b := h.last.trans hb
      have hbn : b ≠ n := by
        rintro rfl
        exact hn (List.mem_of_getLast? hb)
      subst hlast
      simp only [memMapPage, if_pos hfit, hhead, hdiv]
      refine ⟨?_, ?_, ?_, ?_⟩
      · have hchain := h.chain.snoc hb hn
        apply hchain.congr
        intro f _
        by_cases hfb : f = b
        · subst hfb
          simp [Mem.setPage]
        · by_cases hfn : f = n
          · subst hfn
            simp [Mem.setPage, hfb]
          · simp [Mem.setPage, hfb, hfn]
      · intro f
        have hflag := h.flag f
        have hflagb := (h.flag b).mp (List.mem_of_getLast? hb)
        by_cases hfb : f = b
        · subst hfb
          simp only [Mem.setPage, Function.update_self, ne_eq, hbn, not_false_eq_true,
            Function.update_of_ne, List.mem_append, List.mem_of_getLast? hb, true_or, true_iff]
          exact hflagb
        · by_cases hfn : f = n
          · subst hfn
            simp [Mem.setPage, hfb]
          · simp only [Mem.setPage, ne_eq, hfb, not_false_eq_true, Function.update_of_ne, hfn]
            simpa [hfn] using hflag
      · exact List.getLast?_concat.symm
      · intro f hf
        by_cases hfb : f = b
        · subst hfb
          have hman := h.managed f (List.mem_of_getLast? hb)
          simp only [Mem.setPage, Function.update_self, ne_eq, hbn, not_false_eq_true,
            Function.update_of_ne]
          exact ⟨by omega, hman.2⟩
        · by_cases hfn : f = n
          · subst hfn
            simp [Mem.setPage, hfb]
          · have hfl : f ∈ b₀ :: rest := by simpa [hfn] using hf
            have hman := h.managed f hfl
            simp only [Mem.setPage, ne_eq, hfb, not_false_eq_true, Function.update_of_ne, hfn]
            exact ⟨by omega, hman.2⟩

theorem Listed.step (h : Listed n (m, last) l) (physfree limit : Nat) :
    ∃ l', Listed (n + 1) (memMapPage physfree limit (m, last) (n * 4096)) l' := by
  by_cases hfit : physfree < n * 4096 ∧ n * 4096 + 4096 < limit
  · exact ⟨l ++ [n], h.add hfit⟩
  · refine ⟨l, ?_⟩
    have hskip := h.skip { address := n * 4096, next := none, free := false, refCount := 1 } rfl
    simpa [memMapPage, hfit] using hskip

end MemMap

/-- The list `mem_map` builds for one region. -/
theorem memMap_spec (word : Nat → Nat → Word) {sm : Smap} (physfree : Nat)
    (halign : 4096 ∣ sm.base) (hfit : sm.base + sm.length ≤ capacity * 4096) :
    ∃ l, Chain (fun f => ((memMap (blankMem word) sm physfree).page f).next)
        (memMap (blankMem word) sm physfree).head l ∧
      (∀ f, f ∈ l ↔ ((memMap (blankMem word) sm physfree).page f).free = true) ∧
      ∀ f ∈ l, f < capacity ∧
        ((memMap (blankMem word) sm physfree).page f).address = f * 4096 := by
  obtain ⟨n₀, hn₀⟩ := halign
  have hloop := foldl_range_invariant (n := (sm.length + 4095) / 4096)
    (f := fun st k =>
      memMapPage (physfree + sizeofPagelist) (sm.base + sm.length) st (sm.base + k * 4096))
    (s := (blankMem word, none)) (P := fun k st => ∃ l, Listed (n₀ + k) st l)
    ⟨[], .nil, by simp [blankMem], rfl, by simp⟩ ?_
  · obtain ⟨l, hl⟩ := hloop
    refine ⟨l, hl.chain, hl.flag, ?_⟩
    intro f hf
    obtain ⟨hlt, hadd⟩ := hl.managed f hf
    exact ⟨by omega, hadd⟩
  · rintro k ⟨m, last⟩ - ⟨l, hl⟩
    have hptr : sm.base + k * 4096 = (n₀ + k) * 4096 := by rw [hn₀]; ring
    obtain ⟨l', hl'⟩ := hl.step (physfree + sizeofPagelist) (sm.base + sm.length)
    exact ⟨l', by rw [hptr, ← Nat.add_assoc]; exact hl'⟩

inductive FrameOp where
  | allocatePage
  | increfcount (add : Nat)
  | free (add : Nat)

structure Frames where
  mem : Mem
  balance : Nat → Nat

def Frames.step (s : Frames) : FrameOp → Option Frames
  | .allocatePage => s.mem.allocatePage.map fun r =>
      { mem := r.2, balance := Function.update s.balance r.1 (s.balance r.1 + 1) }
  | .increfcount add => some
      { mem := s.mem.increfcount add,
        balance := Function.update s.balance add (s.balance add + 1) }
  | .free add => some
      { mem := s.mem.free add,
        balance := Function.update s.balance add (s.balance add - 1) }

/-- Only an address that is outstanding is counted or freed. -/
def Balanced (s : Frames) : FrameOp → Prop
  | .allocatePage => True
  | .increfcount add => 0 < s.balance add
  | .free add => 0 < s.balance add

/-- The state `mem_map` builds for one region that fits into `pagelist`. -/
def FramesStart (s : Frames) : Prop :=
  ∃ word sm physfree, 4096 ∣ sm.base ∧ 4096 ∣ sm.length ∧
    sm.base + sm.length ≤ capacity * 4096 ∧
    s.mem = memMap (blankMem word) sm physfree ∧ s.balance = fun _ => 0

structure Counted (s : Frames) (role : Nat → Role) : Prop where
  pool : Pool s.mem role
  kernel : ∀ f, role f = .kernel → (s.mem.page f).free = false
  roles : ∀ f, role f = .free ∨ role f = .kernel ∨ role f = .data
  out : ∀ add, 0 < s.balance add → ∃ f, add = f * 4096 ∧ role f = .data
  count : ∀ f, role f = .data →
    (s.mem.page f).refCount = s.balance (f * 4096) ∧ 0 < s.balance (f * 4096)

namespace Counted

variable {s s' : Frames} {role : Nat → Role}

theorem flag (h : Counted s role) (f : Nat) : (s.mem.page f).free = true ↔ role f = .free := by
  by_cases hk : role f = .kernel
  · simp [h.kernel f hk, hk]
  · exact h.pool.flag f hk

/-- An address is outstanding when its frame is. -/
theorem balance_pos (h : Counted s role) {f : Nat} : 0 < s.balance (f * 4096) ↔ role f = .data := by
  constructor
  · intro hpos
    obtain ⟨g, hg, hrole⟩ := h.out _ hpos
    obtain rfl : f = g := by omega
    exact hrole
  · exact fun hf => (h.count f hf).2

theorem start {s : Frames} (h : FramesStart s) : ∃ role, Counted s role := by
  obtain ⟨word, sm, physfree, halign, -, hfit, hmem, hbal⟩ := h
  obtain ⟨l, hchain, hflag, hman⟩ := memMap_spec word physfree halign hfit
  rw [← hmem] at hchain hflag hman
  refine ⟨fun f => if (s.mem.page f).free then .free else .kernel, ?_, ?_, ?_, ?_, ?_⟩
  · refine ⟨⟨l, hchain, hchain.nodup, ?_⟩, ?_, ?_⟩
    · intro f
      rw [hflag]
      split_ifs with hf <;> simp [hf]
    · intro f hf
      refine hman f ((hflag f).mpr ?_)
      by_contra hcon
      exact hf (if_neg hcon)
    · intro f hf
      split_ifs with hfree
      · simp [hfree]
      · exact absurd (if_neg hfree) hf
  · intro f hf
    split_ifs at hf with hfree
    exact by simpa using hfree
  · intro f
    split_ifs <;> simp
  · intro add hadd
    simp [hbal] at hadd
  · intro f hf
    split_ifs at hf

/-- `allocate_page` takes a frame that was not outstanding. -/
theorem allocatePage (h : Counted s role) (hstep : s.step .allocatePage = some s') :
    ∃ f, role f = .free ∧ (∀ g, g ≠ f → s'.mem.page g = s.mem.page g) ∧
      Counted s' (Function.update role f .data) := by
  obtain ⟨⟨add, m⟩, hrun, rfl⟩ := Option.map_eq_some_iff.mp hstep
  obtain ⟨f, hfree, rfl, -, -, hcount, hpool⟩ := h.pool.alloc hrun
  obtain ⟨f', hhead, hadd, -, -, -, hpage⟩ := Mem.allocatePage_eq hrun
  obtain rfl : f' = f := by
    obtain ⟨l, hchain, -, hl⟩ := h.pool.chain
    rw [hhead] at hchain
    obtain ⟨rest, rfl, -⟩ := hchain.eq_cons
    have hrole : role f' = .free := (hl f').mp (by simp)
    rw [(h.pool.managed f' (by simp [hrole])).2] at hadd
    omega
  have hsame : ∀ g, g ≠ f' → m.page g = s.mem.page g := by
    intro g hg
    rw [hpage, Function.update_of_ne hg]
  have hzero : s.balance (f' * 4096) = 0 := by
    by_contra hcon
    have hdata := h.balance_pos.mp (Nat.pos_of_ne_zero hcon)
    simp [hfree] at hdata
  refine ⟨f', hfree, hsame, hpool, ?_, ?_, ?_, ?_⟩
  · intro g hg
    have hne : g ≠ f' := by
      rintro rfl
      simp at hg
    rw [Function.update_of_ne hne] at hg
    rw [hsame g hne]
    exact h.kernel g hg
  · intro g
    by_cases hg : g = f'
    · simp [hg]
    · rw [Function.update_of_ne hg]
      exact h.roles g
  · intro add hpos
    by_cases hadd' : add = f' * 4096
    · exact ⟨f', hadd', by simp⟩
    · simp only [Function.update_of_ne hadd'] at hpos
      obtain ⟨g, rfl, hg⟩ := h.out add hpos
      exact ⟨g, rfl, by rw [Function.update_of_ne (by rintro rfl; exact hadd' rfl), hg]⟩
  · intro g hg
    have hcount' := congrFun hcount g
    by_cases hgf : g = f'
    · subst hgf
      simp only [Function.update_self] at hcount' ⊢
      exact ⟨by rw [hcount', hzero], by omega⟩
    · rw [Function.update_of_ne hgf] at hg hcount'
      have hne : g * 4096 ≠ f' * 4096 := by omega
      simp only [Function.update_of_ne hne]
      exact ⟨hcount'.trans (h.count g hg).1, (h.count g hg).2⟩

/-- The count of a frame and the balance of its address change together. -/
theorem recount (h : Counted s role) {f n : Nat} (hf : role f = .data) (hn : 0 < n) :
    Counted { mem := s.mem.setPage f { s.mem.page f with refCount := n },
              balance := Function.update s.balance (f * 4096) n } role := by
  have hpage : ∀ g, ((s.mem.setPage f { s.mem.page f with refCount := n }).page g).next =
        (s.mem.page g).next ∧
      ((s.mem.setPage f { s.mem.page f with refCount := n }).page g).address =
        (s.mem.page g).address ∧
      ((s.mem.setPage f { s.mem.page f with refCount := n }).page g).free =
        (s.mem.page g).free := by
    intro g
    by_cases hg : g = f <;> simp [Mem.setPage, hg]
  refine ⟨h.pool.congr_mem rfl hpage, ?_, h.roles, ?_, ?_⟩
  · intro g hg
    rw [(hpage g).2.2]
    exact h.kernel g hg
  · intro add hpos
    by_cases hadd : add = f * 4096
    · exact ⟨f, hadd, hf⟩
    · simp only [Function.update_of_ne hadd] at hpos
      exact h.out add hpos
  · intro g hg
    by_cases hgf : g = f
    · subst hgf
      simp [Mem.setPage, hn]
    · have hne : g * 4096 ≠ f * 4096 := by omega
      simp only [Function.update_of_ne hne]
      simpa [Mem.setPage, hgf] using h.count g hg

/-- The free that balances an address puts its frame back. -/
theorem release (h : Counted s role) {f : Nat} (hf : role f = .data) :
    Counted { mem := { s.mem.setPage f { s.mem.page f with free := true, next := s.mem.head } with
                       head := some f },
              balance := Function.update s.balance (f * 4096) 0 }
      (Function.update role f .free) := by
  refine ⟨h.pool.push (by simp [hf]) (by simp [hf]), ?_, ?_, ?_, ?_⟩
  · intro g hg
    have hne : g ≠ f := by
      rintro rfl
      simp at hg
    rw [Function.update_of_ne hne] at hg
    simpa [Mem.setPage, hne] using h.kernel g hg
  · intro g
    by_cases hg : g = f
    · simp [hg]
    · rw [Function.update_of_ne hg]
      exact h.roles g
  · intro add hpos
    have hadd : add ≠ f * 4096 := by
      rintro rfl
      simp at hpos
    simp only [Function.update_of_ne hadd] at hpos
    obtain ⟨g, rfl, hg⟩ := h.out add hpos
    exact ⟨g, rfl, by rw [Function.update_of_ne (by rintro rfl; exact hadd rfl), hg]⟩
  · intro g hg
    have hne : g ≠ f := by
      rintro rfl
      simp at hg
    rw [Function.update_of_ne hne] at hg
    have hadd : g * 4096 ≠ f * 4096 := by omega
    simp only [Function.update_of_ne hadd]
    simpa [Mem.setPage, hne] using h.count g hg

/-- One operation: the frames keep their place but for the one that is taken
or that goes back. -/
theorem step (h : Counted s role) {op : FrameOp} (hok : Balanced s op)
    (hstep : s.step op = some s') :
    ∃ role', Counted s' role' ∧ ∀ f, role f ≠ .free →
      (role' f = .free ↔ op = .free (f * 4096) ∧ s.balance (f * 4096) = 1) := by
  cases op with
  | allocatePage =>
      obtain ⟨f, hfree, -, h'⟩ := h.allocatePage hstep
      refine ⟨_, h', ?_⟩
      intro g hg
      have hne : g ≠ f := by
        rintro rfl
        exact hg hfree
      simp [Function.update_of_ne hne, hg]
  | increfcount add =>
      obtain ⟨f, rfl, hf⟩ := h.out add hok
      obtain rfl := Option.some.inj hstep
      refine ⟨role, ?_, fun g hg => by simp [hg]⟩
      have hcount := (h.count f hf).1
      have h' := h.recount hf (n := s.balance (f * 4096) + 1) (by omega)
      rw [← hcount] at h' ⊢
      unfold Mem.increfcount
      rwa [frame_div]
  | free add =>
      obtain ⟨f, rfl, hf⟩ := h.out add hok
      obtain rfl := Option.some.inj hstep
      have hcount := (h.count f hf).1
      have hadd := (h.pool.managed f (by simp [hf])).2
      have hpos : 0 < s.balance (f * 4096) := hok
      by_cases hone : s.balance (f * 4096) = 1
      · refine ⟨Function.update role f .free, ?_, ?_⟩
        · have h' := h.release hf
          have hrun : s.mem.free (f * 4096) =
              { s.mem.setPage f { s.mem.page f with free := true, next := s.mem.head } with
                head := some f } := by
            simp [Mem.free, hadd, hcount, hone]
          rw [hrun, hone]
          exact h'
        · intro g hg
          by_cases hgf : g = f
          · simp [hgf, hone]
          · have hne : f * 4096 ≠ g * 4096 := by omega
            simp [Function.update_of_ne hgf, hg, Ne.symm hgf]
      · refine ⟨role, ?_, ?_⟩
        · have h' := h.recount hf (n := s.balance (f * 4096) - 1) (by omega)
          have hrun : s.mem.free (f * 4096) =
              s.mem.setPage f { s.mem.page f with refCount := s.balance (f * 4096) - 1 } := by
            have hlt : 1 < s.balance (f * 4096) := by omega
            simp [Mem.free, hadd, hcount, hlt]
          rw [hrun]
          exact h'
        · intro g hg
          simp only [hg, false_iff, FrameOp.free.injEq, not_and]
          intro heq
          rwa [← heq]

end Counted

/-- The allocator is a pool of counted frames. In every state that balanced
operations reach, the list from `head` ends, has no frame twice and holds
exactly the entries with `free` set; `allocate_page` returns an address that is
not outstanding; an outstanding address has its balance as `ref_count` and is
not on the list; and a frame goes back on the list exactly at the `free` that
balances its allocation and its counts. -/
theorem allocator_refines_counted_pool (s : Frames)
    (h : Reachable Frames.step Balanced FramesStart s) :
    ∃ l, Chain (fun f => (s.mem.page f).next) s.mem.head l ∧ l.Nodup ∧
      (∀ f, f ∈ l ↔ (s.mem.page f).free = true) ∧
      (∀ add m, s.mem.allocatePage = some (add, m) → s.balance add = 0) ∧
      (∀ add, 0 < s.balance add →
        s.mem.getrefcount add = s.balance add ∧ add / 4096 ∉ l) ∧
      ∀ op s', Balanced s op → s.step op = some s' → ∀ f, f ∉ l →
        ((s'.mem.page f).free = true ↔ op = .free (f * 4096) ∧ s.balance (f * 4096) = 1) := by
  obtain ⟨role, hc⟩ : ∃ role, Counted s role := by
    refine h.invariant (P := fun s => ∃ role, Counted s role) (fun s hs => Counted.start hs) ?_
    rintro a op b ⟨role, hc⟩ hok hstep
    obtain ⟨role', hc', -⟩ := hc.step hok hstep
    exact ⟨role', hc'⟩
  obtain ⟨l, hchain, hnodup, hl⟩ := hc.pool.chain
  refine ⟨l, hchain, hnodup, fun f => (hl f).trans (hc.flag f).symm, ?_, ?_, ?_⟩
  · intro add m hrun
    obtain ⟨f, hfree, rfl, -⟩ := hc.pool.alloc hrun
    by_contra hcon
    have hdata := hc.balance_pos.mp (Nat.pos_of_ne_zero hcon)
    simp [hfree] at hdata
  · intro add hpos
    obtain ⟨f, rfl, hf⟩ := hc.out add hpos
    unfold Mem.getrefcount
    rw [frame_div]
    refine ⟨(hc.count f hf).1, ?_⟩
    rw [hl f, hf]
    simp
  · intro op s' hok hstep f hf
    obtain ⟨role', hc', hback⟩ := hc.step hok hstep
    rw [hc'.flag f]
    exact hback f (mt (hl f).mpr hf)

/-- A region of three pages behind the kernel: the first page handed out,
counted once and freed twice, is back on the list. -/
theorem allocator_refines_counted_pool_round :
    ∃ s, Reachable Frames.step Balanced FramesStart s ∧ s.mem.head = some 440 ∧
      s.balance 0x1b8000 = 0 ∧ ∃ l, Chain (fun f => (s.mem.page f).next) s.mem.head l ∧
        l.Nodup ∧ ∀ f, f ∈ l ↔ (s.mem.page f).free = true := by
  let start : Frames := ⟨memMap (blankMem fun _ _ => 0) ⟨0x1b8000, 0x3000⟩ 0, fun _ => 0⟩
  have hstart : Reachable Frames.step Balanced FramesStart start :=
    .start ⟨_, ⟨0x1b8000, 0x3000⟩, 0, by decide, by decide, by decide, rfl, rfl⟩
  obtain ⟨s₁, hs₁⟩ : ∃ s₁, start.step .allocatePage = some s₁ := ⟨_, rfl⟩
  have h₁ := hstart.next (e := FrameOp.allocatePage) trivial hs₁
  have hbal : s₁.balance 0x1b8000 = 1 := by
    obtain rfl := Option.some.inj hs₁
    decide
  have h₂ := h₁.next (e := FrameOp.increfcount 0x1b8000) (show 0 < s₁.balance _ by omega) rfl
  have h₃ := h₂.next (e := FrameOp.free 0x1b8000) (by simp [Balanced]) rfl
  have h₄ := h₃.next (e := FrameOp.free 0x1b8000) (by simp [Balanced, hbal]) rfl
  obtain ⟨l, hchain, hnodup, hl, -⟩ := allocator_refines_counted_pool _ h₄
  refine ⟨_, h₄, ?_, by simp [hbal], l, hchain, hnodup, hl⟩
  obtain rfl := Option.some.inj hs₁
  decide

end X86Kernel.Paging
