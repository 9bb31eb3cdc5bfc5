import X86Kernel.Paging.Frames
import X86Kernel.Paging.Supply

/-!
`mem_map` on one region after the other, as `start` calls it. The first region that has
a usable page makes the list. `head` is kept from call to call but `last` is not, so the
pages of the next such region are linked to each other and to nothing else.
-/

namespace X86Kernel.Paging

open Lib

def memMaps (m : Mem) (regs : List Smap) (physfree : Nat) : Mem :=
  regs.foldl (fun m sm => memMap m sm physfree) m

def Smap.Page (sm : Smap) (f : Nat) : Prop :=
  sm.base ≤ f * 4096 ∧ f * 4096 < sm.base + sm.length

/-- It is behind the kernel and not the last one. -/
def Smap.Usable (sm : Smap) (physfree f : Nat) : Prop :=
  sm.Page f ∧ physfree + sizeofPagelist < f * 4096 ∧ f * 4096 + 4096 < sm.base + sm.length

structure MemoryMap (regs : List Smap) : Prop where
  base : ∀ sm ∈ regs, 4096 ∣ sm.base
  length : ∀ sm ∈ regs, 4096 ∣ sm.length ∧ 0 < sm.length
  fit : ∀ sm ∈ regs, sm.base + sm.length ≤ capacity * 4096
  apart : regs.Pairwise fun a b => a.base + a.length ≤ b.base ∨ b.base + b.length ≤ a.base

structure AllListed (regs : List Smap) (physfree : Nat) (m : Mem) : Prop where
  list : ∃ l, FreeList m l ∧ l.Nodup ∧ ∀ f, f ∈ l ↔ ∃ sm ∈ regs, sm.Usable physfree f
  rest : ∀ sm ∈ regs, ∀ f, sm.Page f → ¬ sm.Usable physfree f →
    (m.page f).refCount = 1 ∧ (m.page f).free = false

/-- The usable ones of the first `k` pages of a region. -/
def usableUpTo (physfree : Nat) (sm : Smap) (k : Nat) : List Nat :=
  ((List.range k).map (sm.base / 4096 + ·)).filter fun f =>
    physfree + sizeofPagelist < f * 4096 ∧ f * 4096 + 4096 < sm.base + sm.length

def usable (physfree : Nat) (sm : Smap) : List Nat :=
  usableUpTo physfree sm ((sm.length + 4095) / 4096)

section Region

variable {m₀ m : Mem} {last : Option Nat} {physfree k f : Nat} {sm : Smap}

theorem mem_usableUpTo : f ∈ usableUpTo physfree sm k ↔
    (sm.base / 4096 ≤ f ∧ f < sm.base / 4096 + k) ∧
      physfree + sizeofPagelist < f * 4096 ∧ f * 4096 + 4096 < sm.base + sm.length := by
  simp only [usableUpTo, List.mem_filter, List.mem_map, List.mem_range, decide_eq_true_eq]
  refine and_congr ⟨?_, ?_⟩ Iff.rfl
  · rintro ⟨i, hi, rfl⟩
    omega
  · exact fun h => ⟨f - sm.base / 4096, by omega, by omega⟩

/-- The pages of an aligned region by their numbers. -/
theorem page_iff (hbase : 4096 ∣ sm.base) (hlength : 4096 ∣ sm.length) :
    sm.Page f ↔ sm.base / 4096 ≤ f ∧ f < sm.base / 4096 + (sm.length + 4095) / 4096 := by
  unfold Smap.Page
  omega

theorem mem_usable (hbase : 4096 ∣ sm.base) (hlength : 4096 ∣ sm.length) :
    f ∈ usable physfree sm ↔ sm.Usable physfree f := by
  rw [usable, mem_usableUpTo, Smap.Usable, page_iff hbase hlength]

structure Laid (m₀ : Mem) (physfree : Nat) (sm : Smap) (k : Nat) (st : Mem × Option Nat) :
    Prop where
  chain : Chain (fun f => (st.1.page f).next) (usableUpTo physfree sm k).head?
    (usableUpTo physfree sm k)
  head : st.1.head = m₀.head.or (usableUpTo physfree sm k).head?
  last : st.2 = (usableUpTo physfree sm k).getLast?
  rest : ∀ f, sm.base / 4096 ≤ f → f < sm.base / 4096 + k → f ∉ usableUpTo physfree sm k →
    (st.1.page f).refCount = 1 ∧ (st.1.page f).free = false
  other : ∀ f, f < sm.base / 4096 ∨ sm.base / 4096 + k ≤ f → st.1.page f = m₀.page f

/-- A page that is not listed. -/
theorem Laid.skip (h : Laid m₀ physfree sm k (m, last))
    (hnot : ¬ (physfree + sizeofPagelist < (sm.base / 4096 + k) * 4096 ∧
      (sm.base / 4096 + k) * 4096 + 4096 < sm.base + sm.length)) :
    Laid m₀ physfree sm (k + 1) (m.setPage (sm.base / 4096 + k)
      { address := (sm.base / 4096 + k) * 4096, next := none, free := false, refCount := 1 },
        last) := by
  have hsame : usableUpTo physfree sm (k + 1) = usableUpTo physfree sm k := by
    simp [usableUpTo, List.range_succ, hnot]
  have hpage : ∀ f, f ≠ sm.base / 4096 + k → (m.setPage (sm.base / 4096 + k)
      { address := (sm.base / 4096 + k) * 4096, next := none, free := false,
        refCount := 1 }).page f = m.page f := fun f hf => Function.update_of_ne hf _ _
  refine ⟨?_, ?_, ?_, ?_, ?_⟩
  · rw [hsame]
    refine h.chain.congr fun f hf => ?_
    have hlt := (mem_usableUpTo.mp hf).1.2
    simp only [hpage f (by omega)]
  · rw [hsame]
    exact h.head
  · rw [hsame]
    exact h.last
  · intro f hf hlt hnotin
    rw [hsame] at hnotin
    by_cases hfk : f = sm.base / 4096 + k
    · subst hfk
      simp [Mem.setPage]
    · rw [hpage f hfk]
      exact h.rest f hf (by omega) hnotin
  · intro f hf
    rw [hpage f (by omega)]
    exact h.other f (by omega)

/-- `pagelist` with page `n` linked behind `last`. -/
def linked (page : Nat → Page) (last : Option Nat) (n : Nat) : Nat → Page :=
  let page := Function.update page n
    { address := n * 4096, next := none, free := true, refCount := 0 }
  match last with
  | some b => Function.update page b { page b with next := some n }
  | none => page

/-- What the body of the loop does for a usable page. -/
theorem memMapPage_usable {pf limit n : Nat} (hfit : pf < n * 4096 ∧ n * 4096 + 4096 < limit)
    (hlast : m.head = none → last = none) :
    memMapPage pf limit (m, last) (n * 4096) =
      ({ m with page := linked m.page last n, head := m.head.or (some n) }, some n) := by
  simp only [memMapPage, if_pos hfit, frame_div]
  obtain ⟨word, page, head, kpml4⟩ := m
  cases head with
  | none =>
      obtain rfl := hlast rfl
      rfl
  | some b₀ => cases last <;> rfl

/-- The chain of a region and its new page. -/
theorem linked_chain {page : Nat → Page} {us : List Nat} {n : Nat}
    (h : Chain (fun f => (page f).next) us.head? us) (hn : n ∉ us) :
    Chain (fun f => (linked page us.getLast? n f).next) (us ++ [n]).head? (us ++ [n]) := by
  cases hl : us.getLast? with
  | none =>
      obtain rfl : us = [] := List.getLast?_eq_none_iff.mp hl
      refine .cons ?_
      simp only [linked, Function.update_self]
      exact .nil
  | some b =>
      have hb := List.mem_of_getLast? hl
      have hbn : b ≠ n := by
        rintro rfl
        exact hn hb
      have hhead : (us ++ [n]).head? = us.head? := by
        cases us with
        | nil => simp at hb
        | cons a us => rfl
      rw [hhead]
      refine (h.snoc hl hn).congr fun f _ => ?_
      by_cases hfb : f = b
      · subst hfb
        simp [linked]
      · by_cases hfn : f = n
        · subst hfn
          simp [linked, hfb]
        · simp [linked, hfb, hfn]

/-- A page that is listed goes behind the last one of this region. -/
theorem Laid.add (h : Laid m₀ physfree sm k (m, last))
    (hfit : physfree + sizeofPagelist < (sm.base / 4096 + k) * 4096 ∧
      (sm.base / 4096 + k) * 4096 + 4096 < sm.base + sm.length) :
    Laid m₀ physfree sm (k + 1) (memMapPage (physfree + sizeofPagelist) (sm.base + sm.length)
      (m, last) ((sm.base / 4096 + k) * 4096)) := by
  have hsucc : usableUpTo physfree sm (k + 1) =
      usableUpTo physfree sm k ++ [sm.base / 4096 + k] := by
    simp [usableUpTo, List.range_succ, hfit]
  have hfresh : sm.base / 4096 + k ∉ usableUpTo physfree sm k := by
    rw [mem_usableUpTo]
    omega
  have hlast : m.head = none → last = none := by
    intro hnone
    have hhead : m.head = m₀.head.or (usableUpTo physfree sm k).head? := h.head
    rw [hnone] at hhead
    have hempty := (Option.or_eq_none_iff.mp hhead.symm).2
    rw [show last = _ from h.last, List.head?_eq_none_iff.mp hempty]
    rfl
  have hpage : ∀ f, f ∉ usableUpTo physfree sm k → f ≠ sm.base / 4096 + k →
      linked m.page last (sm.base / 4096 + k) f = m.page f := by
    intro f hf hne
    rw [show last = _ from h.last]
    cases hl : (usableUpTo physfree sm k).getLast? with
    | none => simp [linked, hne]
    | some b =>
        have hfb : f ≠ b := by
          rintro rfl
          exact hf (List.mem_of_getLast? hl)
        simp [linked, hne, hfb]
  rw [memMapPage_usable hfit hlast]
  refine ⟨?_, ?_, ?_, ?_, ?_⟩
  · rw [hsucc, show last = _ from h.last]
    exact linked_chain h.chain hfresh
  · change m.head.or (some (sm.base / 4096 + k)) = _
    rw [hsucc, show m.head = _ from h.head]
    cases m₀.head with
    | some b => rfl
    | none => cases usableUpTo physfree sm k <;> rfl
  · rw [hsucc, List.getLast?_concat]
  · intro f hf hlt hnotin
    rw [hsucc, List.mem_append, List.mem_singleton, not_or] at hnotin
    change (linked m.page last (sm.base / 4096 + k) f).refCount = 1 ∧
      (linked m.page last (sm.base / 4096 + k) f).free = false
    rw [hpage f hnotin.1 hnotin.2]
    exact h.rest f hf (by omega) hnotin.1
  · intro f hf
    have hnotin : f ∉ usableUpTo physfree sm k := by
      rw [mem_usableUpTo]
      omega
    change linked m.page last (sm.base / 4096 + k) f = m₀.page f
    rw [hpage f hnotin (by omega)]
    exact h.other f (by omega)

/-- The whole region. -/
theorem memMap_laid (m₀ : Mem) (physfree : Nat) (hbase : 4096 ∣ sm.base) :
    ∃ last, Laid m₀ physfree sm ((sm.length + 4095) / 4096) (memMap m₀ sm physfree, last) := by
  have hloop := foldl_range_invariant (n := (sm.length + 4095) / 4096)
    (f := fun st k =>
      memMapPage (physfree + sizeofPagelist) (sm.base + sm.length) st (sm.base + k * 4096))
    (s := (m₀, none)) (P := Laid m₀ physfree sm)
    ⟨.nil, by simp [usableUpTo], rfl, fun f hf hlt => absurd hlt (by omega), fun _ _ => rfl⟩ ?_
  · exact ⟨_, hloop⟩
  · rintro k ⟨m, last⟩ - h
    have hptr : sm.base + k * 4096 = (sm.base / 4096 + k) * 4096 := by omega
    rw [hptr]
    by_cases hfit : physfree + sizeofPagelist < (sm.base / 4096 + k) * 4096 ∧
        (sm.base / 4096 + k) * 4096 + 4096 < sm.base + sm.length
    · exact h.add hfit
    · have hskip := h.skip hfit
      simpa only [memMapPage, if_neg hfit, frame_div] using hskip

end Region

/-- The list of the first region that has one. -/
def firstUsable (physfree : Nat) : List Smap → List Nat
  | [] => []
  | sm :: regs =>
      if usable physfree sm = [] then firstUsable physfree regs else usable physfree sm

section Regions

variable {regs : List Smap} {sm : Smap} {physfree f : Nat}

theorem MemoryMap.tail (h : MemoryMap (sm :: regs)) : MemoryMap regs :=
  ⟨fun s hs => h.base s (by simp [hs]), fun s hs => h.length s (by simp [hs]),
    fun s hs => h.fit s (by simp [hs]), (List.pairwise_cons.mp h.apart).2⟩

theorem MemoryMap.mem_usable (h : MemoryMap regs) (hsm : sm ∈ regs) :
    f ∈ usable physfree sm ↔ sm.Usable physfree f :=
  Paging.mem_usable (h.base sm hsm) (h.length sm hsm).1

/-- A page is in one region only. -/
theorem MemoryMap.not_page (h : MemoryMap (sm :: regs)) (hf : sm.Page f) {sm' : Smap}
    (hsm' : sm' ∈ regs) : ¬ sm'.Page f := by
  have hapart := (List.pairwise_cons.mp h.apart).1 sm' hsm'
  unfold Smap.Page at hf ⊢
  omega

/-- A later call leaves the list alone, except when there is none. -/
theorem memMaps_spec (h : MemoryMap regs) (m : Mem) (l : List Nat) (hl : FreeList m l)
    (hout : ∀ f ∈ l, ∀ sm ∈ regs, ¬ sm.Page f) :
    FreeList (memMaps m regs physfree) (if l = [] then firstUsable physfree regs else l) ∧
    (∀ sm ∈ regs, ∀ f, sm.Page f → ¬ sm.Usable physfree f →
      ((memMaps m regs physfree).page f).refCount = 1 ∧
        ((memMaps m regs physfree).page f).free = false) ∧
    ∀ f, (∀ sm ∈ regs, ¬ sm.Page f) → (memMaps m regs physfree).page f = m.page f := by
  induction regs generalizing m l with
  | nil =>
      refine ⟨?_, by simp, fun _ _ => rfl⟩
      by_cases hnil : l = []
      · subst hnil
        exact hl
      · rw [if_neg hnil]
        exact hl
  | cons sm regs ih =>
      have hbase := h.base sm (by simp)
      have hlength := (h.length sm (by simp)).1
      obtain ⟨last, hlaid⟩ := memMap_laid m physfree hbase
      have hother : ∀ f, ¬ sm.Page f → (memMap m sm physfree).page f = m.page f := by
        intro f hf
        rw [page_iff hbase hlength] at hf
        exact hlaid.other f (by omega)
      have hfirst : FreeList (memMap m sm physfree) (if l = [] then usable physfree sm else l) := by
        unfold FreeList at hl ⊢
        by_cases hnil : l = []
        · subst hnil
          have hnone : m.head = none := by
            cases hm : m.head with
            | none => rfl
            | some b =>
                rw [hm] at hl
                obtain ⟨rest, hrest, -⟩ := hl.eq_cons
                cases hrest
          have hhead := hlaid.head
          rw [hnone, Option.none_or] at hhead
          rw [if_pos rfl, hhead]
          exact hlaid.chain
        · rw [if_neg hnil]
          have hhead : (memMap m sm physfree).head = m.head := by
            rw [hlaid.head]
            cases hm : m.head with
            | none =>
                rw [hm] at hl
                exact absurd hl.eq_nil hnil
            | some b => rfl
          rw [hhead]
          exact hl.congr fun f hf => by rw [hother f (hout f hf sm (by simp))]
      have hout' : ∀ f ∈ (if l = [] then usable physfree sm else l), ∀ s ∈ regs, ¬ s.Page f := by
        intro f hf s hs
        by_cases hnil : l = []
        · rw [if_pos hnil] at hf
          exact h.not_page ((mem_usable hbase hlength).mp hf).1 hs
        · rw [if_neg hnil] at hf
          exact hout f hf s (by simp [hs])
      obtain ⟨hlist, hrest, hkeep⟩ := ih h.tail (memMap m sm physfree) _ hfirst hout'
      refine ⟨?_, ?_, ?_⟩
      · have heq : (if (if l = [] then usable physfree sm else l) = [] then
            firstUsable physfree regs else if l = [] then usable physfree sm else l) =
            if l = [] then firstUsable physfree (sm :: regs) else l := by
          by_cases hnil : l = []
          · simp only [if_pos hnil, firstUsable]
          · simp only [if_neg hnil]
        rw [heq] at hlist
        exact hlist
      · intro sm' hsm' f hf hnot
        obtain rfl | hsm' := List.mem_cons.mp hsm'
        · have hpage := hkeep f fun s hs => h.not_page hf hs
          change ((memMaps (memMap m sm' physfree) regs physfree).page f).refCount = 1 ∧
            ((memMaps (memMap m sm' physfree) regs physfree).page f).free = false
          rw [hpage]
          obtain ⟨hlo, hhi⟩ := (page_iff hbase hlength).mp hf
          exact hlaid.rest f hlo hhi fun hcon => hnot ((mem_usable hbase hlength).mp hcon)
        · exact hrest sm' hsm' f hf hnot
      · intro f hf
        change (memMaps (memMap m sm physfree) regs physfree).page f = m.page f
        rw [hkeep f fun s hs => hf s (by simp [hs]), hother f (hf sm (by simp))]

theorem firstUsable_mem : firstUsable physfree regs ≠ [] →
    ∃ sm ∈ regs, usable physfree sm ≠ [] ∧ firstUsable physfree regs = usable physfree sm := by
  induction regs with
  | nil => simp [firstUsable]
  | cons sm regs ih =>
      intro hne
      unfold firstUsable at hne ⊢
      by_cases hnil : usable physfree sm = []
      · rw [if_pos hnil] at hne ⊢
        obtain ⟨sm', hsm', h⟩ := ih hne
        exact ⟨sm', by simp [hsm'], h⟩
      · rw [if_neg hnil]
        exact ⟨sm, by simp, hnil, rfl⟩

theorem firstUsable_ne (hsm : sm ∈ regs) (hne : usable physfree sm ≠ []) :
    firstUsable physfree regs ≠ [] := by
  induction regs with
  | nil => simp at hsm
  | cons sm' regs ih =>
      unfold firstUsable
      by_cases hnil : usable physfree sm' = []
      · rw [if_pos hnil]
        obtain rfl | hsm := List.mem_cons.mp hsm
        · exact absurd hnil hne
        · exact ih hsm
      · rwa [if_neg hnil]

/-- A page in two regions. -/
theorem MemoryMap.eq_of_page (h : MemoryMap regs) {sm' : Smap} (hsm : sm ∈ regs)
    (hsm' : sm' ∈ regs) (hf : sm.Page f) (hf' : sm'.Page f) : sm = sm' := by
  induction regs with
  | nil => simp at hsm
  | cons s regs ih =>
      obtain rfl | hin := List.mem_cons.mp hsm
      · obtain rfl | hin' := List.mem_cons.mp hsm'
        · rfl
        · exact absurd hf' (h.not_page hf hin')
      · obtain rfl | hin' := List.mem_cons.mp hsm'
        · exact absurd hf (h.not_page hf' hin)
        · exact ih h.tail hin hin'

end Regions

/-- The list has every usable page if and only if all of them are in one region. -/
theorem memMaps_all_listed_iff (word : Nat → Nat → Word) (regs : List Smap) (physfree : Nat)
    (h : MemoryMap regs) :
    AllListed regs physfree (memMaps (blankMem word) regs physfree) ↔
      ∀ sm ∈ regs, ∀ sm' ∈ regs, (∃ f, sm.Usable physfree f) → (∃ f, sm'.Usable physfree f) →
        sm = sm' := by
  obtain ⟨hlist, hrest, -⟩ := @memMaps_spec _ physfree h (blankMem word) [] .nil
    (by simp)
  rw [if_pos rfl] at hlist
  have hne : ∀ {sm f}, sm ∈ regs → sm.Usable physfree f → usable physfree sm ≠ [] := by
    intro sm f hsm hf hnil
    have hmem := (h.mem_usable hsm).mpr hf
    simp [hnil] at hmem
  constructor
  · rintro ⟨⟨l, hl, -, hmem⟩, -⟩ sm hsm sm' hsm' ⟨f, hf⟩ ⟨f', hf'⟩
    obtain rfl := Chain.unique hlist hl
    obtain ⟨s, hs, -, heq⟩ := firstUsable_mem (firstUsable_ne hsm (hne hsm hf))
    -- both pages are on the list, so both are in the region that made it
    have hin : ∀ {r g}, r ∈ regs → r.Usable physfree g → s = r := by
      intro r g hr hg
      have hlisted := (hmem g).mpr ⟨r, hr, hg⟩
      rw [heq, h.mem_usable hs] at hlisted
      exact h.eq_of_page hs hr hlisted.1 hg.1
    exact (hin hsm hf).symm.trans (hin hsm' hf')
  · intro hone
    refine ⟨⟨_, hlist, Chain.nodup hlist, fun f => ⟨fun hf => ?_, ?_⟩⟩, hrest⟩
    · obtain ⟨sm, hsm, -, heq⟩ := firstUsable_mem (List.ne_nil_of_mem hf)
      rw [heq, h.mem_usable hsm] at hf
      exact ⟨sm, hsm, hf⟩
    · rintro ⟨sm, hsm, hf⟩
      have husable := hne hsm hf
      obtain ⟨s, hs, hsne, heq⟩ := firstUsable_mem (firstUsable_ne hsm husable)
      obtain ⟨g, hg⟩ := List.exists_mem_of_ne_nil _ hsne
      obtain rfl := hone sm hsm s hs ⟨f, hf⟩ ⟨g, (h.mem_usable hs).mp hg⟩
      rw [heq]
      exact (h.mem_usable hsm).mpr hf

/-- Two regions of two pages each behind the kernel. -/
def twoRegions : List Smap :=
  [{ base := 0x1B8000, length := 0x2000 }, { base := 0x200000, length := 0x2000 }]

theorem twoRegions_memoryMap : MemoryMap twoRegions :=
  ⟨by decide, by decide, by decide, by decide⟩

/-- One region of two pages: the list has the first one. -/
theorem memMaps_all_listed_iff_one :
    AllListed [{ base := 0x1B8000, length := 0x2000 }] 0
      (memMaps (blankMem fun _ _ => 0) [{ base := 0x1B8000, length := 0x2000 }] 0) :=
  (memMaps_all_listed_iff _ _ 0 ⟨by decide, by decide, by decide, by decide⟩).mpr (by simp)

/-- The page at 0x200000 is usable and is not on the list. -/
theorem second_region_lost :
    ¬ ∀ word regs physfree, MemoryMap regs →
      AllListed regs physfree (memMaps (blankMem word) regs physfree) := by
  intro hall
  obtain ⟨⟨l, hl, -, hmem⟩, -⟩ := hall (fun _ _ => 0) twoRegions 0 twoRegions_memoryMap
  obtain ⟨hlist, -⟩ := @memMaps_spec _ 0 twoRegions_memoryMap (blankMem fun _ _ => 0)
    [] .nil (by simp)
  obtain rfl := Chain.unique hlist hl
  have hlost : 0x200 ∉ firstUsable 0 twoRegions := by decide
  refine hlost ((hmem 0x200).mpr ⟨{ base := 0x200000, length := 0x2000 }, by simp [twoRegions], ?_⟩)
  unfold Smap.Usable Smap.Page
  decide

end X86Kernel.Paging
