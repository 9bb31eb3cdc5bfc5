import X86Kernel.Paging.Frames
import X86Kernel.Paging.Supply

/-!
`init_ia32e_paging`: the kernel builds its linear map. Every page below `physfree`
is mapped, with a new page table for each 512 of them, and behind these four pages
more in the last of the tables, where the kernel is to find its tables later on.
-/

namespace X86Kernel.Paging

open Lib

structure Pointers where
  pml4e : Nat
  pdpte : Nat
  pde : Nat
  pte : Nat

namespace Mem

def setEntry (m : Mem) (p i a : Nat) : Mem := m.set (p / 4096) i (entry a 3)

/-- The body of the loop for page `j`, on `pte` and memory. -/
def mapNext (pde physbase : Nat) (s : Nat × Mem) (j : Nat) : Option (Nat × Mem) :=
  let viraddr := kernBase + 4096 * j
  let phys := physbase + 4096 * j
  if idx viraddr 12 ≠ 0 then some (s.1, s.2.setEntry s.1 (idx viraddr 12) phys)
  else do
    let (pte, m) ← s.2.allocatePage
    let m := m.setEntry pde (idx viraddr 21) pte
    some (pte, m.setEntry pte (idx viraddr 12) phys)

/-- `init_ia32e_paging`. Paging is not on yet, so the tables are written at their
physical addresses. The page table hung in first is replaced by the loop. -/
def initIa32ePaging (m : Mem) (physbase physfree : Nat) : Option (Pointers × Mem) := do
  let (pml4e, m) ← m.allocatePage
  let (pdpte, m) ← m.allocatePage
  let (pde, m) ← m.allocatePage
  let (pte, m) ← m.allocatePage
  let m := m.setEntry pml4e (idx kernBase 39) pdpte
  let m := m.setEntry pdpte (idx kernBase 30) pde
  let m := m.setEntry pde (idx kernBase 21) pte
  let pages := (physfree - physbase + 4095) / 4096
  let (pte, m) ← (List.range pages).foldlM (mapNext pde physbase) (pte, m)
  let viraddr := kernBase + 4096 * pages
  let m := { m with kpml4 := pml4e / 4096 }
  let m := m.setEntry pte (idx (viraddr + 4096) 12) pml4e
  let m := m.setEntry pte (idx (viraddr + 4096 * 2) 12) pdpte
  let m := m.setEntry pte (idx (viraddr + 4096 * 3) 12) pde
  let m := m.setEntry pte (idx (viraddr + 4096 * 4) 12) pte
  some ({ pml4e := viraddr + 4096, pdpte := viraddr + 4096 * 2, pde := viraddr + 4096 * 3,
          pte := viraddr + 4096 * 4 }, m)

def translate (m : Mem) (v : Nat) : Option Nat := (m.walk m.kpml4 v).map addrOf

end Mem

/-- The tables do what they are for: each page below `max` is found in the linear
map, and the static pointers lead to the PML4, the PDPT and the page directory. -/
structure LinearMap (max : Nat) (P : Pointers) (m : Mem) : Prop where
  linear : ∀ a, 4096 ∣ a → a < max → m.translate (kernBase + a) = some a
  pml4e : m.translate P.pml4e = some (m.kpml4 * 4096)
  pdpte : m.translate P.pdpte = some (addrOf (m.word m.kpml4 (idx kernBase 39)))
  pde : m.translate P.pde =
    some (addrOf (m.word (frameOf (m.word m.kpml4 (idx kernBase 39))) (idx kernBase 30)))

section Index

variable {j : Nat}

theorem idx_page_pt (j : Nat) : idx (kernBase + 4096 * j) 12 = j % 512 := by
  simp only [idx, kernBase]
  omega

theorem idx_page_pd (hj : j < 262144) : idx (kernBase + 4096 * j) 21 = j / 512 := by
  simp only [idx, kernBase]
  omega

theorem idx_page_pdpt (hj : j < 262144) : idx (kernBase + 4096 * j) 30 = 510 := by
  simp only [idx, kernBase]
  omega

theorem idx_page_pml4 (hj : j < 262144) : idx (kernBase + 4096 * j) 39 = 511 := by
  simp only [idx, kernBase]
  omega

end Index

/-- The frames of the first four calls. -/
theorem frames_of_length {l : List Nat} {k : Nat} (h : 4 + k ≤ l.length) :
    ∃ p4 p3 p2 p1 ts, l = p4 :: p3 :: p2 :: p1 :: ts := by
  match l, h with
  | p4 :: p3 :: p2 :: p1 :: ts, _ => exact ⟨p4, p3, p2, p1, ts, rfl⟩
  | [], h | [_], h | [_, _], h | [_, _, _], h =>
      simp only [List.length_cons, List.length_nil] at h
      omega

section Loop

variable {m : Mem} {ws : Nat → Nat → Word} {p2 : Nat} {ts : List Nat}

/-- The loop has mapped the first `j` pages. The frames `ts` are its page tables,
one for each 512 pages; `ws` is what memory was before. -/
structure Mapped (ws : Nat → Nat → Word) (p2 : Nat) (ts : List Nat) (j : Nat) (s : Nat × Mem) :
    Prop where
  stock : Stock s.2 (ts.drop ((j + 511) / 512))
  pte : 0 < j → ∃ t, ts[(j - 1) / 512]? = some t ∧ s.1 = t * 4096
  page : ∀ i < j, ∃ t, ts[i / 512]? = some t ∧ s.2.word p2 (i / 512) = entry (t * 4096) 3 ∧
    s.2.word t (i % 512) = entry (i * 4096) 3
  rest : ∀ x, (j + 511) / 512 ≤ x → x ≠ 0 → s.2.word p2 x = ws p2 x
  other : ∀ f, f ≠ p2 → f ∉ ts → s.2.word f = ws f

/-- Two of the tables. -/
theorem tables_ne (hnodup : ts.Nodup) {i j t u : Nat} (ht : ts[i]? = some t) (hu : ts[j]? = some u)
    (hij : i ≠ j) : t ≠ u := by
  rintro rfl
  obtain ⟨hi, hti⟩ := List.getElem?_eq_some_iff.mp ht
  obtain ⟨hj, htj⟩ := List.getElem?_eq_some_iff.mp hu
  exact hij ((hnodup.getElem_inj_iff).mp (hti.trans htj.symm))

/-- A page behind the first of its table. -/
theorem Mapped.fill {pte j : Nat} (h : Mapped ws p2 ts j (pte, m)) (hnodup : ts.Nodup)
    (hp2 : p2 ∉ ts) (hj : j % 512 ≠ 0) :
    Mapped ws p2 ts (j + 1) (pte, m.setEntry pte (j % 512) (4096 * j)) := by
  obtain ⟨t, ht, rfl⟩ := h.pte (by omega)
  have hcount : (j + 1 + 511) / 512 = (j + 511) / 512 := by omega
  have hcur : (j - 1) / 512 = j / 512 := by omega
  rw [hcur] at ht
  have htmem := List.mem_of_getElem? ht
  have htp2 : p2 ≠ t := by
    rintro rfl
    exact hp2 htmem
  -- the table hangs in the directory since its first page
  have hdir : m.word p2 (j / 512) = entry (t * 4096) 3 := by
    obtain ⟨u, hu, hdir, -⟩ := h.page (j - 1) (by omega)
    rw [hcur] at hu hdir
    obtain rfl : t = u := Option.some.inj (ht.symm.trans hu)
    exact hdir
  unfold Mem.setEntry
  rw [frame_div]
  refine ⟨?_, ?_, ?_, ?_, ?_⟩
  · rw [hcount]
    exact h.stock.congr rfl rfl
  · intro _
    exact ⟨t, by rwa [Nat.add_sub_cancel], rfl⟩
  · intro i hi
    obtain rfl | hij : i = j ∨ i < j := by omega
    · refine ⟨t, ht, ?_, ?_⟩
      · rw [Mem.set_word_of_ne _ _ htp2]
        exact hdir
      · rw [Mem.set_word_self, Nat.mul_comm]
    · obtain ⟨u, hu, hdir', hpage⟩ := h.page i hij
      refine ⟨u, hu, ?_, ?_⟩
      · rw [Mem.set_word_of_ne _ _ htp2]
        exact hdir'
      · rw [Mem.set_word, if_neg ?_]
        · exact hpage
        · rintro ⟨rfl, hmod⟩
          exact tables_ne hnodup hu ht (by omega) rfl
  · intro x hx hx0
    rw [Mem.set_word_of_ne _ _ htp2]
    exact h.rest x (by omega) hx0
  · intro f hf hts
    rw [Mem.set_word_of_ne]
    · exact h.other f hf hts
    · rintro rfl
      exact hts htmem

/-- The first page of a table. -/
theorem Mapped.hang {pte j : Nat} (h : Mapped ws p2 ts j (pte, m)) (hnodup : ts.Nodup)
    (hp2 : p2 ∉ ts) (hj : j % 512 = 0) (hlen : j / 512 < ts.length) :
    ∃ t m', m.allocatePage = some (t * 4096, m') ∧
      Mapped ws p2 ts (j + 1) (t * 4096,
        (m'.setEntry (p2 * 4096) (j / 512) (t * 4096)).setEntry (t * 4096) 0 (4096 * j)) := by
  have hcount : (j + 511) / 512 = j / 512 := by omega
  have hnext : (j + 1 + 511) / 512 = j / 512 + 1 := by omega
  have hstock := h.stock
  rw [hcount, List.drop_eq_getElem_cons hlen] at hstock
  obtain ⟨m', halloc, hword, -, -, hstock'⟩ := hstock.take
  have ht : ts[j / 512]? = some ts[j / 512] := List.getElem?_eq_getElem hlen
  have htmem := List.getElem_mem hlen
  have htp2 : p2 ≠ ts[j / 512] := by
    intro heq
    exact hp2 (heq ▸ htmem)
  refine ⟨ts[j / 512], m', halloc, ?_⟩
  unfold Mem.setEntry
  rw [frame_div, frame_div]
  refine ⟨?_, ?_, ?_, ?_, ?_⟩
  · rw [hnext]
    exact hstock'.congr rfl rfl
  · intro _
    exact ⟨ts[j / 512], by rwa [Nat.add_sub_cancel], rfl⟩
  · intro i hi
    obtain rfl | hij : i = j ∨ i < j := by omega
    · refine ⟨ts[i / 512], ht, ?_, ?_⟩
      · rw [Mem.set_word_of_ne _ _ htp2, Mem.set_word_self]
      · rw [hj, Mem.set_word_self, Nat.mul_comm]
    · obtain ⟨u, hu, hdir, hpage⟩ := h.page i hij
      have hut : u ≠ ts[j / 512] := tables_ne hnodup hu ht (by omega)
      have hup2 : u ≠ p2 := by
        rintro rfl
        exact hp2 (List.mem_of_getElem? hu)
      refine ⟨u, hu, ?_, ?_⟩
      · rw [Mem.set_word_of_ne _ _ htp2, Mem.set_word, if_neg (by omega), hword]
        exact hdir
      · rw [Mem.set_word_of_ne _ _ hut, Mem.set_word_of_ne _ _ hup2, hword]
        exact hpage
  · intro x hx hx0
    rw [Mem.set_word_of_ne _ _ htp2, Mem.set_word, if_neg (by omega), hword]
    exact h.rest x (by omega) hx0
  · intro f hf hts
    have hft : f ≠ ts[j / 512] := by
      rintro rfl
      exact hts htmem
    rw [Mem.set_word_of_ne _ _ hft, Mem.set_word_of_ne _ _ hf, hword]
    exact h.other f hf hts

/-- The loop, for at most a gigabyte. -/
theorem mapNext_run {n : Nat} (pte : Nat) (hs : Stock m ts) (hp2 : p2 ∉ ts) (hn : n ≤ 262144)
    (hlen : (n + 511) / 512 ≤ ts.length) :
    ∃ s, (List.range n).foldlM (Mem.mapNext (p2 * 4096) 0) (pte, m) = some s ∧
      Mapped m.word p2 ts n s := by
  refine foldlM_range_total (P := Mapped m.word p2 ts) ?_ ?_
  · refine ⟨by simpa using hs, by simp, by simp, fun _ _ _ => rfl, fun _ _ _ => rfl⟩
  · rintro j ⟨pte, m₁⟩ hj h
    unfold Mem.mapNext
    dsimp only
    rw [idx_page_pt, idx_page_pd (by omega), Nat.zero_add]
    by_cases hzero : j % 512 = 0
    · obtain ⟨t, m₂, halloc, hnext⟩ := h.hang hs.nodup hp2 hzero (by omega)
      refine ⟨_, ?_, hnext⟩
      rw [if_neg (by simp [hzero]), halloc, hzero]
      rfl
    · exact ⟨_, if_pos hzero, h.fill hs.nodup hp2 hzero⟩

end Loop

section Build

variable {m : Mem} {p4 p3 p2 p1 n t : Nat} {ts : List Nat}

/-- What `init_ia32e_paging` leaves for `n` pages: `t` is the last of the page
tables, with the four pages more. -/
structure Built (ws : Nat → Nat → Word) (p4 p3 p2 : Nat) (ts : List Nat) (n t : Nat) (m : Mem) :
    Prop where
  kpml4 : m.kpml4 = p4
  top : m.word p4 511 = entry (p3 * 4096) 3
  middle : m.word p3 510 = entry (p2 * 4096) 3
  last : ts[(n - 1) / 512]? = some t
  table : ∀ i < n, ∃ u, ts[i / 512]? = some u ∧ m.word p2 (i / 512) = entry (u * 4096) 3 ∧
    ((i / 512 = (n - 1) / 512 → ∀ c, 1 ≤ c → c ≤ 4 → i % 512 ≠ (n + c) % 512) →
      m.word u (i % 512) = entry (i * 4096) 3)
  rest : ∀ x, (n + 511) / 512 ≤ x → m.word p2 x = ws p2 x
  more : m.word t ((n + 1) % 512) = entry (p4 * 4096) 3 ∧
    m.word t ((n + 2) % 512) = entry (p3 * 4096) 3 ∧
    m.word t ((n + 3) % 512) = entry (p2 * 4096) 3 ∧ m.word t ((n + 4) % 512) = entry (t * 4096) 3
  stock : Stock m (ts.drop ((n + 511) / 512))

/-- The static pointers behind `n` pages. -/
def pointersAt (n : Nat) : Pointers where
  pml4e := kernBase + 4096 * (n + 1)
  pdpte := kernBase + 4096 * (n + 2)
  pde := kernBase + 4096 * (n + 3)
  pte := kernBase + 4096 * (n + 4)

/-- Memory behind the loop, with the four pages more in the table `t`. -/
def withMore (m : Mem) (p4 p3 p2 n t : Nat) : Mem :=
  (((({ m with kpml4 := p4 } : Mem).set t ((n + 1) % 512) (entry (p4 * 4096) 3)).set t
    ((n + 2) % 512) (entry (p3 * 4096) 3)).set t ((n + 3) % 512) (entry (p2 * 4096) 3)).set t
    ((n + 4) % 512) (entry (t * 4096) 3)

theorem withMore_of_ne {f : Nat} (hf : f ≠ t) : (withMore m p4 p3 p2 n t).word f = m.word f := by
  unfold withMore
  rw [Mem.set_word_of_ne _ _ hf, Mem.set_word_of_ne _ _ hf, Mem.set_word_of_ne _ _ hf,
    Mem.set_word_of_ne _ _ hf]

theorem withMore_of_off {f x : Nat} (hx : ∀ c, 1 ≤ c → c ≤ 4 → x ≠ (n + c) % 512) :
    (withMore m p4 p3 p2 n t).word f x = m.word f x := by
  unfold withMore
  rw [Mem.set_word, if_neg (fun h => hx 4 (by omega) (by omega) h.2), Mem.set_word,
    if_neg (fun h => hx 3 (by omega) (by omega) h.2), Mem.set_word,
    if_neg (fun h => hx 2 (by omega) (by omega) h.2), Mem.set_word,
    if_neg (fun h => hx 1 (by omega) (by omega) h.2)]

/-- What the loop has done, once the four pages are there. -/
theorem Mapped.built {ws : Nat → Nat → Word} (h : Mapped ws p2 ts n (t * 4096, m)) (hpos : 0 < n)
    (hnodup : ts.Nodup) (ht : ts[(n - 1) / 512]? = some t) (hp2 : p2 ∉ ts) (hp4 : p4 ∉ ts)
    (hp3 : p3 ∉ ts) (h42 : p4 ≠ p2) (h32 : p3 ≠ p2) (htop : ws p4 511 = entry (p3 * 4096) 3)
    (hmiddle : ws p3 510 = entry (p2 * 4096) 3) :
    Built ws p4 p3 p2 ts n t (withMore m p4 p3 p2 n t) := by
  have htmem := List.mem_of_getElem? ht
  have hne : ∀ {f}, f ∉ ts → f ≠ t := by
    rintro f hf rfl
    exact hf htmem
  refine ⟨rfl, ?_, ?_, ht, ?_, ?_, ?_, h.stock.congr rfl rfl⟩
  · rw [withMore_of_ne (hne hp4), ← htop]
    exact congrFun (h.other p4 h42 hp4) 511
  · rw [withMore_of_ne (hne hp3), ← hmiddle]
    exact congrFun (h.other p3 h32 hp3) 510
  · intro i hi
    obtain ⟨u, hu, hdir, hpage⟩ := h.page i hi
    refine ⟨u, hu, ?_, ?_⟩
    · rw [withMore_of_ne (hne hp2)]
      exact hdir
    · intro hoff
      by_cases hlast : i / 512 = (n - 1) / 512
      · rw [withMore_of_off (hoff hlast)]
        exact hpage
      · rw [withMore_of_ne (tables_ne hnodup hu ht hlast)]
        exact hpage
  · intro x hx
    rw [withMore_of_ne (hne hp2)]
    exact h.rest x hx (by omega)
  · have hdistinct : ∀ c d, c < d → d ≤ 4 → (n + c) % 512 ≠ (n + d) % 512 := by
      intro c d hcd hd
      omega
    unfold withMore
    refine ⟨?_, ?_, ?_, by rw [Mem.set_word_self]⟩
    · rw [Mem.set_word, if_neg (fun h => hdistinct 1 4 (by omega) (by omega) h.2), Mem.set_word,
        if_neg (fun h => hdistinct 1 3 (by omega) (by omega) h.2), Mem.set_word,
        if_neg (fun h => hdistinct 1 2 (by omega) (by omega) h.2), Mem.set_word_self]
    · rw [Mem.set_word, if_neg (fun h => hdistinct 2 4 (by omega) (by omega) h.2), Mem.set_word,
        if_neg (fun h => hdistinct 2 3 (by omega) (by omega) h.2), Mem.set_word_self]
    · rw [Mem.set_word, if_neg (fun h => hdistinct 3 4 (by omega) (by omega) h.2),
        Mem.set_word_self]

theorem initIa32ePaging_built (hs : Stock m (p4 :: p3 :: p2 :: p1 :: ts)) (hpos : 0 < n)
    (hn : n ≤ 262144) (hlen : (n + 511) / 512 ≤ ts.length) :
    ∃ m' t, m.initIa32ePaging 0 (4096 * n) = some (pointersAt n, m') ∧
      Built m.word p4 p3 p2 ts n t m' := by
  have hnodup := hs.nodup
  simp only [List.nodup_cons, List.mem_cons, not_or] at hnodup
  obtain ⟨⟨h43, h42, h41, h4⟩, ⟨h32, h31, h3⟩, ⟨h21, h2⟩, h1, hts⟩ := hnodup
  obtain ⟨m₁, ha₁, hw₁, -, -, hs₁⟩ := hs.take
  obtain ⟨m₂, ha₂, hw₂, -, -, hs₂⟩ := hs₁.take
  obtain ⟨m₃, ha₃, hw₃, -, -, hs₃⟩ := hs₂.take
  obtain ⟨m₄, ha₄, hw₄, -, -, hs₄⟩ := hs₃.take
  have hpages : (4096 * n - 0 + 4095) / 4096 = n := by omega
  let m₅ := ((m₄.setEntry (p4 * 4096) 511 (p3 * 4096)).setEntry (p3 * 4096) 510
    (p2 * 4096)).setEntry (p2 * 4096) 0 (p1 * 4096)
  have hs₅ : Stock m₅ ts := hs₄.congr rfl rfl
  obtain ⟨⟨pte, m₆⟩, hrun, hM⟩ := mapNext_run (p1 * 4096) hs₅ h2 hn hlen
  obtain ⟨t, ht, rfl⟩ := hM.pte hpos
  have hoff : ∀ c, idx (kernBase + 4096 * n + 4096 * c) 12 = (n + c) % 512 := by
    intro c
    rw [Nat.add_assoc, ← Nat.mul_add]
    exact idx_page_pt (n + c)
  have hword₅ : ∀ f x, m₅.word f x = if f = p2 ∧ x = 0 then entry (p1 * 4096) 3
      else if f = p3 ∧ x = 510 then entry (p2 * 4096) 3
      else if f = p4 ∧ x = 511 then entry (p3 * 4096) 3 else m.word f x := by
    intro f x
    simp only [m₅, Mem.setEntry, frame_div, Mem.set_word, hw₄, hw₃, hw₂, hw₁]
  have hB := hM.built hpos hts ht h2 h4 h3 h42 h32 (by rw [hword₅]; simp [h42, h43])
    (by rw [hword₅]; simp [h32])
  refine ⟨withMore m₆ p4 p3 p2 n t, t, ?_, { hB with rest := ?_ }⟩
  · unfold Mem.initIa32ePaging
    rw [ha₁, Option.bind_eq_bind, Option.bind_some]
    dsimp only
    rw [ha₂, Option.bind_some]
    dsimp only
    rw [ha₃, Option.bind_some]
    dsimp only
    rw [ha₄, Option.bind_some]
    dsimp only
    have hloop : (List.range ((4096 * n - 0 + 4095) / 4096)).foldlM (Mem.mapNext (p2 * 4096) 0)
        (p1 * 4096, ((m₄.setEntry (p4 * 4096) (idx kernBase 39) (p3 * 4096)).setEntry (p3 * 4096)
          (idx kernBase 30) (p2 * 4096)).setEntry (p2 * 4096) (idx kernBase 21) (p1 * 4096)) =
        some (t * 4096, m₆) := by
      rw [hpages]
      exact hrun
    rw [hloop, Option.bind_some, hpages]
    have hone := hoff 1
    rw [Nat.mul_one] at hone
    simp only [hone, hoff, Mem.setEntry, frame_div]
    simp only [withMore, pointersAt, Nat.mul_add, Nat.mul_one, Nat.add_assoc]
  · intro x hx
    rw [hB.rest x hx, hword₅]
    simp [show x ≠ 0 by omega, Ne.symm h32, Ne.symm h42]

end Build

section Translate

variable {ws : Nat → Nat → Word} {m : Mem} {p4 p3 p2 n t j : Nat} {ts : List Nat}

/-- The tables of the linear map are two entries of the directory and of the page
table behind it. -/
theorem Built.walk (h : Built ws p4 p3 p2 ts n t m) (h3 : p3 < 2 ^ 52) (h2 : p2 < 2 ^ 52)
    (hj : j < 262144) : m.walk m.kpml4 (kernBase + 4096 * j) =
      if present (m.word p2 (j / 512)) then
        if present (m.word (frameOf (m.word p2 (j / 512))) (j % 512)) then
          some (m.word (frameOf (m.word p2 (j / 512))) (j % 512))
        else none
      else none := by
  have hflags : (3 : Word) &&& pageMask = 0 := by decide
  have hpresent : present (3 : Word) = true := by decide
  simp only [Mem.walk, idx_page_pml4 hj, idx_page_pdpt hj, idx_page_pd hj, idx_page_pt, h.kpml4,
    h.top, frameOf_entry hflags h3, h.middle, frameOf_entry hflags h2, present_entry, hpresent,
    if_true]

/-- A page whose table hangs in the directory. -/
theorem Built.translate (h : Built ws p4 p3 p2 ts n t m) (h3 : p3 < 2 ^ 52) (h2 : p2 < 2 ^ 52)
    (hj : j < 262144) {u f : Nat} (hu : u < 2 ^ 52) (hf : f < 2 ^ 52)
    (hdir : m.word p2 (j / 512) = entry (u * 4096) 3)
    (hpage : m.word u (j % 512) = entry (f * 4096) 3) :
    m.translate (kernBase + 4096 * j) = some (f * 4096) := by
  have hflags : (3 : Word) &&& pageMask = 0 := by decide
  have hpresent : present (3 : Word) = true := by decide
  unfold Mem.translate
  rw [h.walk h3 h2 hj]
  simp only [hdir, frameOf_entry hflags hu, hpage, present_entry, hpresent, if_true,
    Option.map_some, Option.some.injEq]
  exact addrOf_entry hflags (by omega) (Dvd.intro_left _ rfl)

/-- The page table of the last pages. -/
theorem Built.directory (h : Built ws p4 p3 p2 ts n t m) (hpos : 0 < n)
    (hj : j / 512 = (n - 1) / 512) : m.word p2 (j / 512) = entry (t * 4096) 3 := by
  obtain ⟨u, hu, hdir, -⟩ := h.table (n - 1) (by omega)
  obtain rfl : t = u := Option.some.inj (h.last.symm.trans hu)
  rw [hj]
  exact hdir

/-- The PDPT and the directory, as the walk finds them. -/
theorem Built.tables (h : Built ws p4 p3 p2 ts n t m) (h3 : p3 < 2 ^ 52) (h2 : p2 < 2 ^ 52) :
    addrOf (m.word m.kpml4 (idx kernBase 39)) = p3 * 4096 ∧
      addrOf (m.word (frameOf (m.word m.kpml4 (idx kernBase 39))) (idx kernBase 30)) =
        p2 * 4096 := by
  have hflags : (3 : Word) &&& pageMask = 0 := by decide
  have i39 : idx kernBase 39 = 511 := by decide
  have i30 : idx kernBase 30 = 510 := by decide
  rw [i39, i30, h.kpml4, h.top, frameOf_entry hflags h3, h.middle]
  exact ⟨addrOf_entry hflags (by omega) (Dvd.intro_left _ rfl),
    addrOf_entry hflags (by omega) (Dvd.intro_left _ rfl)⟩

/-- With room for the pages behind it the linear map is whole. -/
theorem Built.linearMap (h : Built ws p4 p3 p2 ts n t m)
    (hb : ∀ f ∈ p4 :: p3 :: p2 :: ts, f < 2 ^ 52) (hpos : 0 < n) (hn : n + 4 ≤ 262144)
    (hroom : 1 ≤ n % 512 ∧ n % 512 ≤ 507 ∨ n % 512 = 508 ∧ t = 512 * (n / 512)) :
    LinearMap (4096 * n) (pointersAt n) m := by
  have h4 := hb p4 (by simp)
  have h3 := hb p3 (by simp)
  have h2 := hb p2 (by simp)
  have hts : ∀ f ∈ ts, f < 2 ^ 52 := fun f hf => hb f (by simp [hf])
  have ht := hts t (List.mem_of_getElem? h.last)
  obtain ⟨hpdpt, hpd⟩ := h.tables h3 h2
  obtain ⟨hone, htwo, hthree, hfour⟩ := h.more
  have hmore : ∀ c, 1 ≤ c → c ≤ 3 → m.word p2 ((n + c) / 512) = entry (t * 4096) 3 :=
    fun c _ _ => h.directory hpos (by omega)
  refine ⟨?_, ?_, ?_, ?_⟩
  · rintro a ⟨j, rfl⟩ hj
    have hj : j < n := by omega
    by_cases hover : t = 512 * (n / 512) ∧ n % 512 = 508 ∧ j = 512 * (n / 512)
    · -- the table's own page, on the entry of the frame it is in
      obtain ⟨hself, hmod, hfirst⟩ := hover
      rw [h.translate h3 h2 (by omega) ht ht (h.directory hpos (by omega))
        (by rw [show j % 512 = (n + 4) % 512 by omega]; exact hfour)]
      congr 1
      omega
    · obtain ⟨u, hu, hdir, hpage⟩ := h.table j hj
      have hu' := hts u (List.mem_of_getElem? hu)
      rw [h.translate h3 h2 (by omega) hu' (by omega) hdir (hpage ?_)]
      · congr 1
        omega
      · intro hlast c hc hc4
        omega
  · exact (h.translate h3 h2 (by omega) ht h4 (hmore 1 (by omega) (by omega)) hone).trans
      (by rw [h.kpml4])
  · rw [hpdpt]
    exact h.translate h3 h2 (by omega) ht h3 (hmore 2 (by omega) (by omega)) htwo
  · rw [hpd]
    exact h.translate h3 h2 (by omega) ht h2 (hmore 3 (by omega) (by omega)) hthree

/-- The fourth page falls on the entry of the table's first page. -/
theorem Built.last_of_linearMap (h : Built ws p4 p3 p2 ts n t m)
    (hb : ∀ f ∈ p4 :: p3 :: p2 :: ts, f < 2 ^ 52) (hn : n + 4 ≤ 262144) (hmod : n % 512 = 508)
    {P : Pointers} (hmap : LinearMap (4096 * n) P m) : t = 512 * (n / 512) := by
  have ht := hb t (by simp [List.mem_of_getElem? h.last])
  obtain ⟨-, -, -, hfour⟩ := h.more
  have hlin := hmap.linear (4096 * (512 * (n / 512))) (Nat.dvd_mul_right _ _) (by omega)
  rw [h.translate (hb p3 (by simp)) (hb p2 (by simp)) (by omega) ht ht
    (h.directory (by omega) (by omega))
    (by rw [show 512 * (n / 512) % 512 = (n + 4) % 512 by omega]; exact hfour)] at hlin
  have := Option.some.inj hlin
  omega

/-- Where `pde` is behind the last table, nothing has been put into the directory. -/
theorem Built.not_linearMap (h : Built ws p4 p3 p2 ts n t m)
    (hb : ∀ f ∈ p4 :: p3 :: p2 :: ts, f < 2 ^ 52) (hpos : 0 < n) (hn : n + 4 ≤ 262144)
    (hmod : n % 512 = 0 ∨ 509 ≤ n % 512) (hzero : present (ws p2 ((n + 3) / 512)) = false) :
    ¬ LinearMap (4096 * n) (pointersAt n) m := by
  intro hmap
  have hpde := hmap.pde
  unfold Mem.translate at hpde
  have hnone : m.walk m.kpml4 (pointersAt n).pde = none := by
    rw [pointersAt, h.walk (hb p3 (by simp)) (hb p2 (by simp)) (by omega),
      h.rest ((n + 3) / 512) (by omega), hzero]
    rfl
  rw [hnone] at hpde
  simp at hpde

end Translate

/-- `init_ia32e_paging` is right, whatever the free frames contain, if and only if
the last page table has room for the four pages behind those of the linear map. With
room for three of them the fourth, its own, falls on the entry of its first page,
which does no harm if the table is just there. -/
theorem linear_map_iff (m : Mem) (l : List Nat) (max : Nat) (hpos : 0 < max) (hdvd : 4096 ∣ max)
    (hcap : max ≤ capacity * 4096) (hs : Stock m l) (hbelow : ∀ f ∈ l, f * 4096 < max)
    (henough : 4 + (max / 4096 + 511) / 512 ≤ l.length) :
    (∀ ws, ∃ P m', Mem.initIa32ePaging { m with word := ws } 0 max = some (P, m') ∧
      LinearMap max P m') ↔
    1 ≤ max / 4096 % 512 ∧ max / 4096 % 512 ≤ 507 ∨
      max / 4096 % 512 = 508 ∧
        l[4 + max / 4096 / 512]? = some (512 * (max / 4096 / 512)) := by
  obtain ⟨n, rfl⟩ := hdvd
  rw [Nat.mul_div_cancel_left n (by decide)] at henough ⊢
  simp only [capacity] at hcap
  obtain ⟨p4, p3, p2, p1, ts, rfl⟩ := frames_of_length henough
  simp only [List.length_cons] at henough
  have hb : ∀ f ∈ p4 :: p3 :: p2 :: ts, f < 2 ^ 52 := by
    intro f hf
    have := hbelow f (by simp only [List.mem_cons] at hf ⊢; tauto)
    omega
  have hbuilt : ∀ ws, ∃ m' t,
      Mem.initIa32ePaging { m with word := ws } 0 (4096 * n) = some (pointersAt n, m') ∧
        Built ws p4 p3 p2 ts n t m' := fun ws =>
    initIa32ePaging_built (m := { m with word := ws }) (hs.congr rfl rfl) (by omega) (by omega)
      (by omega)
  have hlast : (p4 :: p3 :: p2 :: p1 :: ts)[4 + n / 512]? = ts[n / 512]? := by
    rw [Nat.add_comm]
    rfl
  rw [hlast]
  constructor
  · intro hall
    obtain ⟨m', t, hrun, hB⟩ := hbuilt fun _ _ => 0
    obtain ⟨P, m₁, hrun₁, hmap⟩ := hall fun _ _ => 0
    obtain ⟨rfl, rfl⟩ := Prod.mk.inj (Option.some.inj (hrun.symm.trans hrun₁))
    by_cases hmod : n % 512 = 0 ∨ 509 ≤ n % 512
    · exact absurd hmap (hB.not_linearMap hb (by omega) (by omega) hmod (by decide))
    · by_cases h508 : n % 512 = 508
      · have ht := hB.last_of_linearMap hb (by omega) h508 hmap
        refine .inr ⟨h508, ?_⟩
        rw [← ht, ← hB.last, show (n - 1) / 512 = n / 512 by omega]
      · omega
  · intro hroom ws
    obtain ⟨m', t, hrun, hB⟩ := hbuilt ws
    refine ⟨_, m', hrun, hB.linearMap hb (by omega) (by omega) ?_⟩
    refine hroom.imp_right ?_
    rintro ⟨h508, hself⟩
    have ht := hB.last
    rw [show (n - 1) / 512 = n / 512 by omega, hself] at ht
    exact ⟨h508, (Option.some.inj ht).symm⟩

/-- Three megabytes. -/
theorem linear_map_iff_three :
    ∃ P m', Mem.initIa32ePaging clearedMem 0 0x300000 = some (P, m') ∧ LinearMap 0x300000 P m' :=
  (linear_map_iff clearedMem [600, 601, 602, 603, 604, 605] 0x300000 (by decide) (by decide)
    (by decide) clearedMem_stock (by decide) (by decide)).mpr (.inl (by decide)) clearedMem.word

/-- With four megabytes the second page table is full: the pages behind the linear
map fall on its first entries, and are not found where they were to be. -/
theorem full_table_unmapped :
    ¬ ∀ m l max, 0 < max → 4096 ∣ max → max ≤ capacity * 4096 → Stock m l →
      (∀ f ∈ l, f * 4096 < max) → 4 + (max / 4096 + 511) / 512 ≤ l.length →
        ∃ P m', Mem.initIa32ePaging m 0 max = some (P, m') ∧ LinearMap max P m' := by
  intro hall
  obtain ⟨P, m₁, hrun₁, hmap⟩ := hall clearedMem [600, 601, 602, 603, 604, 605] (4096 * 1024)
    (by decide) (by decide) (by decide) clearedMem_stock (by decide) (by decide)
  obtain ⟨m', t, hrun, hB⟩ := initIa32ePaging_built (n := 1024) clearedMem_stock (by decide)
    (by decide) (by decide)
  obtain ⟨rfl, rfl⟩ := Prod.mk.inj (Option.some.inj (hrun.symm.trans hrun₁))
  exact hB.not_linearMap (by decide) (by decide) (by decide) (by decide) (by decide) hmap

end X86Kernel.Paging
