import X86Kernel.Paging.Steps

/-!
What the MMU and `getPTE` read in a well-formed tree, and what an operation on
one address space leaves alone in all the others.
-/

namespace X86Kernel.Paging

open Lib

theorem idx_39 (v : Nat) : idx v 39 = v / 4096 / 134217728 % 512 := by
  unfold idx
  omega

theorem idx_30 (v : Nat) : idx v 30 = v / 4096 / 262144 % 512 := by
  unfold idx
  omega

theorem idx_21 (v : Nat) : idx v 21 = v / 4096 / 512 % 512 := by
  unfold idx
  omega

theorem idx_12 (v : Nat) : idx v 12 = v / 4096 % 512 := by
  unfold idx
  omega

/-- The tables above a page table. -/
theorem Trees.above {word : Nat → Nat → Word} {G : Ghost} (h : Trees word G) {p n : Nat}
    (ht : G.tab (p, 0, n / 512) ≠ none) :
    G.tab (p, 1, n / 262144) ≠ none ∧ G.tab (p, 2, n / 134217728) ≠ none := by
  have h1 := h.up _ _ _ ht (by omega)
  have h2 := h.up _ _ _ h1 (by omega)
  rw [show n / 512 / 512 = n / 262144 by omega] at h1 h2
  rw [show n / 262144 / 512 = n / 134217728 by omega] at h2
  exact ⟨h1, h2⟩

section Descent

variable {m : Mem} {G : Ghost} {p n : Nat}

theorem Inv.word_top (h : Inv m G) (hp : G.tab (p, 3, 0) = some p) (hn : n < userPages) :
    m.word p (n / 134217728 % 512) = tableWord (G.tab (p, 2, n / 134217728)) := by
  simp only [userPages] at hn
  have hkey : 0 * 512 + n / 134217728 % 512 < keys 2 := by
    simp only [keys]
    omega
  have hlink := h.trees.link p 2 0 p _ hp (by omega) hkey
  rwa [show 0 * 512 + n / 134217728 % 512 = n / 134217728 by omega] at hlink

theorem Inv.word_dir (h : Inv m G) {t : Nat} (ht : G.tab (p, 2, n / 134217728) = some t)
    (hn : n < userPages) :
    m.word t (n / 262144 % 512) = tableWord (G.tab (p, 1, n / 262144)) := by
  simp only [userPages] at hn
  have hkey : n / 134217728 * 512 + n / 262144 % 512 < keys 1 := by
    simp only [keys]
    omega
  have hlink := h.trees.link p 1 _ t _ ht (by omega) hkey
  rwa [show n / 134217728 * 512 + n / 262144 % 512 = n / 262144 by omega] at hlink

theorem Inv.word_mid (h : Inv m G) {t : Nat} (ht : G.tab (p, 1, n / 262144) = some t)
    (hn : n < userPages) :
    m.word t (n / 512 % 512) = tableWord (G.tab (p, 0, n / 512)) := by
  simp only [userPages] at hn
  have hkey : n / 262144 * 512 + n / 512 % 512 < keys 0 := by
    simp only [keys]
    omega
  have hlink := h.trees.link p 0 _ t _ ht (by omega) hkey
  rwa [show n / 262144 * 512 + n / 512 % 512 = n / 512 by omega] at hlink

theorem Inv.word_page (h : Inv m G) {t : Nat} (ht : G.tab (p, 0, n / 512) = some t) :
    m.word t (n % 512) = leafWord (G.leaf (p, n)) := by
  have hpage := h.trees.page p _ t _ ht (show n % 512 < 512 by omega)
  rwa [show n / 512 * 512 + n % 512 = n by omega] at hpage

theorem Inv.leaf_none (h : Inv m G) (ht : G.tab (p, 0, n / 512) = none) :
    G.leaf (p, n) = none := by
  by_contra hcon
  exact h.trees.leaf _ _ hcon ht

/-- The MMU finds exactly the pages of the address space. -/
theorem Inv.walk (h : Inv m G) {v : Nat} (hp : G.tab (p, 3, 0) = some p)
    (hv : v / 4096 < userPages) :
    m.walk p v = (G.leaf (p, v / 4096)).map Pte.word := by
  unfold Mem.walk
  simp only [idx_39, idx_30, idx_21, idx_12]
  generalize v / 4096 = n at *
  rw [h.word_top hp hv]
  cases h2 : G.tab (p, 2, n / 134217728) with
  | none =>
      have hleaf := h.leaf_none (p := p) (n := n) (by
        by_contra hcon
        exact (h.trees.above hcon).2 h2)
      simp [hleaf]
  | some t2 =>
      rw [present_tableWord, tableWord_some_frame (h.tab_lt h2), h.word_dir h2 hv]
      cases h1 : G.tab (p, 1, n / 262144) with
      | none =>
          have hleaf := h.leaf_none (p := p) (n := n) (by
            by_contra hcon
            exact (h.trees.above hcon).1 h1)
          simp [hleaf]
      | some t1 =>
          rw [present_tableWord, tableWord_some_frame (h.tab_lt h1), h.word_mid h1 hv]
          cases h0 : G.tab (p, 0, n / 512) with
          | none => simp [h.leaf_none h0]
          | some t0 =>
              rw [present_tableWord, tableWord_some_frame (h.tab_lt h0), h.word_page h0]
              cases hleaf : G.leaf (p, n) with
              | none => simp
              | some e =>
                  simp only [Option.isSome_some, if_true, Option.map_some]
                  rw [present_leafWord]
                  simp [leafWord]

/-- `getPTE` finds the page table, where there is one. -/
theorem Inv.getPTE (h : Inv m G) {v t : Nat} (hp : G.tab (p, 3, 0) = some p)
    (hv : v / 4096 < userPages) (ht : G.tab (p, 0, v / 4096 / 512) = some t) :
    m.getPTE p v = t := by
  unfold Mem.getPTE
  simp only [idx_39, idx_30, idx_21]
  generalize v / 4096 = n at *
  obtain ⟨h1, h2⟩ := h.trees.above (p := p) (n := n) (by simp [ht])
  obtain ⟨t1, h1⟩ := Option.ne_none_iff_exists'.mp h1
  obtain ⟨t2, h2⟩ := Option.ne_none_iff_exists'.mp h2
  rw [h.word_top hp hv, h2, tableWord_some_frame (h.tab_lt h2), h.word_dir h2 hv, h1,
    tableWord_some_frame (h.tab_lt h1), h.word_mid h1 hv, ht, tableWord_some_frame (h.tab_lt ht)]

/-- Below a missing table `getPTE` reads frame 0; if that holds zeros, so does
the entry it finds. -/
theorem Inv.getPTE_missing (h : Inv m G) {v : Nat} (hp : G.tab (p, 3, 0) = some p)
    (hv : v / 4096 < userPages) (ht : G.tab (p, 0, v / 4096 / 512) = none)
    (hzero : ∀ i, m.word 0 i = 0) : m.getPTE p v = 0 := by
  have hframe : frameOf 0 = 0 := by decide
  unfold Mem.getPTE
  simp only [idx_39, idx_30, idx_21]
  generalize v / 4096 = n at *
  rw [h.word_top hp hv]
  cases h2 : G.tab (p, 2, n / 134217728) with
  | none => simp only [tableWord, hframe, hzero]
  | some t2 =>
      rw [tableWord_some_frame (h.tab_lt h2), h.word_dir h2 hv]
      cases h1 : G.tab (p, 1, n / 262144) with
      | none => simp only [tableWord, hframe, hzero]
      | some t1 =>
          rw [tableWord_some_frame (h.tab_lt h1), h.word_mid h1 hv, ht]
          exact hframe

/-- The byte a process sees. -/
theorem Inv.load (h : Inv m G) {v : Nat} (hp : G.tab (p, 3, 0) = some p)
    (hv : v / 4096 < userPages) :
    m.load p v = (G.mapped (p, v / 4096)).map fun f =>
      byteAt (m.word f (v % 4096 / 8)) (v % 8) := by
  unfold Mem.load Ghost.mapped
  rw [h.walk hp hv]
  cases he : G.leaf (p, v / 4096) with
  | none => rfl
  | some e => simp [Pte.frameOf_word (h.leaf_lt he)]

end Descent

/-- What an operation on the address spaces in `S` leaves alone: the tables of
the others, the frames mapped there and their contents, the area nodes of others, and everything
of the kernel. -/
structure Frame (S : Nat → Prop) (m : Mem) (G : Ghost) (m' : Mem) (G' : Ghost) : Prop where
  tab : ∀ p l k, ¬ S p → G'.tab (p, l, k) = G.tab (p, l, k)
  mapped : ∀ p n, ¬ S p → G'.mapped (p, n) = G.mapped (p, n)
  data : ∀ p n f, ¬ S p → G.mapped (p, n) = some f → m'.word f = m.word f
  vma : ∀ p f, ¬ S p → (G'.role f = .vma p ↔ G.role f = .vma p)
  node : ∀ p f, ¬ S p → G.role f = .vma p → m'.word f = m.word f
  kernel : ∀ f, G'.role f = .kernel ↔ G.role f = .kernel
  kword : ∀ f, G.role f = .kernel → m'.word f = m.word f
  kpml4 : m'.kpml4 = m.kpml4

theorem Frame.root {S : Nat → Prop} {m m' : Mem} {G G' : Ghost} (h : Frame S m G m' G') (p : Nat)
    (hp : ¬ S p) : G'.tab (p, 3, 0) = G.tab (p, 3, 0) := h.tab p 3 0 hp

theorem Frame.refl (S : Nat → Prop) (m : Mem) (G : Ghost) : Frame S m G m G :=
  ⟨fun _ _ _ _ => rfl, fun _ _ _ => rfl, fun _ _ _ _ _ => rfl, fun _ _ _ => Iff.rfl,
    fun _ _ _ _ => rfl, fun _ => Iff.rfl, fun _ _ => rfl, rfl⟩

theorem Frame.trans {S : Nat → Prop} {m₁ m₂ m₃ : Mem} {G₁ G₂ G₃ : Ghost}
    (h : Frame S m₁ G₁ m₂ G₂) (h' : Frame S m₂ G₂ m₃ G₃) : Frame S m₁ G₁ m₃ G₃ := by
  refine ⟨?_, ?_, ?_, ?_, ?_, ?_, ?_, ?_⟩
  · intro p l k hp
    rw [h'.tab p l k hp, h.tab p l k hp]
  · intro p n hp
    rw [h'.mapped p n hp, h.mapped p n hp]
  · intro p n f hp hf
    rw [h'.data p n f hp (by rw [h.mapped p n hp, hf]), h.data p n f hp hf]
  · intro p f hp
    rw [h'.vma p f hp, h.vma p f hp]
  · intro p f hp hf
    rw [h'.node p f hp ((h.vma p f hp).mpr hf), h.node p f hp hf]
  · intro f
    rw [h'.kernel f, h.kernel f]
  · intro f hf
    rw [h'.kword f ((h.kernel f).mpr hf), h.kword f hf]
  · rw [h'.kpml4, h.kpml4]

theorem Frame.mono {S T : Nat → Prop} {m m' : Mem} {G G' : Ghost} (h : Frame S m G m' G')
    (hST : ∀ p, S p → T p) : Frame T m G m' G' :=
  ⟨fun p l k hp => h.tab p l k (fun hs => hp (hST p hs)),
    fun p n hp => h.mapped p n (fun hs => hp (hST p hs)),
    fun p n f hp => h.data p n f (fun hs => hp (hST p hs)),
    fun p f hp => h.vma p f (fun hs => hp (hST p hs)),
    fun p f hp => h.node p f (fun hs => hp (hST p hs)), h.kernel, h.kword, h.kpml4⟩

/-- Another process sees the same bytes before and after. -/
theorem Frame.load {S : Nat → Prop} {m m' : Mem} {G G' : Ghost} (h : Frame S m G m' G')
    (hI : Inv m G) (hI' : Inv m' G') {p v : Nat} (hp : ¬ S p) (hroot : G.tab (p, 3, 0) = some p)
    (hv : v / 4096 < userPages) : m'.load p v = m.load p v := by
  rw [hI.load hroot hv, hI'.load (by rw [h.root p hp, hroot]) hv, h.mapped p _ hp]
  cases hf : G.mapped (p, v / 4096) with
  | none => rfl
  | some f => simp [h.data p _ f hp hf]

/-- An operation that only hangs new tables into the tree of `p`. -/
structure Grows (p : Nat) (m : Mem) (G : Ghost) (m' : Mem) (G' : Ghost) : Prop where
  role : ∀ g, G.role g ≠ .free → G'.role g = G.role g
  fresh : ∀ g, G.role g = .free →
    G'.role g = .free ∨ ∃ l k, l < 3 ∧ G'.role g = .table p l k
  word : ∀ g, G.role g ≠ .free → (∀ q l k, G.role g ≠ .table q l k) → m'.word g = m.word g
  kpml4 : m'.kpml4 = m.kpml4

theorem Grows.refl (p : Nat) (m : Mem) (G : Ghost) : Grows p m G m G :=
  ⟨fun _ _ => rfl, fun _ h => Or.inl h, fun _ _ _ => rfl, rfl⟩

theorem Grows.trans {p : Nat} {m₁ m₂ m₃ : Mem} {G₁ G₂ G₃ : Ghost}
    (h : Grows p m₁ G₁ m₂ G₂) (h' : Grows p m₂ G₂ m₃ G₃) : Grows p m₁ G₁ m₃ G₃ := by
  refine ⟨?_, ?_, ?_, ?_⟩
  · intro g hg
    rw [h'.role g (by rw [h.role g hg]; exact hg), h.role g hg]
  · intro g hg
    obtain hfree | ⟨l, k, hl, htab⟩ := h.fresh g hg
    · exact h'.fresh g hfree
    · exact Or.inr ⟨l, k, hl, by rw [h'.role g (by simp [htab]), htab]⟩
  · intro g hg ht
    have hrole := h.role g hg
    rw [h'.word g (by rw [hrole]; exact hg) (by rw [hrole]; exact ht), h.word g hg ht]
  · rw [h'.kpml4, h.kpml4]

end X86Kernel.Paging
