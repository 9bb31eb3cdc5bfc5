import X86Kernel.Paging.Copy

/-!
Adding to one address space: frames from the list, pages, and stores through
the tables. What the spaces of other processes see of it is nothing.
-/

namespace X86Kernel.Paging

open Lib

/-- An operation that adds frames from the list to the space `p` and writes
only the frames in `X`, the tables of `p` and the frames it added. -/
structure Extends (p : Nat) (X : Nat → Prop) (m : Mem) (G : Ghost) (m' : Mem) (G' : Ghost) :
    Prop where
  role : ∀ g, G.role g ≠ .free → G'.role g = G.role g
  fresh : ∀ g, G.role g = .free →
    G'.role g = .free ∨ G'.role g = .data ∨ ∃ l k, l < 3 ∧ G'.role g = .table p l k
  word : ∀ g, ¬ X g → G.role g ≠ .free → (∀ q l k, G.role g ≠ .table q l k) →
    m'.word g = m.word g
  kpml4 : m'.kpml4 = m.kpml4

theorem Grows.extends {p : Nat} {m m' : Mem} {G G' : Ghost} (h : Grows p m G m' G')
    (X : Nat → Prop) : Extends p X m G m' G' := by
  refine ⟨h.role, ?_, fun g _ => h.word g, h.kpml4⟩
  intro g hg
  obtain hfree | htab := h.fresh g hg
  · exact Or.inl hfree
  · exact Or.inr (Or.inr htab)

theorem Extends.refl (p : Nat) (X : Nat → Prop) (m : Mem) (G : Ghost) : Extends p X m G m G :=
  (Grows.refl p m G).extends X

theorem Extends.trans {p : Nat} {X : Nat → Prop} {m₁ m₂ m₃ : Mem} {G₁ G₂ G₃ : Ghost}
    (h : Extends p X m₁ G₁ m₂ G₂) (h' : Extends p X m₂ G₂ m₃ G₃) : Extends p X m₁ G₁ m₃ G₃ := by
  refine ⟨?_, ?_, ?_, ?_⟩
  · intro g hg
    rw [h'.role g (by rw [h.role g hg]; exact hg), h.role g hg]
  · intro g hg
    obtain hfree | hdata | ⟨l, k, hl, htab⟩ := h.fresh g hg
    · exact h'.fresh g hfree
    · exact Or.inr (Or.inl (by rw [h'.role g (by simp [hdata]), hdata]))
    · exact Or.inr (Or.inr ⟨l, k, hl, by rw [h'.role g (by simp [htab]), htab]⟩)
  · intro g hX hg ht
    have hrole := h.role g hg
    rw [h'.word g hX (by rw [hrole]; exact hg) (by rw [hrole]; exact ht), h.word g hX hg ht]
  · rw [h'.kpml4, h.kpml4]

theorem Extends.mono {p : Nat} {X Y : Nat → Prop} {m m' : Mem} {G G' : Ghost}
    (h : Extends p X m G m' G') (hXY : ∀ g, X g → Y g) : Extends p Y m G m' G' :=
  ⟨h.role, h.fresh, fun g hY => h.word g (fun hX => hY (hXY g hX)), h.kpml4⟩

/-- No area node appears or disappears. -/
theorem Extends.vma {p : Nat} {X : Nat → Prop} {m m' : Mem} {G G' : Ghost}
    (h : Extends p X m G m' G') (q f : Nat) : G'.role f = .vma q ↔ G.role f = .vma q := by
  by_cases hfree : G.role f = .free
  · obtain hcon | hcon | ⟨l, k, -, hcon⟩ := h.fresh f hfree <;> simp [hcon, hfree]
  · rw [h.role f hfree]

/-- New tables below the PML4 belong to `p`. -/
theorem Extends.tab {p : Nat} {X : Nat → Prop} {m m' : Mem} {G G' : Ghost}
    (h : Extends p X m G m' G') (hI : Inv m G) (hI' : Inv m' G') {q l k : Nat}
    (hq : q ≠ p ∨ l = 3) : G'.tab (q, l, k) = G.tab (q, l, k) := by
  cases hold : G.tab (q, l, k) with
  | some t =>
      have hrole := (hI.trees.role _ _ _ _).mp hold
      rw [hI'.trees.role, h.role t (by simp [hrole]), hrole]
  | none =>
      cases hnew : G'.tab (q, l, k) with
      | none => rfl
      | some t =>
          have hrole' := (hI'.trees.role _ _ _ _).mp hnew
          by_cases hfree : G.role t = .free
          · obtain hcon | hcon | ⟨l', k', hl, hcon⟩ := h.fresh t hfree
            · simp [hcon] at hrole'
            · simp [hcon] at hrole'
            · rw [hcon] at hrole'
              obtain ⟨rfl, rfl, -⟩ : p = q ∧ l' = l ∧ k' = k := by simpa using hrole'
              obtain hq | hq := hq
              · exact absurd rfl hq
              · omega
          · rw [h.role t hfree, ← hI.trees.role, hold] at hrole'
            cases hrole'

theorem Extends.root {p : Nat} {X : Nat → Prop} {m m' : Mem} {G G' : Ghost}
    (h : Extends p X m G m' G') (hI : Inv m G) (hI' : Inv m' G') (q : Nat) :
    G'.tab (q, 3, 0) = G.tab (q, 3, 0) := h.tab hI hI' (.inr rfl)

/-- Adding to one space leaves the others alone, provided that the frames it
writes belong to that space only. -/
theorem Extends.frame {p : Nat} {X : Nat → Prop} {m m' : Mem} {G G' : Ghost}
    (h : Extends p X m G m' G') (hI : Inv m G) (hI' : Inv m' G') {S : Nat → Prop} (hp : S p)
    (hmap : ∀ q n, ¬ S q → G'.mapped (q, n) = G.mapped (q, n))
    (hdata : ∀ g q n, X g → ¬ S q → G.mapped (q, n) ≠ some g)
    (hnode : ∀ g q, X g → ¬ S q → G.role g ≠ .vma q)
    (hkern : ∀ g, X g → G.role g ≠ .kernel) : Frame S m G m' G' := by
  refine ⟨?_, hmap, ?_, fun q f _ => h.vma q f, ?_, ?_, ?_, h.kpml4⟩
  · intro q l k hq
    refine h.tab hI hI' (.inl ?_)
    rintro rfl
    exact hq hp
  · intro q n f hq hf
    obtain ⟨e, he, rfl⟩ := Option.map_eq_some_iff.mp hf
    have htarget := hI.refs.target _ e he
    exact h.word _ (fun hX => hdata _ q n hX hq hf) (by simp [htarget]) (by simp [htarget])
  · intro q f hq hf
    exact h.word f (fun hX => hnode f q hX hq hf) (by simp [hf]) (by simp [hf])
  · intro f
    by_cases hfree : G.role f = .free
    · obtain hcon | hcon | ⟨l, k, -, hcon⟩ := h.fresh f hfree <;> simp [hcon, hfree]
    · rw [h.role f hfree]
  · intro f hf
    exact h.word f (fun hX => hkern f hX hf) (by simp [hf]) (by simp [hf])

/-- What is added to the space `p` is in no other. -/
theorem Extends.frame_own {p : Nat} {m m' : Mem} {G G' : Ghost}
    (h : Extends p (fun _ => False) m G m' G') (hI : Inv m G) (hI' : Inv m' G')
    (hother : ∀ q n, q ≠ p → G'.leaf (q, n) = G.leaf (q, n)) : Frame (· = p) m G m' G' := by
  refine h.frame hI hI' rfl ?_ (fun _ _ _ hx => hx.elim) (fun _ _ hx => hx.elim)
    (fun _ hx => hx.elim)
  intro q n hq
  unfold Ghost.mapped
  rw [hother q n hq]

/-- Taking a frame from the list. -/
theorem Extends.alloc {p : Nat} {X : Nat → Prop} {m m' : Mem} {G : Ghost} {f : Nat}
    (hfree : G.role f = .free) (hw : m'.word = m.word) (hkp : m'.kpml4 = m.kpml4) :
    Extends p X m G m' ((G.setRole f .data).setHeld f 1) := by
  refine ⟨?_, ?_, fun g _ _ _ => by rw [hw], hkp⟩
  · intro g hg
    have hne : g ≠ f := by
      rintro rfl
      exact hg hfree
    simp [Ghost.setHeld, Ghost.setRole, hne]
  · intro g hg
    by_cases hgf : g = f
    · exact Or.inr (Or.inl (by simp [Ghost.setHeld, Ghost.setRole, hgf]))
    · exact Or.inl (by simp [Ghost.setHeld, Ghost.setRole, hgf, hg])

/-- A frame from the list, filled with `ws`, mapped at a page of `p`. -/
theorem Inv.mapFresh {m m₁ m' : Mem} {G : Ghost} (h : Inv m G) {p v f : Nat}
    (hp : G.tab (p, 3, 0) = some p) (hv : v / 4096 < userPages) (hfree : G.role f = .free)
    (hw : m₁.word = m.word) (hkp : m₁.kpml4 = m.kpml4) (hrc : (m₁.page f).refCount = 1)
    (h₁ : Inv m₁ ((G.setRole f .data).setHeld f 1)) (ws : Nat → Word)
    (hrun : (m₁.setFrame f ws).initPagesForProcess v (f * 4096) p = some m') :
    ∃ G', Inv m' G' ∧ Extends p (fun _ => False) m G m' G' ∧
      G'.leaf = Function.update G.leaf (p, v / 4096) (some ⟨f, true⟩) ∧
      m'.word f = ws ∧
      (∀ g, G'.held g = G.held g + if G.mapped (p, v / 4096) = some g then 1 else 0) ∧
      Draws m G m' G' := by
  have hnodata : G.role f ≠ .data := by simp [hfree]
  have h₂ := h₁.setFrame (f := f) (by simp [Ghost.setHeld, Ghost.setRole])
    (by simp [Ghost.setHeld, Ghost.setRole]) ws
  obtain ⟨G', h', hg, hleaf, hheld, hdraws⟩ := h₂.initPages (p := p) (v := v) (f := f) hp hv
    (by simp [Ghost.setHeld, Ghost.setRole]) (by simpa using hrc) (by simp [Ghost.setHeld]) hrun
  have hdata : ((G.setRole f .data).setHeld f 1).role f = .data := by
    simp [Ghost.setHeld, Ghost.setRole]
  have hwf : m'.word f = ws := by
    rw [hg.word f (by simp [hdata]) (by simp [hdata])]
    simp
  refine ⟨G', h', ?_, hleaf, hwf, ?_, fun g hgfree => ?_⟩
  · -- the frame was on the list, so writing it is writing nothing of before
    have halloc : Extends p (fun _ => False) m G (m₁.setFrame f ws)
        ((G.setRole f .data).setHeld f 1) := by
      have hbase := Extends.alloc (p := p) (X := fun _ => False) hfree hw hkp
      refine ⟨hbase.role, hbase.fresh, ?_, hkp⟩
      intro g _ hgf _
      have hne : g ≠ f := by
        rintro rfl
        exact hgf hfree
      rw [Mem.setFrame_word_of_ne _ _ hne, hw]
    exact halloc.trans (hg.extends _)
  · intro g
    have hmapped : ((G.setRole f .data).setHeld f 1).mapped = G.mapped := rfl
    rw [hheld g, hmapped]
    have hzero := h.refs.held f hnodata
    by_cases hgf : g = f
    · subst hgf
      have hnot : G.mapped (p, v / 4096) ≠ some g := by
        intro hcon
        obtain ⟨e, he, hef⟩ := Option.map_eq_some_iff.mp hcon
        exact h.not_mapped hnodata he hef
      simp [hnot, hzero]
    · simp [hgf, Ghost.setHeld, Ghost.setRole]
  · obtain ⟨hmid, hword⟩ := hdraws g hgfree
    have hgf : g ≠ f := by
      rintro rfl
      simp [hdata] at hmid
    rw [Mem.setFrame_word_of_ne _ _ hgf, hw] at hword
    exact ⟨by simpa [Ghost.setHeld, Ghost.setRole, hgf] using hmid, hword⟩

theorem Mem.setFrame_self (m : Mem) (f : Nat) : m.setFrame f (m.word f) = m := by
  unfold Mem.setFrame
  simp

/-- `allocate_page` and `init_pages_for_process` in a row: a fresh page. -/
theorem Inv.mapNew {m m₁ m' : Mem} {G : Ghost} (h : Inv m G) {p v a : Nat}
    (hp : G.tab (p, 3, 0) = some p) (hv : v / 4096 < userPages)
    (halloc : m.allocatePage = some (a, m₁)) (hrun : m₁.initPagesForProcess v a p = some m') :
    ∃ f G', G.role f = .free ∧ Inv m' G' ∧ Extends p (fun _ => False) m G m' G' ∧
      G'.leaf = Function.update G.leaf (p, v / 4096) (some ⟨f, true⟩) ∧
      (∀ g, G'.held g = G.held g + if G.mapped (p, v / 4096) = some g then 1 else 0) ∧
      m'.word f = m.word f ∧ Draws m G m' G' := by
  obtain ⟨f, hfree, rfl, hw, hkp, hrc, h₁⟩ := h.alloc halloc
  rw [← Mem.setFrame_self m₁ f] at hrun
  obtain ⟨G', h', he, hleaf, hword, hheld, hdraws⟩ := h.mapFresh hp hv hfree hw hkp hrc h₁ _ hrun
  exact ⟨f, G', hfree, h', he, hleaf, hheld, by rw [hword, hw], hdraws⟩

/-- A page that may be written has a frame of its own. -/
theorem Inv.own_unique {m : Mem} {G : Ghost} (h : Inv m G) {x y : Nat × Nat} {e : Pte}
    (he : G.leaf x = some e) (hown : e.own = true) (hy : G.mapped y = some e.frame) : y = x := by
  have hone := h.refs.own x e he hown
  have hcount := h.refs.count _ (h.refs.target x e he)
  exact eq_of_refCount_le_one h.refs.finite (f := e.frame) (by omega) hy
    (by simp [Ghost.mapped, he])

/-- A store through the tables hits the frame of a page the process owns. -/
theorem Inv.store {m m' : Mem} {G : Ghost} (h : Inv m G) {p v : Nat} {g : Word → Word}
    (hp : G.tab (p, 3, 0) = some p) (hv : v / 4096 < userPages)
    (hrun : m.store p v g = some m') :
    ∃ e, G.leaf (p, v / 4096) = some e ∧ e.own = true ∧
      m' = m.set e.frame (v % 4096 / 8) (g (m.word e.frame (v % 4096 / 8))) ∧
      Inv m' G ∧ Extends p (· = e.frame) m G m' G := by
  unfold Mem.store at hrun
  rw [h.walk hp hv] at hrun
  cases he : G.leaf (p, v / 4096) with
  | none => simp [he] at hrun
  | some e =>
      have hframe := Pte.frameOf_word (h.leaf_lt he)
      have htarget := h.refs.target _ e he
      simp only [he, Option.map_some, Pte.writable_word, hframe] at hrun
      split_ifs at hrun with hown
      obtain rfl := Option.some.inj hrun
      refine ⟨e, rfl, hown, rfl, ?_, ?_⟩
      · rw [Mem.set_eq_setFrame]
        exact h.setFrame (by simp [htarget]) (by simp [htarget]) _
      · refine ⟨fun _ _ => rfl, fun _ hg => Or.inl hg, ?_, rfl⟩
        intro f hf _ _
        exact Mem.set_word_of_ne _ _ hf

/-- A store leaves the spaces of others alone. -/
theorem Inv.store_frame {m m' : Mem} {G : Ghost} (h : Inv m G) {p v : Nat} {g : Word → Word}
    (hp : G.tab (p, 3, 0) = some p) (hv : v / 4096 < userPages)
    (hrun : m.store p v g = some m') : Inv m' G ∧ Frame (· = p) m G m' G ∧
      ∀ f q, G.role f = .vma q → m'.word f = m.word f := by
  obtain ⟨e, he, hown, -, h', hext⟩ := h.store hp hv hrun
  have htarget := h.refs.target _ e he
  refine ⟨h', hext.frame h h' rfl (fun _ _ _ => rfl) ?_ ?_ ?_, ?_⟩
  · rintro f q n rfl hq hcon
    have heq := h.own_unique he hown hcon
    exact hq (by simpa using congrArg Prod.fst heq)
  · rintro f q rfl - hcon
    simp [htarget] at hcon
  · rintro f rfl hcon
    simp [htarget] at hcon
  · intro f q hf
    refine hext.word f ?_ (by simp [hf]) (by simp [hf])
    rintro rfl
    simp [htarget] at hf

end X86Kernel.Paging
