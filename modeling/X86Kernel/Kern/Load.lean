import X86Kernel.Kern.Valid
import X86Kernel.Paging.Top

/-!
Loading an image: `create_process` and `execvpe`. The loader adds pages and
areas to one space; the only frames it can lose are pages that it maps twice.
-/

namespace X86Kernel.Kern

open Lib Paging

def Phdr.hasPage (ep : Phdr) (n : Nat) : Prop :=
  ep.type = 1 ∧ ep.vaddr / 4096 ≤ n ∧ n * 4096 < ep.vaddr + ep.memsz

/-- A loadable file: its segments lie below PML4 entry 511 and have no more
bytes in the file than in memory. -/
def Image.Ok (img : Image) : Prop :=
  ∀ ep ∈ img.phdrs, ep.type = 1 →
    ep.vaddr + ep.memsz ≤ userPages * 4096 ∧ ep.filesz ≤ ep.memsz

def SegmentsApart (eps : List Phdr) : Prop :=
  eps.Pairwise fun a b => ∀ n, a.hasPage n → ¬ b.hasPage n

/-- What the loader may do to the space `p`: others see nothing of it, and the
pages it adds satisfy `N`. If none of these was mapped before and the pages are
apart from each other, which is `D`, no frame is lost. -/
structure Builds (p : Nat) (D : Prop) (N : Nat → Prop) (m : Mem) (G : Ghost) (m' : Mem)
    (G' : Ghost) : Prop where
  inv : Inv m' G'
  homed : Homed G'
  frame : Frame (· = p) m G m' G'
  root : G'.tab (p, 3, 0) = G.tab (p, 3, 0)
  kept : ∀ n, G.leaf (p, n) ≠ none → G'.leaf (p, n) ≠ none
  added : ∀ n, N n → G'.leaf (p, n) ≠ none
  pages : ∀ n, G'.leaf (p, n) ≠ none → G.leaf (p, n) ≠ none ∨ N n
  held : D → (∀ n, N n → G.leaf (p, n) = none) → G'.held = G.held
  kernel : KeepsKernel p (∃ n, N n) m G m' G'

theorem Builds.of_same {p : Nat} {D : Prop} {m m' : Mem} {G : Ghost} (h : Inv m' G)
    (hhome : Homed G) (hF : Frame (· = p) m G m' G) (hK : KeepsKernel p False m G m' G) :
    Builds p D (fun _ => False) m G m' G :=
  ⟨h, hhome, hF, rfl, fun _ hn => hn, fun _ hn => hn.elim, fun _ hn => Or.inl hn,
    fun _ _ => rfl, hK.mono fun ⟨_, hn⟩ => hn⟩

theorem Builds.refl {p : Nat} {D : Prop} {m : Mem} {G : Ghost} (h : Inv m G) (hhome : Homed G) :
    Builds p D (fun _ => False) m G m G :=
  .of_same h hhome (Frame.refl _ m G) (.refl p m G)

theorem Builds.congr {p : Nat} {D D' : Prop} {N N' : Nat → Prop} {m m' : Mem} {G G' : Ghost}
    (h : Builds p D N m G m' G') (hN : ∀ n, N' n ↔ N n) (hD : D' → D) :
    Builds p D' N' m G m' G' := by
  refine ⟨h.inv, h.homed, h.frame, h.root, h.kept, ?_, ?_, ?_,
    h.kernel.mono fun ⟨n, hn⟩ => ⟨n, (hN n).mp hn⟩⟩
  · intro n hn
    exact h.added n ((hN n).mp hn)
  · intro n hn
    exact (h.pages n hn).imp_right (hN n).mpr
  · intro hd hnone
    exact h.held (hD hd) (fun n hn => hnone n ((hN n).mpr hn))

/-- Loading one thing after the other. -/
theorem Builds.trans {p : Nat} {D D' : Prop} {N N' : Nat → Prop} {m₁ m₂ m₃ : Mem}
    {G₁ G₂ G₃ : Ghost} (h : Builds p D N m₁ G₁ m₂ G₂) (h' : Builds p D' N' m₂ G₂ m₃ G₃) :
    Builds p (D ∧ D' ∧ ∀ n, N' n → ¬ N n) (fun n => N n ∨ N' n) m₁ G₁ m₃ G₃ := by
  refine ⟨h'.inv, h'.homed, h.frame.trans h'.frame, by rw [h'.root, h.root],
    fun n hn => h'.kept n (h.kept n hn), ?_, ?_, ?_,
    (h.kernel.trans h'.kernel).mono fun ⟨n, hn⟩ => hn.imp (⟨n, ·⟩) (⟨n, ·⟩)⟩
  · rintro n (hn | hn)
    · exact h'.kept n (h.added n hn)
    · exact h'.added n hn
  · intro n hn
    obtain hold | hnew := h'.pages n hn
    · obtain hold | hnew := h.pages n hold
      · exact Or.inl hold
      · exact Or.inr (Or.inl hnew)
    · exact Or.inr (Or.inr hnew)
  · rintro ⟨hD, hD', hapart⟩ hnone
    rw [h'.held hD', h.held hD (fun n hn => hnone n (Or.inl hn))]
    intro n hn
    by_contra hcon
    obtain hold | hnew := h.pages n hcon
    · exact hold (hnone n (Or.inr hn))
    · exact hapart n hn hnew

/-- The loop that maps the pages of a segment. -/
theorem mapPages_spec {m m' : Mem} {G : Ghost} {p start stop : Nat} (h : Inv m G)
    (hp : G.tab (p, 3, 0) = some p) (hstart : start % 4096 = 0)
    (hstop : stop ≤ userPages * 4096) (hrun : mapPages m p start stop = some m') :
    ∃ G', Inv m' G' ∧ Extends p (fun _ => False) m G m' G' ∧
      (∀ q n, q ≠ p → G'.leaf (q, n) = G.leaf (q, n)) ∧
      (∀ n, ¬ (start / 4096 ≤ n ∧ n * 4096 < stop) → G'.leaf (p, n) = G.leaf (p, n)) ∧
      (∀ n, start / 4096 ≤ n → n * 4096 < stop →
        ∃ f, G'.leaf (p, n) = some ⟨f, true⟩ ∧ G.role f = .free ∧ m'.word f = m.word f) ∧
      ((∀ n, start / 4096 ≤ n → n * 4096 < stop → G.leaf (p, n) = none) → G'.held = G.held) ∧
      Draws m G m' G' ∧
      KeepsKernel p (∃ n, start / 4096 ≤ n ∧ n * 4096 < stop) m G m' G' := by
  unfold mapPages at hrun
  have hloop := foldlM_range_invariant (P := fun j m₁ => ∃ G₁, Inv m₁ G₁ ∧
    Extends p (fun _ => False) m G m₁ G₁ ∧ (∀ q n, q ≠ p → G₁.leaf (q, n) = G.leaf (q, n)) ∧
    (∀ n, ¬ (start / 4096 ≤ n ∧ n < start / 4096 + j) → G₁.leaf (p, n) = G.leaf (p, n)) ∧
    (∀ n, start / 4096 ≤ n → n < start / 4096 + j →
      ∃ f, G₁.leaf (p, n) = some ⟨f, true⟩ ∧ G.role f = .free ∧ m₁.word f = m.word f) ∧
    ((∀ n, start / 4096 ≤ n → n < start / 4096 + j → G.leaf (p, n) = none) →
      G₁.held = G.held) ∧ Draws m G m₁ G₁ ∧ KeepsKernel p (0 < j) m G m₁ G₁) hrun ?_ ?_
  · have hlast : ∀ n, start / 4096 ≤ n →
        (n < start / 4096 + (stop - start + 4095) / 4096 ↔ n * 4096 < stop) := by
      intro n hn
      omega
    obtain ⟨G', h', hE, hother, hout, hin, hheld, hdraws, hkernel⟩ := hloop
    refine ⟨G', h', hE, hother, ?_, ?_, ?_, hdraws, hkernel.mono (by rintro ⟨n, hlo, hhi⟩; omega)⟩
    · intro n hn
      apply hout
      rintro ⟨hlo, hhi⟩
      exact hn ⟨hlo, (hlast n hlo).mp hhi⟩
    · intro n hlo hhi
      exact hin n hlo ((hlast n hlo).mpr hhi)
    · intro hnone
      exact hheld (fun n hlo hhi => hnone n hlo ((hlast n hlo).mp hhi))
  · exact ⟨G, h, Extends.refl p _ m G, fun _ _ _ => rfl, fun _ _ => rfl, by omega, fun _ => rfl,
      Draws.refl m G, (KeepsKernel.refl p m G).mono (by omega)⟩
  · rintro j m₁ m₂ hj ⟨G₁, h₁, hE₁, hother₁, hout₁, hin₁, hheld₁, hdraws₁, hkernel₁⟩ hbody
    obtain ⟨⟨a, m₃⟩, halloc, hmap⟩ := Option.bind_eq_some_iff.mp hbody
    have hpage : (start + 4096 * j) / 4096 = start / 4096 + j := by omega
    have hlt : (start + 4096 * j) / 4096 < userPages := by
      simp only [userPages] at *
      omega
    have hp₁ : G₁.tab (p, 3, 0) = some p := by rw [hE₁.root h h₁, hp]
    obtain ⟨f, G₂, hfree, h₂, hE₂, hleaf₂, hheld₂, hword₂, hdraws₂⟩ :=
      h₁.mapNew hp₁ hlt halloc hmap
    rw [hpage] at hleaf₂ hheld₂
    have hkernel₂ : KeepsKernel p True m₁ G₁ m₂ G₂ :=
      .of_map h₁ (hE₂.steady h₁ h₂ hp₁ fun _ hx => hx.elim) hp₁ hlt halloc hmap
    refine ⟨G₂, h₂, hE₁.trans hE₂, ?_, ?_, ?_, ?_, hdraws₁.trans hdraws₂,
      (hkernel₁.trans hkernel₂).mono fun _ => Or.inr trivial⟩
    · intro q n hq
      rw [hleaf₂, Function.update_of_ne (by simp [hq]), hother₁ q n hq]
    · intro n hn
      rw [hleaf₂, Function.update_of_ne (by simp; omega), hout₁ n (by omega)]
    · intro n hlo hhi
      rw [hleaf₂]
      by_cases hn : n = start / 4096 + j
      · obtain ⟨hold, hkept⟩ := hdraws₁ f hfree
        exact ⟨f, by simp [hn], hold, by rw [hword₂, hkept]⟩
      · obtain ⟨g, hleaf, hold, hkept⟩ := hin₁ n hlo (by omega)
        have htarget := h₁.refs.target _ _ hleaf
        refine ⟨g, by rw [Function.update_of_ne (by simpa using hn), hleaf], hold, ?_⟩
        rw [hE₂.word g (fun hx => hx) (by simp [htarget]) (by simp [htarget]), hkept]
    · intro hnone
      have hfree : G₁.mapped (p, start / 4096 + j) = none := by
        unfold Ghost.mapped
        rw [hout₁ _ (by omega), hnone _ (by omega) (by omega)]
        rfl
      rw [← hheld₁ (fun n hlo hhi => hnone n hlo (by omega))]
      funext g
      rw [hheld₂ g, hfree]
      simp

/-- Writing the bytes of a segment. -/
theorem copyBytes_spec {m m' : Mem} {G : Ghost} {p dst count : Nat} {src : Nat → Byte}
    (h : Inv m G) (hp : G.tab (p, 3, 0) = some p) (hdst : dst + count ≤ userPages * 4096)
    (hrun : copyBytes m p dst src count = some m') :
    Inv m' G ∧ Frame (· = p) m G m' G ∧ (∀ f q, G.role f = .vma q → m'.word f = m.word f) ∧
      KeepsKernel p False m G m' G := by
  unfold copyBytes at hrun
  refine foldlM_range_invariant (P := fun _ m₁ => Inv m₁ G ∧ Frame (· = p) m G m₁ G ∧
    (∀ f q, G.role f = .vma q → m₁.word f = m.word f) ∧ KeepsKernel p False m G m₁ G) hrun ?_ ?_
  · exact ⟨h, Frame.refl _ m G, fun _ _ _ => rfl, .refl p m G⟩
  · rintro j m₁ m₂ hj ⟨h₁, hF₁, hnode₁, hkernel₁⟩ hbody
    have hlt : (dst + j) / 4096 < userPages := by
      rw [Nat.div_lt_iff_lt_mul (by omega)]
      omega
    obtain ⟨h₂, hF₂, hnode₂⟩ := h₁.store_frame hp hlt hbody
    have hkernel₂ : KeepsKernel p False m₁ G m₂ G :=
      .of_keeps (hF₂.steady h₁ hp hp) (h₁.store_top hp hlt hbody)
    exact ⟨h₂, hF₁.trans hF₂, fun f q hf => by rw [hnode₂ f q hf, hnode₁ f q hf],
      (hkernel₁.trans hkernel₂).mono .inl⟩

theorem Homed.of_vma {G G' : Ghost} (h : Homed G)
    (hvma : ∀ f q, G'.role f = .vma q ↔ G.role f = .vma q)
    (hroot : ∀ q, G'.tab (q, 3, 0) = G.tab (q, 3, 0)) : Homed G' := by
  intro f q hf
  rw [hroot]
  exact h f q ((hvma f q).mp hf)

theorem Homed.push {G : Ghost} (h : Homed G) {f p : Nat} (hp : G.tab (p, 3, 0) = some p) :
    Homed ((G.setRole f (.vma p)).setHeld f 0) := by
  intro g q hg
  by_cases hgf : g = f
  · obtain rfl : p = q := by simpa [Ghost.setHeld, Ghost.setRole, hgf] using hg
    exact hp
  · exact h g q (by simpa [Ghost.setHeld, Ghost.setRole, hgf] using hg)

/-- Pushing a new area. -/
theorem newVma_spec {m m' : Mem} {G : Ghost} {p : Nat} {vm start stop w : Word} {l : List Nat}
    (h : Inv m G) (hhome : Homed G) (hL : Listed m G p vm l)
    (hrun : newVma m start stop vm = some (w, m')) :
    ∃ G' f, (∀ D, Builds p D (fun _ => False) m G m' G') ∧ Listed m' G' p w (f :: l) ∧
      m'.word f 0 = start ∧ m'.word f 1 = stop ∧ G'.leaf = G.leaf ∧
      (∀ g, G.role g ≠ .free → m'.word g = m.word g) ∧ Draws m G m' G' := by
  obtain ⟨f, hfree, rfl, h', hkp, hword, h0, h1, h5⟩ := newVma_inv h p hrun
  have hheld : ((G.setRole f (.vma p)).setHeld f 0).held = G.held := by
    have hzero := h.refs.held f (by simp [hfree])
    funext g
    by_cases hg : g = f <;> simp [Ghost.setHeld, Ghost.setRole, hg, hzero]
  have hF : Frame (· = p) m G m' ((G.setRole f (.vma p)).setHeld f 0) :=
    newVma_frame hfree h hkp hword
  have hkernel : KeepsKernel p False m G m' ((G.setRole f (.vma p)).setHeld f 0) := by
    refine .of_keeps (hF.steady h hL.root hL.root) (.of_word fun q hq => hword q ?_)
    rintro rfl
    simp [h.root_role hq] at hfree
  refine ⟨_, f, fun _ => ⟨h', hhome.push hL.root, hF, rfl, fun _ hn => hn, fun _ hn => hn.elim,
    fun _ hn => Or.inl hn, fun _ _ => hheld, hkernel.mono fun hn => hn.elim fun _ hx => hx⟩,
    hL.push hfree hword h5, h0, h1, rfl, ?_, ?_⟩
  · intro g hg
    apply hword
    rintro rfl
    exact hg hfree
  · intro g hg
    have hgf : g ≠ f := by
      rintro rfl
      simp [Ghost.setHeld, Ghost.setRole] at hg
    exact ⟨by simpa [Ghost.setHeld, Ghost.setRole, hgf] using hg, hword g hgf⟩

/-- A freshly mapped page is one more page of the space. -/
theorem Builds.of_extends {p : Nat} {N : Nat → Prop} {D : Prop} {m m' : Mem} {G G' : Ghost}
    (h : Extends p (fun _ => False) m G m' G') (hI : Inv m G) (hhome : Homed G) (hI' : Inv m' G')
    (hother : ∀ q n, q ≠ p → G'.leaf (q, n) = G.leaf (q, n))
    (hout : ∀ n, ¬ N n → G'.leaf (p, n) = G.leaf (p, n))
    (hin : ∀ n, N n → G'.leaf (p, n) ≠ none)
    (hheld : (∀ n, N n → G.leaf (p, n) = none) → G'.held = G.held)
    (hK : KeepsKernel p (∃ n, N n) m G m' G') : Builds p D N m G m' G' := by
  refine ⟨hI', hhome.of_vma (fun f q => h.vma q f) (fun q => h.root hI hI' q),
    h.frame_own hI hI' hother, h.root hI hI' p, ?_, hin, ?_, fun _ => hheld, hK⟩
  · intro n hn
    by_cases hN : N n
    · exact hin n hN
    · rwa [hout n hN]
  · intro n hn
    by_cases hN : N n
    · exact Or.inr hN
    · rw [hout n hN] at hn
      exact Or.inl hn

theorem Listed.extends {p q : Nat} {X : Nat → Prop} {m m' : Mem} {G G' : Ghost} {vm : Word}
    {l : List Nat} (h : Listed m G q vm l) (hI : Inv m G) (hI' : Inv m' G')
    (hE : Extends p X m G m' G') (hX : ∀ g, X g → G.role g ≠ .vma q) : Listed m' G' q vm l := by
  refine h.congr (hE.root hI hI' q) (fun f => hE.vma q f) ?_
  intro f hf
  rw [hE.word f (fun hx => hX f hx hf) (by simp [hf]) (by simp [hf])]

def bounds (m : Mem) (l : List Nat) : List (Word × Word) :=
  l.map fun f => (m.word f 0, m.word f 1)

def segmentAreas (eps : List Phdr) : List (Word × Word) :=
  (eps.filter fun ep => ep.type = 1).map fun ep =>
    (BitVec.ofNat 64 ep.vaddr, BitVec.ofNat 64 (ep.vaddr + ep.memsz))

theorem bounds_congr {m m' : Mem} {l : List Nat} (h : ∀ f ∈ l, m'.word f = m.word f) :
    bounds m' l = bounds m l := List.map_congr_left fun f hf => by rw [h f hf]

theorem bounds_append (m : Mem) (l l' : List Nat) :
    bounds m (l ++ l') = bounds m l ++ bounds m l' := List.map_append

theorem segmentAreas_cons (ep : Phdr) (eps : List Phdr) :
    segmentAreas (ep :: eps) = segmentAreas [ep] ++ segmentAreas eps := by
  rw [segmentAreas, segmentAreas, segmentAreas, ← List.map_append, ← List.filter_append,
    List.singleton_append]

theorem segmentAreas_reverse (eps : List Phdr) :
    segmentAreas eps.reverse = (segmentAreas eps).reverse := by
  rw [segmentAreas, segmentAreas, List.filter_reverse, List.map_reverse]

/-- What the loader does with a segment. -/
theorem loadSegment_steps {img : Image} {m m' : Mem} {p : Nat} {vm w : Word} {ep : Phdr}
    (htype : ep.type = 1) (hrun : loadSegment img p (vm, m) ep = some (w, m')) :
    ∃ m₁ m₂ m₃, newVma m (BitVec.ofNat 64 ep.vaddr) (BitVec.ofNat 64 (ep.vaddr + ep.memsz)) vm =
        some (w, m₁) ∧
      mapPages m₁ p (ep.vaddr / 4096 * 4096) (ep.vaddr + ep.memsz) = some m₂ ∧
      copyBytes m₂ p ep.vaddr (fun j => img.data (64 * ep.offset + j)) ep.filesz = some m₃ ∧
      copyBytes m₃ p (ep.vaddr + ep.filesz) (fun _ => 0) (ep.memsz - ep.filesz) = some m' := by
  rw [loadSegment, if_pos htype] at hrun
  obtain ⟨⟨w₁, m₁⟩, hvma, hrun⟩ := Option.bind_eq_some_iff.mp hrun
  obtain ⟨m₂, hmap, hrun⟩ := Option.bind_eq_some_iff.mp hrun
  obtain ⟨m₃, hcopy, hrun⟩ := Option.bind_eq_some_iff.mp hrun
  obtain ⟨m₄, hclear, hrun⟩ := Option.bind_eq_some_iff.mp hrun
  obtain ⟨rfl, rfl⟩ : w₁ = w ∧ m₄ = m' := by simpa using hrun
  exact ⟨m₁, m₂, m₃, hvma, hmap, hcopy, hclear⟩

theorem loadSegment_other {img : Image} {m m' : Mem} {p : Nat} {vm w : Word} {ep : Phdr}
    (htype : ep.type ≠ 1) (hrun : loadSegment img p (vm, m) ep = some (w, m')) :
    vm = w ∧ m = m' := by
  rw [loadSegment, if_neg htype] at hrun
  simpa using hrun

/-- One segment: an area, its pages and their bytes. -/
theorem loadSegment_spec {img : Image} {m m' : Mem} {G : Ghost} {p : Nat} {vm w : Word}
    {l : List Nat} {ep : Phdr} (h : Inv m G) (hhome : Homed G) (hL : Listed m G p vm l)
    (hok : ep.type = 1 → ep.vaddr + ep.memsz ≤ userPages * 4096 ∧ ep.filesz ≤ ep.memsz)
    (hrun : loadSegment img p (vm, m) ep = some (w, m')) :
    ∃ G' segs, Builds p True ep.hasPage m G m' G' ∧ Listed m' G' p w (segs ++ l) ∧
      bounds m' segs = segmentAreas [ep] ∧ ∀ g ∈ l, m'.word g = m.word g := by
  by_cases htype : ep.type = 1
  · obtain ⟨hbound, hsize⟩ := hok htype
    obtain ⟨m₁, m₂, m₃, hvma, hmap, hcopy, hclear⟩ := loadSegment_steps htype hrun
    obtain ⟨G₁, f, hB₁, hL₁, hstart₁, hend₁, -, hkeep₁, -⟩ := newVma_spec h hhome hL hvma
    have hB₁ := hB₁ True
    obtain ⟨G₂, h₂, hE₂, hother, hout, hin, hheld, -, hkernel₂⟩ :=
      mapPages_spec hB₁.inv hL₁.root (by omega) hbound hmap
    have hB₂ : Builds p True ep.hasPage m₁ G₁ m₂ G₂ := by
      have hpage : ∀ n, ep.hasPage n ↔
          ep.vaddr / 4096 * 4096 / 4096 ≤ n ∧ n * 4096 < ep.vaddr + ep.memsz := by
        intro n
        rw [frame_div]
        simp [Phdr.hasPage, htype]
      refine Builds.of_extends hE₂ hB₁.inv hB₁.homed h₂ hother ?_ ?_ ?_
        (hkernel₂.mono fun ⟨n, hn⟩ => ⟨n, (hpage n).mp hn⟩)
      · intro n hn
        exact hout n (fun hcon => hn ((hpage n).mpr hcon))
      · intro n hn
        obtain ⟨f, hleaf, -⟩ := hin n ((hpage n).mp hn).1 ((hpage n).mp hn).2
        simp [hleaf]
      · intro hnone
        exact hheld (fun n hlo hhi => hnone n ((hpage n).mpr ⟨hlo, hhi⟩))
    have hL₂ := hL₁.extends hB₁.inv h₂ hE₂ (fun _ hx => hx.elim)
    obtain ⟨h₃, hF₃, hnode₃, hkernel₃⟩ := copyBytes_spec h₂ hL₂.root (by omega) hcopy
    obtain ⟨h₄, hF₄, hnode₄, hkernel₄⟩ := copyBytes_spec h₃ hL₂.root (by omega) hclear
    have hB₄ : Builds p True (fun _ => False) m₂ G₂ m' G₂ :=
      Builds.of_same h₄ hB₂.homed (hF₃.trans hF₄) ((hkernel₃.trans hkernel₄).mono .inl)
    -- the pages and the bytes leave the areas alone
    have hnode : ∀ g, G₁.role g = .vma p → m'.word g = m₁.word g := by
      intro g hg
      have hg₂ := (hE₂.vma p g).mpr hg
      rw [hnode₄ g p hg₂, hnode₃ g p hg₂,
        hE₂.word g (fun hx => hx) (by simp [hg]) (by simp [hg])]
    refine ⟨G₂, [f], ((hB₁.trans hB₂).trans hB₄).congr ?_ ?_, ?_, ?_, ?_⟩
    · intro n
      simp
    · simp
    · refine hL₂.congr rfl (fun _ => Iff.rfl) ?_
      intro g hg
      rw [hnode₄ g p hg, hnode₃ g p hg]
    · have hf := (hL₁.nodes f).mp (by simp)
      simp [bounds, segmentAreas, htype, hnode f hf, hstart₁, hend₁]
    · intro g hg
      have hrole := (hL.nodes g).mp hg
      rw [hnode g ((hL₁.nodes g).mp (by simp [hg])), hkeep₁ g (by simp [hrole])]
  · obtain ⟨rfl, rfl⟩ := loadSegment_other htype hrun
    refine ⟨G, [], (Builds.refl h hhome).congr ?_ (fun hD => hD), hL, ?_, fun _ _ => rfl⟩
    · intro n
      simp [Phdr.hasPage, htype]
    · simp [bounds, segmentAreas, htype]

/-- The loop over the segments. -/
theorem loadSegments_spec {img : Image} {p : Nat} {w : Word} {m' : Mem} (eps : List Phdr)
    (hok : ∀ ep ∈ eps, ep.type = 1 →
      ep.vaddr + ep.memsz ≤ userPages * 4096 ∧ ep.filesz ≤ ep.memsz) :
    ∀ {m : Mem} {G : Ghost} {vm : Word} {l : List Nat}, Inv m G → Homed G → Listed m G p vm l →
      eps.foldlM (loadSegment img p) (vm, m) = some (w, m') →
      ∃ G' segs, Builds p (SegmentsApart eps) (fun n => ∃ ep ∈ eps, ep.hasPage n) m G m' G' ∧
        Listed m' G' p w (segs ++ l) ∧ bounds m' segs = (segmentAreas eps).reverse ∧
        ∀ g ∈ l, m'.word g = m.word g := by
  induction eps with
  | nil =>
      intro m G vm l h hhome hL hrun
      obtain ⟨rfl, rfl⟩ : vm = w ∧ m = m' := by simpa using hrun
      refine ⟨G, [], (Builds.refl h hhome).congr ?_ (fun hD => hD), hL, rfl, fun _ _ => rfl⟩
      simp
  | cons ep rest ih =>
      intro m G vm l h hhome hL hrun
      rw [List.foldlM_cons] at hrun
      obtain ⟨⟨w₁, m₁⟩, hfirst, hrest⟩ := Option.bind_eq_some_iff.mp hrun
      obtain ⟨G₁, segs₁, hB₁, hL₁, hareas₁, hkeep₁⟩ :=
        loadSegment_spec h hhome hL (hok ep (by simp)) hfirst
      obtain ⟨G₂, segs₂, hB₂, hL₂, hareas₂, hkeep₂⟩ := ih (fun ep' hep => hok ep' (by simp [hep]))
        hB₁.inv hB₁.homed hL₁ hrest
      refine ⟨G₂, segs₂ ++ segs₁, (hB₁.trans hB₂).congr ?_ ?_, by rwa [List.append_assoc], ?_, ?_⟩
      · intro n
        simp
      · intro hD
        obtain ⟨hfst, htail⟩ := List.pairwise_cons.mp hD
        refine ⟨trivial, htail, ?_⟩
        rintro n ⟨ep', hmem, hn⟩ hcon
        exact hfst ep' hmem n hcon hn
      · have hsegs₁ := bounds_congr (l := segs₁) fun f hf => hkeep₂ f (by simp [hf])
        have hone := segmentAreas_reverse [ep]
        rw [List.reverse_singleton] at hone
        rw [bounds_append, hareas₂, hsegs₁, hareas₁, segmentAreas_cons ep rest, List.reverse_append,
          ← hone]
      · intro g hg
        rw [hkeep₂ g (by simp [hg]), hkeep₁ g hg]

/-- The pages an image brings along: those of its segments and the first page
of the stack. -/
def Image.brings (img : Image) (n : Nat) : Prop :=
  (∃ ep ∈ img.phdrs, ep.hasPage n) ∨ n = stackPage

/-- Segments on different pages, none of them in the range of the stack or of
a heap. -/
def Image.Apart (img : Image) : Prop :=
  SegmentsApart img.phdrs ∧ ∀ ep ∈ img.phdrs, ∀ n, ep.hasPage n →
    ¬ (stackEnd / 4096 ≤ n ∧ n ≤ stackPage) ∧ ¬ (heapPage ≤ n ∧ n < heapPage + capacity)

theorem SegmentsApart.reverse {eps : List Phdr} (h : SegmentsApart eps) :
    SegmentsApart eps.reverse := by
  unfold SegmentsApart
  rw [List.pairwise_reverse]
  exact h.imp (fun hab n hb ha => hab n ha hb)

/-- The areas of a new image: the stack, the empty heap and the segments. -/
def Image.areas (img : Image) : List (Word × Word) :=
  (BitVec.ofNat 64 stackStart, BitVec.ofNat 64 stackEnd) ::
    (BitVec.ofNat 64 heapStart, BitVec.ofNat 64 heapStart) :: segmentAreas img.phdrs

/-- The loader: a process with an empty heap and one page of stack. -/
theorem loadImage_spec {img : Image} {m m' : Mem} {G : Ghost} {p : Nat} {vm w : Word}
    {l : List Nat} (h : Inv m G) (hhome : Homed G) (hL : Listed m G p vm l) (hok : img.Ok)
    (hrun : loadImage img p (vm, m) = some (w, m')) :
    ∃ G', Builds p img.Apart img.brings m G m' G' ∧
      Valid m' G' { pml4e := p * 4096, vm := w } ∧
      brk m' { pml4e := p * 4096, vm := w } = heapStart ∧
      (∃ f, G'.leaf (p, stackPage) = some ⟨f, true⟩) ∧
      ∃ new, Listed m' G' p w (new ++ l) ∧ bounds m' new = img.areas ∧
        ∀ g ∈ l, m'.word g = m.word g := by
  unfold loadImage at hrun
  obtain ⟨⟨w₁, m₁⟩, hsegs, hrun⟩ := Option.bind_eq_some_iff.mp hrun
  obtain ⟨⟨w₂, m₂⟩, hheap, hrun⟩ := Option.bind_eq_some_iff.mp hrun
  obtain ⟨⟨a, m₃⟩, halloc, hrun⟩ := Option.bind_eq_some_iff.mp hrun
  obtain ⟨m₄, hmap, hstack⟩ := Option.bind_eq_some_iff.mp hrun
  obtain ⟨G₁, segs, hB₁, hL₁, hareas₁, hkeep₁⟩ := loadSegments_spec img.phdrs.reverse
    (fun ep hep => hok ep (by simpa using hep)) h hhome hL hsegs
  obtain ⟨G₂, t, hB₂, hL₂, hstart₂, hend₂, -, hkeep₂, -⟩ :=
    newVma_spec hB₁.inv hB₁.homed hL₁ hheap
  have hpage : stackStart / 4096 < userPages := by decide
  obtain ⟨f, G₄, -, h₄, hE₄, hleaf₄, hheld₄, -⟩ :=
    (hB₂ True).inv.mapNew hL₂.root hpage halloc hmap
  have hB₄ : Builds p True (· = stackPage) m₂ G₂ m₄ G₄ := by
    refine Builds.of_extends hE₄ (hB₂ True).inv (hB₂ True).homed h₄ ?_ ?_ ?_ ?_
      (.of_map (hB₂ True).inv (hE₄.steady (hB₂ True).inv h₄ hL₂.root fun _ hx => hx.elim)
        hL₂.root hpage halloc hmap)
    · intro q n hq
      rw [hleaf₄, Function.update_of_ne (by simp [hq])]
    · intro n hn
      rw [hleaf₄, Function.update_of_ne (by simpa [stackPage] using hn)]
    · rintro n rfl
      rw [hleaf₄]
      simp [stackPage]
    · intro hnone
      funext g
      have hfree : G₂.mapped (p, stackStart / 4096) = none := by
        unfold Ghost.mapped
        rw [show stackStart / 4096 = stackPage from rfl, hnone _ rfl]
        rfl
      rw [hheld₄ g, hfree]
      simp
  have hL₄ := hL₂.extends (hB₂ True).inv h₄ hE₄ (fun _ hx => hx.elim)
  obtain ⟨G₅, s, hB₅, hL₅, hstart₅, hend₅, hleaf₅, hkeep₅, -⟩ :=
    newVma_spec h₄ hB₄.homed hL₄ hstack
  have hnode : ∀ g ∈ t :: (segs ++ l), m'.word g = m₂.word g := by
    intro g hg
    have hrole := (hL₂.nodes g).mp hg
    have hrole₄ := (hL₄.nodes g).mp hg
    rw [hkeep₅ g (by simp [hrole₄]), hE₄.word g (fun hx => hx) (by simp [hrole]) (by simp [hrole])]
  have htword := hnode t (by simp)
  have hnode₁ : ∀ g ∈ segs ++ l, m'.word g = m₁.word g := by
    intro g hg
    rw [hnode g (List.mem_cons_of_mem _ hg), hkeep₂ g (by simp [(hL₁.nodes g).mp hg])]
  have hI := (hB₅ True).inv
  obtain ⟨hvm, hnext, -⟩ := hL₅.areas
  have hframe : frameAt w = s := by rw [hvm, frameAt_kptr (hL₅.lt hI (by simp))]
  have hbrk : brk m' { pml4e := p * 4096, vm := w } = heapStart := by
    unfold brk vmEnd vmNext
    rw [hframe, hnext, frameAt_kptr (hL₅.lt hI (by simp)), htword, hend₂]
    decide
  refine ⟨G₅, ?_, ⟨?_, ⟨s, t, segs ++ l, ?_⟩, ?_, ?_, ?_, ⟨0, hbrk⟩, ?_⟩, hbrk, ⟨f, ?_⟩,
    s :: t :: segs, hL₅, ?_, ?_⟩
  · refine (((hB₁.trans (hB₂ True)).trans hB₄).trans (hB₅ True)).congr ?_ ?_
    · intro n
      simp [Image.brings]
    · rintro ⟨hsegs, hrange⟩
      refine ⟨⟨⟨hsegs.reverse, trivial, fun _ hn => hn.elim⟩, trivial, ?_⟩, trivial,
        fun _ hn => hn.elim⟩
      rintro n rfl (⟨ep, hep, hn⟩ | hn)
      · exact (hrange ep (by simpa using hep) _ hn).1 ⟨by decide, le_refl _⟩
      · exact hn
  · rw [Space.root_mk]
  · rwa [Space.root_mk]
  · unfold vmStart
    rw [hframe, hstart₅]
  · unfold vmEnd
    rw [hframe, hend₅]
  · unfold vmStart vmNext
    rw [hframe, hnext, frameAt_kptr (hL₅.lt hI (by simp)), htword, hstart₂]
  · intro n hlo hhi
    rw [hbrk] at hhi
    simp only [heapPage, heapStart] at hlo hhi
    omega
  · rw [hleaf₅, hleaf₄]
    simp [stackPage]
  · rw [Image.areas, ← List.reverse_reverse img.phdrs, segmentAreas_reverse, ← hareas₁]
    have hsegs := bounds_congr (l := segs) fun g hg => hnode₁ g (List.mem_append_left _ hg)
    rw [← hsegs]
    simp [bounds, hstart₅, hend₅, htword, hstart₂, hend₂]
  · intro g hg
    rw [hnode₁ g (List.mem_append_right _ hg), hkeep₁ g hg]

end X86Kernel.Kern
