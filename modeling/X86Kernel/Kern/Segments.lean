import X86Kernel.Kern.Arguments
import X86Kernel.Kern.Start

/-!
The bytes of an image. `create_process` and `execvpe` go through the program headers
of an ELF file from the last to the first; each gets new pages, the bytes `memcpy`
finds at `eh + ep->p_offset`, and zeros behind them. That sum counts in ELF headers,
and a page that holds parts of two segments is replaced by the second of them.
-/

namespace X86Kernel.Kern

open Lib Paging

section Elf

def field (data : Nat → Byte) (a n : Nat) : Nat :=
  ofBytes ((List.range n).map fun j => data (a + j))

/-- What the loader reads of the `Elf64_Phdr` at `a`. -/
def elf64Phdr (data : Nat → Byte) (a : Nat) : Phdr where
  type := field data a 4
  offset := field data (a + 8) 8
  vaddr := field data (a + 16) 8
  filesz := field data (a + 32) 8
  memsz := field data (a + 40) 8

/-- The file whose bytes are `data`: `e_phnum` headers from `e_phoff` on. -/
def elfImage (data : Nat → Byte) : Image where
  phdrs := (List.range (field data 56 2)).map fun i => elf64Phdr data (field data 32 8 + 56 * i)
  data := data

def loadSegments (img : Image) (pml4 : Nat) (s : Word × Mem) : Option (Word × Mem) :=
  img.phdrs.reverse.foldlM (loadSegment img pml4) s

def Phdr.covers (ep : Phdr) (v : Nat) : Prop :=
  ep.type = 1 ∧ ep.vaddr ≤ v ∧ v < ep.vaddr + ep.memsz

structure Placed (img : Image) (p : Nat) (m : Mem) : Prop where
  bytes : ∀ ep ∈ img.phdrs, ep.type = 1 → ∀ j < ep.filesz,
    view m p (ep.vaddr + j) = some (img.data (ep.offset + j))
  zeros : ∀ ep ∈ img.phdrs, ep.type = 1 → ∀ j, ep.filesz ≤ j → j < ep.memsz →
    view m p (ep.vaddr + j) = some 0

/-- The files the loader gets right. The copy finds the bytes of the segment, and no
page that holds some of them is mapped for a header before it in the file, whose turn
comes later. -/
structure Loadable (img : Image) : Prop where
  offsets : ∀ ep ∈ img.phdrs, ep.type = 1 → ∀ j < ep.filesz,
    img.data (64 * ep.offset + j) = img.data (ep.offset + j)
  pages : img.phdrs.Pairwise fun a b => ∀ v, b.covers v → ¬ a.hasPage (v / 4096)

/-- What the copy and the clearing leave at the address `vaddr + j`. -/
def Phdr.copied (ep : Phdr) (data : Nat → Byte) (j : Nat) : Byte :=
  if j < ep.filesz then data (64 * ep.offset + j) else 0

theorem Phdr.covers.hasPage {ep : Phdr} {v : Nat} (h : ep.covers v) : ep.hasPage (v / 4096) := by
  obtain ⟨htype, hlo, hhi⟩ := h
  exact ⟨htype, Nat.div_le_div_right hlo, by omega⟩

end Elf

section View

variable {m m' : Mem} {G G' : Ghost} {p v : Nat}

theorem view_eq (h : Inv m G) (hp : G.tab (p, 3, 0) = some p) (hv : v / 4096 < userPages) :
    view m p v =
      (G.mapped (p, v / 4096)).map fun f => byteAt (m.word f (v % 4096 / 8)) (v % 8) := by
  rw [view, if_pos hv, h.load hp hv]

/-- A page that keeps its entry and its frame looks the same. -/
theorem view_congr (h : Inv m G) (h' : Inv m' G') (hp : G.tab (p, 3, 0) = some p)
    (hp' : G'.tab (p, 3, 0) = some p) (hleaf : G'.leaf (p, v / 4096) = G.leaf (p, v / 4096))
    (hword : ∀ f, G.role f = .data → m'.word f = m.word f) : view m' p v = view m p v := by
  by_cases hv : v / 4096 < userPages
  · rw [view_eq h hp hv, view_eq h' hp' hv]
    unfold Ghost.mapped
    rw [hleaf]
    cases he : G.leaf (p, v / 4096) with
    | none => rfl
    | some e => simp [hword _ (h.refs.target _ e he)]
  · rw [view, view, if_neg hv, if_neg hv]

/-- `memcpy` and `memset` to user addresses, as the process will see it. -/
theorem copyBytes_put {dst count : Nat} {src : Nat → Byte} (h : Inv m G)
    (hp : G.tab (p, 3, 0) = some p) (hdst : dst + count ≤ userPages * 4096)
    (hrun : copyBytes m p dst src count = some m') :
    Put (view m p) dst ((List.range count).map src) (view m' p) ∧ Draws m G m' G := by
  unfold copyBytes at hrun
  refine (foldlM_range_invariant (P := fun j m₁ => Inv m₁ G ∧
    Put (view m p) dst ((List.range j).map src) (view m₁ p) ∧ Draws m G m₁ G) hrun ?_ ?_).2
  · exact ⟨h, Put.nil _ _, Draws.refl m G⟩
  · rintro j m₁ m₂ hj ⟨h₁, hput₁, hdraws₁⟩ hbody
    have hlt : (dst + j) / 4096 < userPages := by
      rw [Nat.div_lt_iff_lt_mul (by omega)]
      omega
    obtain ⟨e, he, -, hset, h₂, -⟩ := h₁.store hp hlt hbody
    have hput := byteWrite_put (store_wrote h₁ hp hlt hbody)
    refine ⟨h₂, ?_, hdraws₁.trans fun g hg => ⟨hg, ?_⟩⟩
    · rw [List.range_succ, List.map_append]
      exact hput₁.behind hput (by simp)
    · rw [hset]
      refine Mem.set_word_of_ne _ _ ?_
      rintro rfl
      simp [h₁.refs.target _ e he] at hg

/-- On pages of its own every byte can be stored. -/
theorem copyBytes_ok (dst count : Nat) (h : Inv m G) (hp : G.tab (p, 3, 0) = some p)
    (hdst : dst + count ≤ userPages * 4096)
    (hown : ∀ j < count, ∃ f, G.leaf (p, (dst + j) / 4096) = some ⟨f, true⟩) (src : Nat → Byte) :
    ∃ m', copyBytes m p dst src count = some m' ∧ m'.page = m.page ∧ m'.head = m.head := by
  have hbody : ∀ j m₁, j < count → (Inv m₁ G ∧ m₁.page = m.page ∧ m₁.head = m.head) →
      ∃ m₂, (m₁.store p (dst + j) fun w => setByte w ((dst + j) % 8) (src j)) = some m₂ ∧
        Inv m₂ G ∧ m₂.page = m.page ∧ m₂.head = m.head := by
    rintro j m₁ hj ⟨h₁, hpage, hhead⟩
    have hlt : (dst + j) / 4096 < userPages := by
      rw [Nat.div_lt_iff_lt_mul (by omega)]
      omega
    obtain ⟨f, hleaf⟩ := hown j hj
    obtain ⟨m₂, hs⟩ : ∃ m₂, m₁.store p (dst + j)
        (fun w => setByte w ((dst + j) % 8) (src j)) = some m₂ := by
      unfold Mem.store
      rw [h₁.walk hp hlt, hleaf]
      simp
    obtain ⟨e, -, -, hset, h₂, -⟩ := h₁.store hp hlt hs
    exact ⟨m₂, hs, h₂, by rw [hset, Mem.set_page, hpage], by rw [hset, Mem.set_head, hhead]⟩
  obtain ⟨m', hrun, -, hpage, hhead⟩ := foldlM_range_total
    (P := fun _ m₁ => Inv m₁ G ∧ m₁.page = m.page ∧ m₁.head = m.head) ⟨h, rfl, rfl⟩ hbody
  exact ⟨m', hrun, hpage, hhead⟩

end View

structure Ready (m : Mem) (G : Ghost) (p : Nat) (vm : Word) : Prop where
  inv : Inv m G
  homed : Homed G
  areas : ∃ l, Listed m G p vm l

/-- What one segment makes of a space. The pages it brings are new frames, which keep
beside the segment what they held on the free list. -/
structure Lays (img : Image) (p : Nat) (ep : Phdr) (m : Mem) (G : Ghost) (m' : Mem) (G' : Ghost) :
    Prop where
  draws : Draws m G m' G'
  bytes : ep.type = 1 → ∀ j < ep.memsz, view m' p (ep.vaddr + j) = some (ep.copied img.data j)
  beside : ∀ v, ep.hasPage (v / 4096) → ¬ ep.covers v → ∃ f, G.role f = .free ∧
    view m' p v = some (byteAt (m.word f (v % 4096 / 8)) (v % 8))
  others : ∀ v, ¬ ep.hasPage (v / 4096) → view m p v ≠ none → view m' p v = view m p v

section Step

variable {img : Image} {m m' : Mem} {G : Ghost} {p n : Nat} {vm w : Word} {ep : Phdr}

theorem Ready.root (h : Ready m G p vm) : G.tab (p, 3, 0) = some p := h.areas.choose_spec.root

/-- The copied bytes and the zeros behind them. -/
theorem Put.segment {L₁ L₂ L₃ : Nat → Option Byte} {data : Nat → Byte}
    (hsize : ep.filesz ≤ ep.memsz)
    (hcopy : Put L₁ ep.vaddr ((List.range ep.filesz).map fun j => data (64 * ep.offset + j)) L₂)
    (hclear : Put L₂ (ep.vaddr + ep.filesz)
      ((List.range (ep.memsz - ep.filesz)).map fun _ => 0) L₃) :
    Put L₁ ep.vaddr ((List.range ep.memsz).map (ep.copied data)) L₃ := by
  have hput := hcopy.behind hclear (by simp)
  have heq : (List.range ep.memsz).map (ep.copied data) =
      ((List.range ep.filesz).map fun j => data (64 * ep.offset + j)) ++
        (List.range (ep.memsz - ep.filesz)).map fun _ => 0 := by
    obtain ⟨k, hk⟩ := Nat.exists_eq_add_of_le hsize
    rw [hk, Nat.add_sub_cancel_left, List.range_add, List.map_append, List.map_map]
    refine congrArg₂ (· ++ ·) (List.map_congr_left ?_) (List.map_congr_left ?_)
    · intro j hj
      exact if_pos (List.mem_range.mp hj)
    · intro j _
      exact if_neg (Nat.not_lt.mpr (Nat.le_add_right _ j))
  rwa [heq]

/-- One segment: its bytes, the rest of its pages, and all other pages. -/
theorem loadSegment_lays (h : Ready m G p vm)
    (hok : ep.type = 1 → ep.vaddr + ep.memsz ≤ userPages * 4096 ∧ ep.filesz ≤ ep.memsz)
    (hrun : loadSegment img p (vm, m) ep = some (w, m')) :
    ∃ G', Ready m' G' p w ∧ Lays img p ep m G m' G' := by
  by_cases htype : ep.type = 1
  · obtain ⟨hbound, hsize⟩ := hok htype
    obtain ⟨m₁, m₂, m₃, hvma, hmap, hcopy, hclear⟩ := loadSegment_steps htype hrun
    obtain ⟨l, hL⟩ := h.areas
    obtain ⟨G₁, t, hB₁, hL₁, -, -, hleaf₁, hword₁, hdraws₁⟩ := newVma_spec h.inv h.homed hL hvma
    have h₁ := (hB₁ True).inv
    obtain ⟨G₂, h₂, hE₂, -, hout, hin, -, hdraws₂, -⟩ :=
      mapPages_spec h₁ hL₁.root (by omega) hbound hmap
    rw [frame_div] at hout hin
    have hL₂ := hL₁.extends h₁ h₂ hE₂ (fun _ hx => hx.elim)
    obtain ⟨h₃, -, hnode₃, -⟩ := copyBytes_spec h₂ hL₂.root (by omega) hcopy
    obtain ⟨h₄, -, hnode₄, -⟩ := copyBytes_spec h₃ hL₂.root (by omega) hclear
    obtain ⟨hput₃, hdraws₃⟩ := copyBytes_put h₂ hL₂.root (by omega) hcopy
    obtain ⟨hput₄, hdraws₄⟩ := copyBytes_put h₃ hL₂.root (by omega) hclear
    have hput := Put.segment hsize hput₃ hput₄
    have hdraws := hdraws₁.trans hdraws₂
    refine ⟨G₂, ⟨h₄, (hB₁ True).homed.of_vma (fun f q => hE₂.vma q f) (hE₂.root h₁ h₂),
      t :: l, ?_⟩, hdraws.trans (hdraws₃.trans hdraws₄), ?_, ?_, ?_⟩
    · refine hL₂.congr rfl (fun _ => Iff.rfl) ?_
      intro g hg
      rw [hnode₄ g p hg, hnode₃ g p hg]
    · intro _ j hj
      exact hput.holds j _ (by simp [hj])
    · rintro v ⟨-, hlo, hhi⟩ hcover
      -- the page is a frame that was free before the area was made
      obtain ⟨f, hleaf, hfree, hkept⟩ := hin (v / 4096) hlo hhi
      obtain ⟨hold, hkept₁⟩ := hdraws₁ f hfree
      have huser : v / 4096 < userPages := by omega
      have hview : view m₂ p v = some (byteAt (m.word f (v % 4096 / 8)) (v % 8)) := by
        rw [view_eq h₂ hL₂.root huser, Ghost.mapped, hleaf, Option.map_some, Option.map_some, hkept,
          hkept₁]
      refine ⟨f, hold, ?_⟩
      rw [hput.rest v (by simp [hview]) ?_, hview]
      have hnot : ¬ (ep.vaddr ≤ v ∧ v < ep.vaddr + ep.memsz) :=
        fun hcon => hcover ⟨htype, hcon.1, hcon.2⟩
      simp only [List.length_map, List.length_range]
      omega
    · intro v hpage hsome
      have hsame₁ : view m₁ p v = view m p v :=
        view_congr h.inv h₁ hL.root hL₁.root (by rw [hleaf₁])
          fun f hf => hword₁ f (by simp [hf])
      have hsame₂ : view m₂ p v = view m₁ p v := by
        refine view_congr h₁ h₂ hL₁.root hL₂.root (hout _ fun hcon => ?_)
          fun f hf => hE₂.word f (fun hx => hx) (by simp [hf]) (by simp [hf])
        exact hpage ⟨htype, hcon⟩
      have hnot : ¬ ep.covers v := fun hcon => hpage hcon.hasPage
      rw [hput.rest v (by rwa [hsame₂, hsame₁]) ?_, hsame₂, hsame₁]
      unfold Phdr.covers at hnot
      simp only [List.length_map, List.length_range]
      omega
  · obtain ⟨rfl, rfl⟩ := loadSegment_other htype hrun
    exact ⟨G, h, Draws.refl m G, fun hcon => absurd hcon htype, fun v hcon => absurd hcon.1 htype,
      fun _ _ _ => rfl⟩

end Step

section Run

variable {img : Image} {m m' : Mem} {G : Ghost} {p : Nat} {vm w : Word} {eps : List Phdr}

/-- The loop over some of the segments: a byte on none of their pages stays, and one
that is on such a page but in no segment is what a free frame held. -/
theorem foldlM_loadSegment (hok : ∀ ep ∈ eps, ep.type = 1 →
      ep.vaddr + ep.memsz ≤ userPages * 4096 ∧ ep.filesz ≤ ep.memsz)
    (h : Ready m G p vm) (hrun : eps.foldlM (loadSegment img p) (vm, m) = some (w, m')) :
    ∃ G', Ready m' G' p w ∧ Draws m G m' G' ∧
      (∀ v, (∀ ep ∈ eps, ¬ ep.hasPage (v / 4096)) → view m p v ≠ none →
        view m' p v = view m p v) ∧
      ∀ v, (∃ ep ∈ eps, ep.hasPage (v / 4096)) → (∀ ep ∈ eps, ¬ ep.covers v) →
        ∃ f, G.role f = .free ∧ view m' p v = some (byteAt (m.word f (v % 4096 / 8)) (v % 8)) := by
  induction eps generalizing m G vm with
  | nil =>
      obtain ⟨rfl, rfl⟩ : vm = w ∧ m = m' := by simpa using hrun
      exact ⟨G, h, Draws.refl m G, fun _ _ _ => rfl, fun v hcon => by simp at hcon⟩
  | cons ep rest ih =>
      rw [List.foldlM_cons] at hrun
      obtain ⟨⟨w₁, m₁⟩, hfirst, hrest⟩ := Option.bind_eq_some_iff.mp hrun
      obtain ⟨G₁, h₁, hlays⟩ := loadSegment_lays h (hok ep (by simp)) hfirst
      obtain ⟨G', h', hdraws, hothers, hbeside⟩ :=
        ih (fun e he => hok e (by simp [he])) h₁ hrest
      refine ⟨G', h', hlays.draws.trans hdraws, ?_, ?_⟩
      · intro v hno hsome
        have hsame := hlays.others v (hno ep (by simp)) hsome
        rw [hothers v (fun e he => hno e (by simp [he])) (by rwa [hsame]), hsame]
      · intro v hpage hcover
        by_cases hlater : ∃ e ∈ rest, e.hasPage (v / 4096)
        · obtain ⟨f, hfree, hview⟩ := hbeside v hlater fun e he => hcover e (by simp [he])
          obtain ⟨hold, hkept⟩ := hlays.draws f hfree
          exact ⟨f, hold, by rw [hview, hkept]⟩
        · have hno : ∀ e ∈ rest, ¬ e.hasPage (v / 4096) := fun e he hcon => hlater ⟨e, he, hcon⟩
          have hthis : ep.hasPage (v / 4096) := by
            obtain ⟨e, he, hn⟩ := hpage
            obtain rfl | he := List.mem_cons.mp he
            · exact hn
            · exact absurd hn (hno e he)
          obtain ⟨f, hfree, hview⟩ := hlays.beside v hthis (hcover ep (by simp))
          exact ⟨f, hfree, by rw [hothers v hno (by simp [hview]), hview]⟩

/-- A byte of a segment in the end: as it was copied, or, if a later segment has a
page there, as it stood in a free frame. -/
theorem loaded_byte {l₁ l₂ : List Phdr} {ep : Phdr} (hok : ∀ e ∈ l₁ ++ ep :: l₂, e.type = 1 →
      e.vaddr + e.memsz ≤ userPages * 4096 ∧ e.filesz ≤ e.memsz)
    (hapart : ∀ e ∈ l₂, ∀ v, ep.covers v → ¬ e.covers v) (h : Ready m G p vm)
    (hrun : (l₁ ++ ep :: l₂).foldlM (loadSegment img p) (vm, m) = some (w, m'))
    (htype : ep.type = 1) {j : Nat} (hj : j < ep.memsz) :
    ((∀ e ∈ l₂, ¬ e.hasPage ((ep.vaddr + j) / 4096)) →
      view m' p (ep.vaddr + j) = some (ep.copied img.data j)) ∧
    ((∃ e ∈ l₂, e.hasPage ((ep.vaddr + j) / 4096)) → ∃ f, G.role f = .free ∧
      view m' p (ep.vaddr + j) =
        some (byteAt (m.word f ((ep.vaddr + j) % 4096 / 8)) ((ep.vaddr + j) % 8))) := by
  rw [List.foldlM_append] at hrun
  obtain ⟨⟨w₁, m₁⟩, hbefore, hrun⟩ := Option.bind_eq_some_iff.mp hrun
  rw [List.foldlM_cons] at hrun
  obtain ⟨⟨w₂, m₂⟩, hfirst, hrest⟩ := Option.bind_eq_some_iff.mp hrun
  obtain ⟨G₁, h₁, hdraws₁, -⟩ := foldlM_loadSegment (fun e he => hok e (by simp [he])) h hbefore
  obtain ⟨G₂, h₂, hlays⟩ := loadSegment_lays h₁ (hok ep (by simp)) hfirst
  obtain ⟨G', h', -, hothers, hbeside⟩ :=
    foldlM_loadSegment (fun e he => hok e (by simp [he])) h₂ hrest
  have hbyte := hlays.bytes htype j hj
  refine ⟨fun hno => ?_, fun hpage => ?_⟩
  · rw [hothers _ hno (by simp [hbyte]), hbyte]
  · have hcovers : ep.covers (ep.vaddr + j) := ⟨htype, by omega, by omega⟩
    obtain ⟨f, hfree, hview⟩ := hbeside _ hpage fun e he => hapart e he _ hcovers
    obtain ⟨hmid, hkept⟩ := hlays.draws f hfree
    obtain ⟨hold, hkept₁⟩ := hdraws₁ f hmid
    exact ⟨f, hold, by rw [hview, hkept, hkept₁]⟩

/-- Headers in the order of the file; the loop has the ones before `ep` still to come. -/
theorem loadSegments_byte {l₁ l₂ : List Phdr} {ep : Phdr} (hphdrs : img.phdrs = l₁ ++ ep :: l₂)
    (hok : img.Ok) (hdisj : img.phdrs.Pairwise fun a b => ∀ v, a.covers v → ¬ b.covers v)
    (h : Ready m G p vm) (hrun : loadSegments img p (vm, m) = some (w, m'))
    (htype : ep.type = 1) {j : Nat} (hj : j < ep.memsz) :
    ((∀ e ∈ l₁, ¬ e.hasPage ((ep.vaddr + j) / 4096)) →
      view m' p (ep.vaddr + j) = some (ep.copied img.data j)) ∧
    ((∃ e ∈ l₁, e.hasPage ((ep.vaddr + j) / 4096)) → ∃ f, G.role f = .free ∧
      view m' p (ep.vaddr + j) =
        some (byteAt (m.word f ((ep.vaddr + j) % 4096 / 8)) ((ep.vaddr + j) % 8))) := by
  have hrev : img.phdrs.reverse = l₂.reverse ++ ep :: l₁.reverse := by simp [hphdrs]
  unfold loadSegments at hrun
  rw [hrev] at hrun
  rw [hphdrs, List.pairwise_append] at hdisj
  have hbyte := loaded_byte (fun e he => hok e (by simpa [hphdrs, or_comm, or_left_comm,
    or_assoc] using he)) (fun e he v hcover hcon =>
      hdisj.2.2 e (by simpa using he) ep (by simp) v hcon hcover) h hrun htype hj
  simpa using hbyte

end Run

section Supply

variable {img : Image} {m : Mem} {G : Ghost} {p n : Nat} {vm : Word} {ep : Phdr}

/-- The frames that suffice for a segment: its area, and its pages with their tables. -/
def Phdr.frames (ep : Phdr) : Nat :=
  if ep.type = 1 then
    1 + 4 * ((ep.vaddr + ep.memsz - ep.vaddr / 4096 * 4096 + 4095) / 4096)
  else 0

theorem Supplied.congr {m' : Mem} (hs : Supplied n m) (hpage : m'.page = m.page)
    (hhead : m'.head = m.head) : Supplied n m' := by
  obtain ⟨l, hl, hlen⟩ := hs
  exact ⟨l, hl.congr hpage hhead, hlen⟩

/-- Frames for all pages of a segment. -/
theorem mapPages_ok {start stop : Nat} (h : Inv m G) (hp : G.tab (p, 3, 0) = some p)
    (hstart : start % 4096 = 0) (hstop : stop ≤ userPages * 4096)
    (hs : Supplied (4 * ((stop - start + 4095) / 4096) + n) m) :
    ∃ m', mapPages m p start stop = some m' ∧ Supplied n m' := by
  have hbody : ∀ j m₁, j < (stop - start + 4095) / 4096 →
      (∃ G₁, Inv m₁ G₁ ∧ G₁.tab (p, 3, 0) = some p ∧
        Supplied (4 * ((stop - start + 4095) / 4096 - j) + n) m₁) →
      ∃ m₂, (m₁.allocatePage.bind fun r =>
          r.2.initPagesForProcess (start + 4096 * j) r.1 p) = some m₂ ∧
        ∃ G₂, Inv m₂ G₂ ∧ G₂.tab (p, 3, 0) = some p ∧
          Supplied (4 * ((stop - start + 4095) / 4096 - (j + 1)) + n) m₂ := by
    rintro j m₁ hj ⟨G₁, h₁, hp₁, hs₁⟩
    have hlt : (start + 4096 * j) / 4096 < userPages := by
      simp only [userPages] at *
      omega
    obtain ⟨a, m₀, m₂, halloc, hmap, hs₂⟩ := mapNew_ok h₁ hp₁ hlt (n :=
      4 * ((stop - start + 4095) / 4096 - (j + 1)) + n) (hs₁.mono (by omega))
    obtain ⟨f, G₂, -, h₂, hE₂, -⟩ := h₁.mapNew hp₁ hlt halloc hmap
    refine ⟨m₂, ?_, G₂, h₂, by rw [hE₂.root h₁ h₂, hp₁], hs₂⟩
    rw [halloc]
    exact hmap
  obtain ⟨m', hrun, -, -, -, hs'⟩ := foldlM_range_total (P := fun j m₁ => ∃ G₁, Inv m₁ G₁ ∧
    G₁.tab (p, 3, 0) = some p ∧ Supplied (4 * ((stop - start + 4095) / 4096 - j) + n) m₁)
    ⟨G, h, hp, hs⟩ hbody
  exact ⟨m', hrun, hs'.mono (by omega)⟩

/-- A segment is loaded when there are frames for it. -/
theorem loadSegment_ok (h : Ready m G p vm)
    (hok : ep.type = 1 → ep.vaddr + ep.memsz ≤ userPages * 4096 ∧ ep.filesz ≤ ep.memsz)
    (hs : Supplied (ep.frames + n) m) :
    ∃ w m', loadSegment img p (vm, m) ep = some (w, m') ∧ Supplied n m' := by
  unfold loadSegment
  by_cases htype : ep.type = 1
  · obtain ⟨hbound, hsize⟩ := hok htype
    simp only [Phdr.frames, if_pos htype, Nat.add_assoc] at hs
    obtain ⟨w, m₁, hvma, hs₁⟩ := newVma_ok h.inv hs (BitVec.ofNat 64 ep.vaddr)
      (BitVec.ofNat 64 (ep.vaddr + ep.memsz)) vm
    obtain ⟨l, hL⟩ := h.areas
    obtain ⟨G₁, t, hB₁, hL₁, -⟩ := newVma_spec h.inv h.homed hL hvma
    have h₁ := (hB₁ True).inv
    obtain ⟨m₂, hmap, hs₂⟩ := mapPages_ok h₁ hL₁.root (by omega) hbound hs₁
    obtain ⟨G₂, h₂, hE₂, -, -, hin, -⟩ := mapPages_spec h₁ hL₁.root (by omega) hbound hmap
    rw [frame_div] at hin
    have hp₂ : G₂.tab (p, 3, 0) = some p := by rw [hE₂.root h₁ h₂, hL₁.root]
    have hown : ∀ j, j < ep.memsz → ∃ f, G₂.leaf (p, (ep.vaddr + j) / 4096) = some ⟨f, true⟩ := by
      intro j hj
      obtain ⟨f, hleaf, -⟩ := hin ((ep.vaddr + j) / 4096) (Nat.div_le_div_right (by omega))
        (by omega)
      exact ⟨f, hleaf⟩
    obtain ⟨m₃, hcopy, hpage₃, hhead₃⟩ := copyBytes_ok ep.vaddr ep.filesz h₂ hp₂
      (by omega) (fun j hj => hown j (by omega)) (fun j => img.data (64 * ep.offset + j))
    obtain ⟨h₃, -⟩ := copyBytes_spec h₂ hp₂ (by omega) hcopy
    obtain ⟨m₄, hclear, hpage₄, hhead₄⟩ := copyBytes_ok (ep.vaddr + ep.filesz)
      (ep.memsz - ep.filesz) h₃ hp₂ (by omega)
      (fun j hj => by rw [Nat.add_assoc]; exact hown _ (by omega)) (fun _ => 0)
    refine ⟨w, m₄, ?_, hs₂.congr (by rw [hpage₄, hpage₃]) (by rw [hhead₄, hhead₃])⟩
    rw [if_pos htype]
    simp only [Option.bind_eq_bind, hvma, Option.bind_some, hmap, hcopy, hclear]
  · rw [if_neg htype]
    exact ⟨vm, m, rfl, hs.mono (by omega)⟩

/-- The loop comes to its end when there are frames for every segment. -/
theorem foldlM_loadSegment_ok (eps : List Phdr) (hok : ∀ ep ∈ eps, ep.type = 1 →
      ep.vaddr + ep.memsz ≤ userPages * 4096 ∧ ep.filesz ≤ ep.memsz)
    (h : Ready m G p vm) (hs : Supplied ((eps.map Phdr.frames).sum + n) m) :
    ∃ w m', eps.foldlM (loadSegment img p) (vm, m) = some (w, m') ∧ Supplied n m' := by
  induction eps generalizing m G vm with
  | nil => exact ⟨vm, m, rfl, hs.mono (by simp)⟩
  | cons ep rest ih =>
      rw [List.map_cons, List.sum_cons, Nat.add_assoc] at hs
      obtain ⟨w₁, m₁, hfirst, hs₁⟩ : ∃ w m', loadSegment img p (vm, m) ep = some (w, m') ∧
          Supplied ((rest.map Phdr.frames).sum + n) m' := loadSegment_ok h (hok ep (by simp)) hs
      obtain ⟨G₁, h₁, -⟩ := loadSegment_lays h (hok ep (by simp)) hfirst
      obtain ⟨w, m', hrest, hs'⟩ := ih (fun e he => hok e (by simp [he])) h₁ hs₁
      exact ⟨w, m', by rw [List.foldlM_cons, hfirst]; exact hrest, hs'⟩

theorem loadSegments_ok (h : Ready m G p vm) (hok : img.Ok)
    (hs : Supplied (img.phdrs.map Phdr.frames).sum m) :
    ∃ w m', loadSegments img p (vm, m) = some (w, m') := by
  obtain ⟨w, m', hrun, -⟩ := foldlM_loadSegment_ok (n := 0) img.phdrs.reverse
    (fun ep hep => hok ep (by simpa using hep)) h (by simpa using hs)
  exact ⟨w, m', hrun⟩

end Supply

section Callers

variable {m m₁ : Mem} {G : Ghost} {a : Nat}

/-- `execvpe` starts the loop when it has taken the old pages away. -/
theorem Valid.ready {sp : Space} (hv : Valid m G sp) (h : Inv m G) (hhome : Homed G) :
    ∃ G', Ready (m.deallocPml4 sp.root) G' sp.root sp.vm := by
  obtain ⟨G', hE⟩ := hv.emptied h hhome
  exact ⟨G', hE.inv, hE.homed, hE.areas⟩

/-- The loader begins with the loop over the segments. -/
theorem loadImage_eq (img : Image) (pml4 : Nat) (s : Word × Mem) :
    loadImage img pml4 s = (do
      let (vm, m) ← loadSegments img pml4 s
      let (vm2, m) ← newVma m (BitVec.ofNat 64 heapStart) (BitVec.ofNat 64 heapStart) vm
      let (add, m) ← m.allocatePage
      let m ← m.initPagesForProcess stackStart add pml4
      newVma m (BitVec.ofNat 64 stackStart) (BitVec.ofNat 64 stackEnd) vm2) := rfl

/-- `create_process` starts it in a new PML4. -/
theorem newRoot_ready (h : Inv m G) (hhome : Homed G)
    (halloc : m.allocatePageForProcess = some (a, m₁)) :
    ∃ G', Ready (m₁.memset0 ((a - kernBase) / 4096)) G' ((a - kernBase) / 4096) 0 := by
  obtain ⟨c, G₂, hfree, rfl, h₂, -, -, htab₂, -, -, hrole₂, -, -⟩ := newRoot h halloc
  rw [kptr_sub, frame_div]
  obtain ⟨hhome₂, hL₂⟩ := newRoot_listed (m₁.memset0 c) h hhome hfree htab₂ hrole₂
  exact ⟨G₂, h₂, hhome₂, [], hL₂⟩

end Callers

section Contents

variable {img : Image} {m : Mem} {G : Ghost} {p : Nat} {vm : Word} {ws : Nat → Nat → Word}

/-- `ws` are contents of memory that differ on free frames only. -/
def SameInUse (m : Mem) (G : Ghost) (ws : Nat → Nat → Word) : Prop :=
  ∀ f, G.role f ≠ .free → ws f = m.word f

/-- What free frames hold is nobody's business. -/
theorem Ready.refill (h : Ready m G p vm) (hws : SameInUse m G ws) :
    Ready { m with word := ws } G p vm := by
  obtain ⟨l, hL⟩ := h.areas
  refine ⟨h.inv.congr_word rfl rfl rfl ?_ ?_, h.homed, l,
    hL.congr rfl (fun _ => Iff.rfl) fun f hf => ?_⟩
  · intro f hf
    exact hws f (by simp [hf])
  · intro t q l k i ht _ _
    exact congrFun (hws t (by simp [ht])) i
  · exact congrFun (hws f (by simp [hf])) 5

/-- A word of eight equal bytes. -/
theorem exists_word_bytes (c : Byte) (n : Nat) (hn : n ≤ 8) :
    ∃ w : Word, ∀ k < n, byteAt w k = c := by
  induction n with
  | zero => exact ⟨0, fun k hk => absurd hk (Nat.not_lt_zero k)⟩
  | succ n ih =>
      obtain ⟨w, hw⟩ := ih (by omega)
      refine ⟨setByte w n c, fun k hk => ?_⟩
      rw [byteAt_setByte (by omega) (by omega)]
      split_ifs with hkn
      · rfl
      · exact hw k (by omega)

/-- The free frames full of one byte. -/
theorem exists_filled (m : Mem) (G : Ghost) (c : Byte) : ∃ ws, SameInUse m G ws ∧
    ∀ f, G.role f = .free → ∀ i, ∀ k < 8, byteAt (ws f i) k = c := by
  obtain ⟨w, hw⟩ := exists_word_bytes c 8 le_rfl
  refine ⟨fun f i => if G.role f = .free then w else m.word f i, ?_, ?_⟩
  · intro f hf
    funext i
    exact if_neg hf
  · intro f hf i k hk
    simp only [hf, if_true]
    exact hw k hk

/-- What the header says stands at `vaddr + j`. -/
def Phdr.content (ep : Phdr) (data : Nat → Byte) (j : Nat) : Byte :=
  if j < ep.filesz then data (ep.offset + j) else 0

theorem placed_iff (hok : img.Ok) {m' : Mem} : Placed img p m' ↔
    ∀ ep ∈ img.phdrs, ep.type = 1 → ∀ j < ep.memsz,
      view m' p (ep.vaddr + j) = some (ep.content img.data j) := by
  constructor
  · rintro ⟨hbytes, hzeros⟩ ep hep htype j hj
    unfold Phdr.content
    split_ifs with hfile
    · exact hbytes ep hep htype j hfile
    · exact hzeros ep hep htype j (by omega) hj
  · intro h
    refine ⟨fun ep hep htype j hj => ?_, fun ep hep htype j hlo hj => ?_⟩
    · have hsize := (hok ep hep htype).2
      rw [h ep hep htype j (by omega), Phdr.content, if_pos hj]
    · rw [h ep hep htype j hj, Phdr.content, if_neg (by omega)]

/-- A segment whose page is replaced later loses its bytes to a free frame. -/
theorem lost_of_later (hok : img.Ok)
    (hdisj : img.phdrs.Pairwise fun a b => ∀ v, a.covers v → ¬ b.covers v) (h : Ready m G p vm)
    (hret : ∀ ws, SameInUse m G ws →
      ∃ s, loadSegments img p (vm, { m with word := ws }) = some s)
    {l₁ l₂ : List Phdr} {ep e : Phdr} (hphdrs : img.phdrs = l₁ ++ ep :: l₂) (he : e ∈ l₁) {v : Nat}
    (hv : ep.covers v) (hpage : e.hasPage (v / 4096)) :
    ∃ ws w m', SameInUse m G ws ∧ loadSegments img p (vm, { m with word := ws }) = some (w, m') ∧
      ¬ Placed img p m' := by
  obtain ⟨htype, hlo, hhi⟩ := hv
  obtain ⟨j, rfl⟩ := Nat.exists_eq_add_of_le hlo
  have hj : j < ep.memsz := by omega
  -- any byte will do that is not the one that belongs there
  obtain ⟨ws, hws, hfill⟩ := exists_filled m G (ep.content img.data j + 1)
  obtain ⟨⟨w, m'⟩, hrun⟩ := hret ws hws
  refine ⟨ws, w, m', hws, hrun, fun hplaced => ?_⟩
  obtain ⟨f, hfree, hview⟩ :=
    (loadSegments_byte hphdrs hok hdisj (h.refill hws) hrun htype hj).2 ⟨e, he, hpage⟩
  rw [(placed_iff hok).mp hplaced ep (by simp [hphdrs]) htype j hj] at hview
  have hbyte := (Option.some.inj hview).trans (hfill f hfree _ _ (Nat.mod_lt _ (by decide)))
  generalize ep.content img.data j = b at hbyte
  bv_omega

/-- Without such pages a segment keeps what was copied. -/
theorem copied_of_pages (hok : img.Ok)
    (hdisj : img.phdrs.Pairwise fun a b => ∀ v, a.covers v → ¬ b.covers v)
    (hpages : img.phdrs.Pairwise fun a b => ∀ v, b.covers v → ¬ a.hasPage (v / 4096))
    (h : Ready m G p vm) {w : Word} {m' : Mem}
    (hrun : loadSegments img p (vm, m) = some (w, m')) {ep : Phdr} (hep : ep ∈ img.phdrs)
    (htype : ep.type = 1) {j : Nat} (hj : j < ep.memsz) :
    view m' p (ep.vaddr + j) = some (ep.copied img.data j) := by
  obtain ⟨l₁, l₂, hphdrs⟩ := List.append_of_mem hep
  refine (loadSegments_byte hphdrs hok hdisj h hrun htype hj).1 fun e he => ?_
  rw [hphdrs, List.pairwise_append] at hpages
  exact hpages.2.2 e he ep (by simp) _ ⟨htype, by omega, by omega⟩

end Contents

/-- The loader places every byte of a file, whatever the free frames hold, if and only
if the file is one of those it gets right. Where the loop starts, see `Valid.ready`
and `newRoot_ready`. -/
theorem loadSegments_placed_iff (data : Nat → Byte) (m : Mem) (G : Ghost) (p : Nat) (vm : Word)
    (h : Ready m G p vm) (hok : (elfImage data).Ok)
    (hdisj : (elfImage data).phdrs.Pairwise fun a b => ∀ v, a.covers v → ¬ b.covers v)
    (hret : ∀ ws, SameInUse m G ws →
      ∃ s, loadSegments (elfImage data) p (vm, { m with word := ws }) = some s) :
    (∀ ws, SameInUse m G ws → ∀ w m',
      loadSegments (elfImage data) p (vm, { m with word := ws }) = some (w, m') →
        Placed (elfImage data) p m') ↔ Loadable (elfImage data) := by
  constructor
  · intro hall
    have hpages : (elfImage data).phdrs.Pairwise
        fun a b => ∀ v, b.covers v → ¬ a.hasPage (v / 4096) := by
      rw [List.pairwise_iff_getElem]
      intro i j hi hj hij v hcover hpage
      have hphdrs := (List.take_append_drop j (elfImage data).phdrs).symm
      rw [List.drop_eq_getElem_cons hj] at hphdrs
      obtain ⟨ws, w, m', hws, hrun, hnot⟩ := lost_of_later hok hdisj h hret hphdrs
        (List.mem_take_iff_getElem.mpr ⟨i, by omega, rfl⟩) hcover hpage
      exact hnot (hall ws hws w m' hrun)
    refine ⟨fun ep hep htype j hj => ?_, hpages⟩
    have hsame : SameInUse m G m.word := fun _ _ => rfl
    obtain ⟨⟨w, m'⟩, hrun⟩ := hret m.word hsame
    have hsize := (hok ep hep htype).2
    have hcopied := copied_of_pages hok hdisj hpages h hrun hep htype (j := j) (by omega)
    rw [(hall m.word hsame w m' hrun).bytes ep hep htype j hj, Phdr.copied, if_pos hj] at hcopied
    exact (Option.some.inj hcopied).symm
  · rintro ⟨hoffsets, hpages⟩ ws hws w m' hrun
    refine (placed_iff hok).mpr fun ep hep htype j hj => ?_
    rw [copied_of_pages hok hdisj hpages (h.refill hws) hrun hep htype hj, Phdr.copied,
      Phdr.content]
    split_ifs with hfile
    · rw [hoffsets ep hep htype j hfile]
    · rfl

def oneSegment (offset : Byte) : Nat → Byte
  | 32 => 64
  | 56 => 1
  | 64 => 1
  | 72 => offset
  | 82 => 0x40
  | 96 => 1
  | 104 => 1
  | 120 => 7
  | _ => 0

theorem oneSegment_phdrs (offset : Byte) : (elfImage (oneSegment offset)).phdrs =
    [{ type := 1, offset := offset.toNat, vaddr := 0x400000, filesz := 1, memsz := 1 }] := by
  simp [elfImage, elf64Phdr, field, ofBytes, oneSegment, List.range, List.range.loop]

theorem oneSegment_ok (offset : Byte) : (elfImage (oneSegment offset)).Ok := by
  intro ep hep _
  rw [oneSegment_phdrs, List.mem_singleton] at hep
  subst hep
  simp [userPages]

theorem oneSegment_frames (offset : Byte) :
    ((elfImage (oneSegment offset)).phdrs.map Phdr.frames).sum = 5 := by
  rw [oneSegment_phdrs, List.map_singleton, List.sum_singleton, Phdr.frames, if_pos rfl]
  dsimp only

/-- The loader can take such a file into the first address space of a small machine. -/
theorem oneSegment_ready : ∃ m G p, Ready m G p 0 ∧ ∀ offset ws, SameInUse m G ws →
    ∃ s, loadSegments (elfImage (oneSegment offset)) p (0, { m with word := ws }) = some s := by
  obtain ⟨a, m₁, halloc, l, hl, hlen⟩ := allocForProcess_ok (n := 5) smallMem_boot.inv
    ⟨_, smallMem_chain 39 (by omega), by simp⟩
  obtain ⟨G, hready⟩ := newRoot_ready smallMem_boot.inv smallMem_boot.homed halloc
  refine ⟨_, G, _, hready, fun offset ws hws => ?_⟩
  obtain ⟨w, m', hrun⟩ := loadSegments_ok (hready.refill hws)
    (oneSegment_ok offset) ⟨l, hl.congr rfl rfl, by
      rw [oneSegment_frames]
      exact hlen⟩
  exact ⟨_, hrun⟩

/-- With the segment at the start of the file. -/
theorem loadSegments_placed_iff_one : ∃ m G p, Ready m G p 0 ∧ ∀ ws, SameInUse m G ws → ∀ w m',
    loadSegments (elfImage (oneSegment 0)) p (0, { m with word := ws }) = some (w, m') →
      Placed (elfImage (oneSegment 0)) p m' := by
  obtain ⟨m, G, p, hready, hret⟩ := oneSegment_ready
  refine ⟨m, G, p, hready, (loadSegments_placed_iff (oneSegment 0) m G p 0 hready (oneSegment_ok 0)
    ?_ (hret 0)).mpr ⟨?_, ?_⟩⟩
  · rw [oneSegment_phdrs]
    exact List.pairwise_singleton _ _
  · intro ep hep _ j _
    rw [oneSegment_phdrs, List.mem_singleton] at hep
    rw [hep]
    rfl
  · rw [oneSegment_phdrs]
    exact List.pairwise_singleton _ _

/-- With the segment at byte 120, which is a 7: the byte the loader takes is 120 headers
further on. -/
theorem offset_counts_headers : ¬ ∀ data m G p vm w m', Ready m G p vm → (elfImage data).Ok →
    (elfImage data).phdrs.Pairwise (fun a b => ∀ v, a.covers v → ¬ b.covers v) →
    loadSegments (elfImage data) p (vm, m) = some (w, m') → Placed (elfImage data) p m' := by
  intro hall
  obtain ⟨m, G, p, hready, hret⟩ := oneSegment_ready
  obtain ⟨⟨w, m'⟩, hrun⟩ := hret 120 m.word fun _ _ => rfl
  have hphdrs : (elfImage (oneSegment 120)).phdrs =
      [] ++ { type := 1, offset := 120, vaddr := 0x400000, filesz := 1, memsz := 1 } :: [] :=
    oneSegment_phdrs 120
  have hdisj : (elfImage (oneSegment 120)).phdrs.Pairwise
      fun a b => ∀ v, a.covers v → ¬ b.covers v := by
    rw [hphdrs]
    exact List.pairwise_singleton _ _
  have hplaced := (hall _ m G p 0 w m' hready (oneSegment_ok 120) hdisj hrun).bytes _
    (by rw [hphdrs]; exact List.mem_singleton_self _) rfl 0 (by decide)
  have hcopied := (loadSegments_byte hphdrs (oneSegment_ok 120) hdisj hready hrun rfl (j := 0)
    (by decide)).1 (by simp)
  rw [hcopied] at hplaced
  revert hplaced
  decide

end X86Kernel.Kern
