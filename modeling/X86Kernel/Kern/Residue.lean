import X86Kernel.Kern.Segments
import X86Kernel.Kern.Destroy

/-!
What a process can be sure to find in its memory, whatever the frames on the free
list hold. `allocate_page` clears nothing: a page that `malloc`, a growing stack or
`execvpe` hands out shows what its frame held before, until something is stored
there. Apart from that a process sees nothing of the free frames.
-/

namespace X86Kernel.Kern

open Lib Paging

/-- The bytes of a memory that are certain, and the end of its heap. -/
structure Known where
  byte : Nat → Option Byte
  brk : Nat

section Bytes

variable {L V V' : Nat → Option Byte} {a : Nat} {bs : List Byte}

/-- `bs` is stored at `a`. -/
def stored (L : Nat → Option Byte) (a : Nat) (bs : List Byte) : Nat → Option Byte :=
  fun v => if a ≤ v then (bs[v - a]?).or (L v) else L v

/-- The strings of `args` below `rsp`, where `pushStrings` puts them. -/
def storedStrings (L : Nat → Option Byte) (rsp : Nat) : List (List Byte) → Nat → Option Byte
  | [] => L
  | s :: rest => stored (storedStrings L rsp rest) (pushStrings rsp (s :: rest)).2.2 (s ++ [0])

def storedArgs (L : Nat → Option Byte) (args : List (List Byte)) : Nat → Option Byte :=
  stored (storedStrings L initialRsp args) (execRsp args)
    ((args.length :: (pushStrings initialRsp args).2.1 ++ [0, 0]).flatMap wordBytes)

/-- All that is in `L` can be seen in `V`. -/
def Certain (L V : Nat → Option Byte) : Prop := ∀ v b, L v = some b → V v = some b

theorem Certain.put (h : Certain L V) (hput : Put V a bs V') : Certain (stored L a bs) V' := by
  have hrest : ∀ v b, L v = some b → v < a ∨ a + bs.length ≤ v → V' v = some b := by
    intro v b hv hout
    have hold := h v b hv
    rw [hput.rest v (by simp [hold]) hout, hold]
  intro v b hv
  rw [stored] at hv
  split_ifs at hv with hlo
  · obtain ⟨j, rfl⟩ := Nat.exists_eq_add_of_le hlo
    rw [Nat.add_sub_cancel_left] at hv
    cases hj : bs[j]? with
    | none => exact hrest _ b (by simpa [hj] using hv) (.inr (by simpa using hj))
    | some c =>
        obtain rfl : c = b := by simpa [hj] using hv
        exact hput.holds j _ (by simp [hj])
  · exact hrest v b hv (.inl (by omega))

/-- The strings that `execvpe` pushes. -/
theorem Certain.strings (h : Certain L V) {rsp : Nat} {args : List (List Byte)}
    (hwrote : WroteAll V (pushStrings rsp args).1 V') : Certain (storedStrings L rsp args) V' := by
  induction args generalizing V' with
  | nil =>
      obtain rfl : V' = V := hwrote
      exact h
  | cons s rest ih =>
      obtain ⟨V₁, hrest, hfirst⟩ := wroteAll_append.mp hwrote
      exact (ih hrest).put (stringWrites_put hfirst)

/-- All that `execvpe` pushes. -/
theorem Certain.args (h : Certain L V) {args : List (List Byte)} (hargs : FitsArgs args)
    (hwrote : WroteAll V (execWrites args) V') : Certain (storedArgs L args) V' := by
  obtain ⟨V₁, hstrings, hwords⟩ := wroteAll_append.mp hwrote
  have hput := execWords_put hargs hwords
  exact (h.strings hstrings).put hput

end Bytes

section Load

variable {img : Image} {m m' : Mem} {G : Ghost} {p : Nat} {vm w : Word} {L : Nat → Option Byte}

instance (ep : Phdr) (n : Nat) : Decidable (ep.hasPage n) := inferInstanceAs (Decidable (_ ∧ _))

instance (ep : Phdr) (v : Nat) : Decidable (ep.covers v) := inferInstanceAs (Decidable (_ ∧ _))

/-- A segment is loaded. Beside it its pages hold what nobody stored. -/
def storedSegment (img : Image) (L : Nat → Option Byte) (ep : Phdr) : Nat → Option Byte :=
  fun v =>
    if ep.covers v then some (ep.copied img.data (v - ep.vaddr))
    else if ep.hasPage (v / 4096) then none
    else L v

/-- An image is loaded into an empty space, and the stack gets its first page. -/
def storedImage (img : Image) : Nat → Option Byte :=
  fun v =>
    if v / 4096 = stackPage then none
    else img.phdrs.reverse.foldl (storedSegment img) (fun _ => none) v

theorem Certain.segment {ep : Phdr} {G' : Ghost} (h : Certain L (view m p))
    (hlays : Lays img p ep m G m' G') : Certain (storedSegment img L ep) (view m' p) := by
  intro v b hv
  rw [storedSegment] at hv
  split_ifs at hv with hcover hpage
  · obtain ⟨htype, hlo, hhi⟩ := hcover
    obtain ⟨j, rfl⟩ := Nat.exists_eq_add_of_le hlo
    rw [Nat.add_sub_cancel_left] at hv
    rw [hlays.bytes htype j (by omega), hv]
  · have hold := h v b hv
    rw [hlays.others v hpage (by simp [hold]), hold]

theorem Certain.segments {eps : List Phdr} (hok : ∀ ep ∈ eps, ep.type = 1 →
      ep.vaddr + ep.memsz ≤ userPages * 4096 ∧ ep.filesz ≤ ep.memsz)
    (h : Ready m G p vm) (hL : Certain L (view m p))
    (hrun : eps.foldlM (loadSegment img p) (vm, m) = some (w, m')) :
    ∃ G', Ready m' G' p w ∧ Certain (eps.foldl (storedSegment img) L) (view m' p) := by
  induction eps generalizing m G vm L with
  | nil =>
      obtain ⟨rfl, rfl⟩ : vm = w ∧ m = m' := by simpa using hrun
      exact ⟨G, h, hL⟩
  | cons ep rest ih =>
      rw [List.foldlM_cons] at hrun
      obtain ⟨⟨w₁, m₁⟩, hfirst, hrest⟩ := Option.bind_eq_some_iff.mp hrun
      obtain ⟨G₁, h₁, hlays⟩ := loadSegment_lays h (hok ep (by simp)) hfirst
      exact ih (fun e he => hok e (by simp [he])) h₁ (hL.segment hlays) hrest

/-- A new area is nothing that a process could see. -/
theorem Ready.newVma {start stop : Word} (h : Ready m G p vm)
    (hrun : newVma m start stop vm = some (w, m')) :
    ∃ G', Ready m' G' p w ∧ view m' p = view m p := by
  obtain ⟨l, hL⟩ := h.areas
  obtain ⟨G', f, hB, hL', -, -, hleaf, hword, -⟩ := newVma_spec h.inv h.homed hL hrun
  have hI := (hB True).inv
  refine ⟨G', ⟨hI, (hB True).homed, f :: l, hL'⟩, ?_⟩
  funext v
  exact view_congr h.inv hI hL.root hL'.root (by rw [hleaf]) fun g hg => hword g (by simp [hg])

/-- What is certain after the loader. -/
theorem loadImage_certain (h : Ready m G p vm) (hok : img.Ok)
    (hrun : loadImage img p (vm, m) = some (w, m')) : Certain (storedImage img) (view m' p) := by
  rw [loadImage_eq] at hrun
  obtain ⟨⟨w₁, m₁⟩, hsegs, hrun⟩ := Option.bind_eq_some_iff.mp hrun
  obtain ⟨⟨w₂, m₂⟩, hheap, hrun⟩ := Option.bind_eq_some_iff.mp hrun
  obtain ⟨⟨a, m₃⟩, halloc, hrun⟩ := Option.bind_eq_some_iff.mp hrun
  obtain ⟨m₄, hmap, hstack⟩ := Option.bind_eq_some_iff.mp hrun
  obtain ⟨G₁, h₁, hsure⟩ := Certain.segments (L := fun _ => none)
    (fun ep hep => hok ep (by simpa using hep)) h (fun v b hv => by simp at hv) hsegs
  obtain ⟨G₂, h₂, hsame₂⟩ := h₁.newVma hheap
  obtain ⟨f, G₄, -, h₄, hE₄, hleaf₄, -, -, -⟩ := h₂.inv.mapNew h₂.root
    (show stackStart / 4096 < userPages by decide) halloc hmap
  have hroot₄ : G₄.tab (p, 3, 0) = some p := by rw [hE₄.root h₂.inv h₄, h₂.root]
  have hready₄ : Ready m₄ G₄ p w₂ := by
    obtain ⟨l, hL⟩ := h₂.areas
    exact ⟨h₄, h₂.homed.of_vma (fun f q => hE₄.vma q f) (hE₄.root h₂.inv h₄), l,
      hL.extends h₂.inv h₄ hE₄ (fun _ hx => hx.elim)⟩
  obtain ⟨-, -, hsame₅⟩ := hready₄.newVma hstack
  intro v b hv
  rw [storedImage] at hv
  split_ifs at hv with hpage
  have hsame₄ : view m₄ p v = view m₂ p v := by
    refine view_congr h₂.inv h₄ h₂.root hroot₄ ?_ fun g hg =>
      hE₄.word g (fun hx => hx) (by simp [hg]) (by simp [hg])
    rw [hleaf₄, Function.update_of_ne (by simpa [stackPage] using hpage)]
  rw [hsame₅, hsame₄, hsame₂]
  exact hsure v b hv

end Load

section Process

variable {m₀ m m' : Mem} {k k' : System} {G : Ghost} {K : Known} {act : Action}

/-- What is certain after `execvpe`. -/
theorem execvpe_certain {img : Image} {args : List (List Byte)} {sp sp' : Space} (h : Inv m G)
    (hhome : Homed G) (hv : Valid m G sp) (hok : img.Ok) (hargs : FitsArgs args)
    (hrun : execvpe m sp img args = some (sp', m')) :
    Certain (storedArgs (storedImage img) args) (view m' sp.root) := by
  obtain ⟨⟨vm, m₂⟩, hload, hrun⟩ := Option.bind_eq_some_iff.mp hrun
  obtain ⟨m₃, hwrites, hrun⟩ := Option.bind_eq_some_iff.mp hrun
  obtain ⟨rfl, rfl⟩ : { sp with vm := vm } = sp' ∧ m₃ = m' := by simpa using hrun
  obtain ⟨G₁, hready⟩ := hv.ready h hhome
  obtain ⟨l, hL⟩ := hready.areas
  obtain ⟨G₂, hB, hv₂, -⟩ := loadImage_spec hready.inv hready.homed hL hok hload
  have hsp : ({ pml4e := sp.root * 4096, vm := vm } : Space) = { sp with vm := vm } := by
    rw [← hv.aligned]
  rw [hsp] at hv₂
  obtain ⟨-, -, -, -, -, -, hall, -⟩ := stackWrites_spec _ (fun w hw => mem_execWrites hargs hw)
    hB.inv hB.homed hv₂ (hB.added _ (.inr rfl)) hwrites
  exact (loadImage_certain hready hok hload).args hargs hall

/-- A read shows nothing new of what was mapped. -/
theorem read_view {sp : Space} {a v : Nat} (h : Inv m G) (hv : Valid m G sp)
    (ha : a / 4096 < userPages)
    (hpte : G.tab (sp.root, 0, a / 4096 / 512) ≠ none ∨ ∀ i, m.word 0 i = 0)
    (hrun : read m sp a = some (.resume m')) (hsome : view m sp.root v ≠ none) :
    view m' sp.root v = view m sp.root v := by
  unfold read at hrun
  rw [h.walk hv.root ha] at hrun
  cases hleaf : G.leaf (sp.root, a / 4096) with
  | some e =>
      obtain rfl : m = m' := by simpa [hleaf] using hrun
      rfl
  | none =>
      simp only [hleaf, Option.map_none, Option.isSome_none, Bool.false_eq_true, if_false] at hrun
      obtain ⟨⟨G', hR⟩, -⟩ := isr14_spec h hv ha hpte (by simp [hleaf]) hrun
      exact hR.view h hv.root hsome

def System.own (k : System) : Action → Option System
  | .sched _ => none
  | act => (k.step act).filter fun k' => k'.sched.r = k.sched.r ∧ k'.inUser

/-- What is certain of the memory of the process before it does anything. -/
def System.known (k : System) : Known :=
  { byte := view k.mem k.cur.root, brk := brk k.mem k.cur }

/-- What a step adds and what it takes away. The pages of `malloc` are not known, and
neither is a page of stack that a write makes, but for the byte that is written. -/
def Known.step (K : Known) : Action → Known
  | .exec img args => { byte := storedArgs (storedImage img) args, brk := heapStart }
  | .malloc bytes =>
      { byte := fun v =>
          if K.brk ≤ v ∧ v < K.brk + 4096 * mallocPages bytes then none else K.byte v
        brk := K.brk + 4096 * mallocPages bytes }
  | .write a b => { K with byte := stored K.byte a [b] }
  | .read _ => K
  | .sched _ => K

def System.Knows (k : System) (K : Known) : Prop :=
  brk k.mem k.cur = K.brk ∧ Certain K.byte (view k.mem k.cur.root)

theorem own_step (hstep : k.own act = some k') :
    (∀ e, act ≠ .sched e) ∧ k.step act = some k' ∧ k'.sched.r = k.sched.r ∧ k'.inUser = true := by
  unfold System.own at hstep
  split at hstep
  · cases hstep
  · rename_i hsched
    obtain ⟨hs, hstay⟩ := Option.filter_eq_some_iff.mp hstep
    obtain ⟨hr, huser⟩ := of_decide_eq_true hstay
    exact ⟨hsched, hs, hr, huser⟩

/-- One step. -/
theorem Good.own_knows (h : Good m₀ k G) (hok : Safe k act) (hstep : k.own act = some k')
    (hK : k.Knows K) : ∃ G', Good m₀ k' G' ∧ k'.Knows (K.step act) := by
  obtain ⟨hsched, hs, hr, huser'⟩ := own_step hstep
  obtain ⟨G', hgood, -⟩ := h.step hok hs
  obtain ⟨hbrk, hsure⟩ := hK
  refine ⟨G', hgood, ?_⟩
  cases step_moves hs with
  | fork => exact absurd rfl (hsched _)
  | reap => exact absurd rfl (hsched _)
  | quiet => exact absurd rfl (hsched _)
  | exec huser hrun =>
      rename_i img args sp m
      obtain ⟨G₁, hroot, -, -, -, hbrk₁, -⟩ :=
        execvpe_spec h.inv h.homed (h.cur_valid huser) hok.1 hok.2 hrun
      have hcertain := execvpe_certain h.inv h.homed (h.cur_valid huser) hok.1 hok.2 hrun
      have hcur : ({ k with space := Function.update k.space k.sched.r sp, mem := m } :
          System).cur = sp := by
        simp [System.cur]
      refine ⟨by rw [hcur]; exact hbrk₁, ?_⟩
      rw [hcur, hroot]
      exact hcertain
  | malloc huser hrun =>
      obtain ⟨G₁, -, -, hbrk₁, hload, -⟩ :=
        malloc_spec h.inv h.homed (h.cur_valid huser) hrun
      refine ⟨by simp only [Known.step, ← hbrk]; exact hbrk₁, fun v b hv => ?_⟩
      simp only [Known.step] at hv
      split_ifs at hv with hnew
      have hold := hsure v b hv
      rw [← hold]
      unfold view at hold ⊢
      split_ifs at hold ⊢ with hvu
      · exact hload v hvu (by rw [hbrk₁, hbrk]; exact hnew)
  | write huser hrun =>
      rename_i a b m
      obtain ⟨hpage, hpte⟩ := h.resolves huser hok
      obtain ⟨G₁, -, -, hbrk₁, -⟩ :=
        write_spec h.inv h.homed (h.cur_valid huser) hpage hpte hrun
      refine ⟨hbrk₁.trans hbrk, ?_⟩
      exact hsure.put (byteWrite_put (write_wrote h.inv (h.cur_valid huser) hpage hpte hrun))
  | read huser hrun =>
      obtain ⟨hpage, hpte⟩ := h.resolves huser hok
      obtain ⟨G₁, -, -, hbrk₁⟩ := read_spec h.inv h.homed (h.cur_valid huser) hpage hpte hrun
      refine ⟨hbrk₁.trans hbrk, fun v b hv => ?_⟩
      have hold := hsure v b hv
      have hsame := read_view h.inv (h.cur_valid huser) hpage hpte hrun (v := v) (by simp [hold])
      exact hsame.trans hold
  | segv _ _ _ =>
      dsimp only at hr
      simp [System.inUser, hr] at huser'
  | stuck => simp [System.inUser] at huser'

/-- A run of the process. -/
theorem Good.run_knows {t : System} {acts : List Action} (h : Good m₀ k G) (hK : k.Knows K)
    (hrun : Run System.own Safe k acts t) :
    (∃ G', Good m₀ t G') ∧ t.Knows (acts.foldl Known.step K) := by
  induction hrun with
  | nil => exact ⟨⟨G, h⟩, hK⟩
  | snoc _ hok hstep ih =>
      obtain ⟨⟨G₁, h₁⟩, hK₁⟩ := ih
      obtain ⟨G₂, h₂, hK₂⟩ := h₁.own_knows hok hstep hK₁
      rw [List.foldl_append]
      exact ⟨⟨G₂, h₂⟩, hK₂⟩

/-- The machine with other contents of memory. -/
def System.refill (k : System) (ws : Nat → Nat → Word) : System :=
  { k with mem := { k.mem with word := ws } }

/-- Other contents of the free frames make no difference. -/
theorem Good.refill {ws : Nat → Nat → Word} (h : Good m₀ k G) (hws : SameInUse k.mem G ws) :
    Good m₀ (k.refill ws) G := by
  have hI : Inv (k.refill ws).mem G := by
    refine h.inv.congr_word rfl rfl rfl ?_ ?_
    · intro f hf
      exact hws f (by simp [hf])
    · intro t q l n i ht _ _
      exact congrFun (hws t (by simp [ht])) i
  refine ⟨h.awake, hI, h.homed, fun i hi => ?_, h.distinct, h.kernel, fun f hf => ?_, h.kpml4⟩
  · exact (h.valid i hi).keep h.inv rfl (fun _ => Iff.rfl) (fun f hf => hws f (by simp [hf]))
      fun _ hn => hn
  · rw [← h.kword f hf]
    exact hws f (by simp [hf])

/-- The process knows the same in both. -/
theorem Good.refill_knows {ws : Nat → Nat → Word} (h : Good m₀ k G)
    (hws : SameInUse k.mem G ws) (huser : k.inUser = true) : (k.refill ws).Knows k.known := by
  have hv := h.cur_valid huser
  refine ⟨(hv.words_eq h.inv fun f hf => hws f (by simp [hf])).2.2.2, fun v b hb => ?_⟩
  rw [← hb]
  exact view_congr h.inv (h.refill hws).inv hv.root hv.root rfl fun f hf => hws f (by simp [hf])

end Process

/-- What a process can be sure to find does not depend on what the free frames held:
that is all but the bytes of pages handed out since where nothing has been stored. -/
theorem certain_bytes_same (k : System) (h : Reachable System.step Safe BootStart k)
    (huser : k.inUser = true) (ws : Nat → Nat → Word)
    (hws : ∀ f, ¬ OnFreeList k.mem f → ws f = k.mem.word f) (acts : List Action) (t t' : System)
    (hrun : Run System.own Safe k acts t) (hrun' : Run System.own Safe (k.refill ws) acts t')
    (v : Nat) (b : Byte) (hv : (acts.foldl Known.step k.known).byte v = some b) :
    view t.mem t.cur.root v = some b ∧ view t'.mem t'.cur.root v = some b := by
  obtain ⟨m₀, G, -, hgood⟩ := BootStart.good (fun _ _ hsafe => hsafe) h
  have hsame : SameInUse k.mem G ws := fun f hf => hws f (mt (onFreeList_iff hgood.inv f).mp hf)
  have hknows : k.Knows k.known := ⟨rfl, fun v b hb => hb⟩
  obtain ⟨-, -, hfirst⟩ := hgood.run_knows hknows hrun
  obtain ⟨-, -, hsecond⟩ :=
    (hgood.refill hsame).run_knows (hgood.refill_knows hsame huser) hrun'
  exact ⟨hfirst v b hv, hsecond v b hv⟩

/-- The free frame that is next, full of ones. -/
def onesAhead (m : Mem) : Nat → Nat → Word :=
  fun f i => if m.head = some f then 0x0101010101010101 else m.word f i

theorem onesAhead_free (m : Mem) (f : Nat) (hf : ¬ OnFreeList m f) :
    onesAhead m f = m.word f := by
  funext i
  exact if_neg fun hhead => hf (.head hhead)

/-- A new page of heap, and a byte that is stored there. -/
theorem certain_bytes_same_heap :
    ∃ k t t', Reachable System.step Safe BootStart k ∧
      Run System.own Safe k [.malloc 0, .write heapStart 7] t ∧
      Run System.own Safe (k.refill (onesAhead k.mem)) [.malloc 0, .write heapStart 7] t' ∧
      view t.mem t.cur.root heapStart = some 7 ∧ view t'.mem t'.cur.root heapStart = some 7 := by
  have hrun : ((System.start smallMem emptyImage []).bind fun k =>
      (k.own (.malloc 0)).bind fun k₁ => (k₁.own (.write heapStart 7)).bind fun t =>
        ((k.refill (onesAhead k.mem)).own (.malloc 0)).bind fun k₁' =>
          (k₁'.own (.write heapStart 7)).map fun t' =>
            decide (k.inUser ∧ (k₁.mem.walk k₁.cur.root heapStart).isSome ∧
              (k₁'.mem.walk k₁'.cur.root heapStart).isSome)).any id = true := by
    decide +kernel
  obtain ⟨b, hrun, hb⟩ := (Option.any_eq_true _ _).mp hrun
  obtain ⟨k, hk, hrun⟩ := Option.bind_eq_some_iff.mp hrun
  obtain ⟨k₁, hk₁, hrun⟩ := Option.bind_eq_some_iff.mp hrun
  obtain ⟨t, ht, hrun⟩ := Option.bind_eq_some_iff.mp hrun
  obtain ⟨k₁', hk₁', hrun⟩ := Option.bind_eq_some_iff.mp hrun
  obtain ⟨t', ht', rfl⟩ := Option.map_eq_some_iff.mp hrun
  obtain ⟨huser, hmapped, hmapped'⟩ := of_decide_eq_true hb
  have hreach : Reachable System.step Safe BootStart k :=
    .start ⟨smallMem, emptyImage, [], smallMem_boot, emptyImage_ok, by decide, hk⟩
  have hpage : heapStart / 4096 < userPages := by decide
  have hfirst : Run System.own Safe k [.malloc 0, .write heapStart 7] t :=
    (Run.snoc .nil trivial hk₁).snoc ⟨hpage, .inl hmapped⟩ ht
  have hsecond : Run System.own Safe (k.refill (onesAhead k.mem))
      [.malloc 0, .write heapStart 7] t' :=
    (Run.snoc .nil trivial hk₁').snoc ⟨hpage, .inl hmapped'⟩ ht'
  obtain ⟨hview, hview'⟩ := certain_bytes_same k hreach huser (onesAhead k.mem)
    (onesAhead_free k.mem) _ t t' hfirst hsecond heapStart 7 (by simp [Known.step, stored])
  exact ⟨k, t, t', hreach, hfirst, hsecond, hview, hview'⟩

/-- A page of heap shows what its frame held, whoever has written it. -/
theorem fresh_page_reveals :
    ¬ ∀ k, Reachable System.step Safe BootStart k → k.inUser = true →
      ∀ ws : Nat → Nat → Word, (∀ f, ¬ OnFreeList k.mem f → ws f = k.mem.word f) →
      ∀ acts t t', Run System.own Safe k acts t → Run System.own Safe (k.refill ws) acts t' →
        ∀ v b b', view t.mem t.cur.root v = some b → view t'.mem t'.cur.root v = some b' →
          b = b' := by
  intro hall
  have hrun : ((System.start smallMem emptyImage []).bind fun k =>
      (k.own (.malloc 0)).bind fun t => ((k.refill (onesAhead k.mem)).own (.malloc 0)).map fun t' =>
        decide (k.inUser ∧ view t.mem t.cur.root heapStart = some 0 ∧
          view t'.mem t'.cur.root heapStart = some 1)).any id = true := by
    decide +kernel
  obtain ⟨b, hrun, hb⟩ := (Option.any_eq_true _ _).mp hrun
  obtain ⟨k, hk, hrun⟩ := Option.bind_eq_some_iff.mp hrun
  obtain ⟨t, ht, hrun⟩ := Option.bind_eq_some_iff.mp hrun
  obtain ⟨t', ht', rfl⟩ := Option.map_eq_some_iff.mp hrun
  obtain ⟨huser, hzero, hone⟩ := of_decide_eq_true hb
  have hreach : Reachable System.step Safe BootStart k :=
    .start ⟨smallMem, emptyImage, [], smallMem_boot, emptyImage_ok, by decide, hk⟩
  have hsame := hall k hreach huser (onesAhead k.mem) (onesAhead_free k.mem) [.malloc 0] t t'
    (Run.snoc .nil trivial ht) (Run.snoc .nil trivial ht') heapStart 0 1 hzero hone
  cases hsame

end X86Kernel.Kern
