import X86Kernel.Kern.Fork
import X86Kernel.Kern.Heap
import X86Kernel.Kern.View

/-!
`create_process` and `execvpe` as a whole: the image, and the arguments on the
stack. The arguments of `execvpe` may need a second page of stack.
-/

namespace X86Kernel.Kern

open Lib Paging

def stringsSize (args : List (List Byte)) : Nat := (args.map fun s => 8 * (s.length + 1)).sum

theorem mem_stringWrites {a : Nat} {s : List Byte} {w : Write} (hw : w ∈ stringWrites a s) :
    a ≤ w.1 ∧ w.1 ≤ a + s.length := by
  unfold stringWrites at hw
  obtain ⟨⟨b, j⟩, hj, rfl⟩ := List.mem_map.mp hw
  have hlt := (List.mem_zipIdx hj).2.1
  simp only [List.length_append, List.length_singleton] at hlt
  dsimp only
  omega

theorem mem_pushWords {rsp : Nat} {ws : List Nat} {w : Write} (hw : w ∈ pushWords rsp ws)
    (hfit : 8 * ws.length ≤ rsp) : rsp - 8 * ws.length ≤ w.1 ∧ w.1 < rsp := by
  unfold pushWords at hw
  obtain ⟨⟨x, j⟩, hj, rfl⟩ := List.mem_map.mp hw
  have hlt := (List.mem_zipIdx hj).2.1
  simp only [wordWrite]
  omega

/-- The strings lie below `rsp`, one after the other. -/
theorem pushStrings_spec (args : List (List Byte)) (rsp : Nat) (hfit : stringsSize args ≤ rsp) :
    (pushStrings rsp args).2.2 = rsp - stringsSize args ∧
      (pushStrings rsp args).2.1.length = args.length ∧
      ∀ w ∈ (pushStrings rsp args).1, rsp - stringsSize args ≤ w.1 ∧ w.1 < rsp := by
  induction args with
  | nil => simp [pushStrings, stringsSize]
  | cons s rest ih =>
      have hsize : stringsSize (s :: rest) = 8 * (s.length + 1) + stringsSize rest := by
        simp [stringsSize]
      obtain ⟨hrsp, htemp, hws⟩ := ih (by omega)
      refine ⟨?_, ?_, ?_⟩
      · simp only [pushStrings, hrsp, hsize]
        omega
      · simp [pushStrings, htemp]
      · intro w hw
        simp only [pushStrings, List.mem_append] at hw
        rw [hsize]
        obtain hw | hw := hw
        · have := hws w hw
          omega
        · have := mem_stringWrites hw
          rw [hrsp] at this
          omega

/-- The arrays of `execvpe` for its arguments, `args[10][80]`. -/
def FitsArgs (args : List (List Byte)) : Prop := args.length ≤ 10 ∧ ∀ s ∈ args, s.length < 80

theorem FitsArgs.size {args : List (List Byte)} (h : FitsArgs args) :
    stringsSize args ≤ 640 * args.length := by
  obtain ⟨-, hs⟩ := h
  induction args with
  | nil => simp [stringsSize]
  | cons s rest ih =>
      have hsize : stringsSize (s :: rest) = 8 * (s.length + 1) + stringsSize rest := by
        simp [stringsSize]
      have hlen := hs s (by simp)
      have hrest := ih (fun t ht => hs t (by simp [ht]))
      simp only [List.length_cons]
      omega

/-- The arguments of `execvpe` stay within a page below the first. -/
theorem mem_execWrites {args : List (List Byte)} (h : FitsArgs args) {w : Write}
    (hw : w ∈ execWrites args) : stackStart - 4096 ≤ w.1 ∧ w.1 < stackStart + 4096 := by
  have hsize := h.size
  have hcount := h.1
  have hinit : initialRsp = stackStart + 4080 := rfl
  simp only [stackStart] at hinit ⊢
  obtain ⟨hrsp, htemp, hws⟩ := pushStrings_spec args initialRsp (by omega)
  simp only [execWrites, List.mem_append] at hw
  obtain hw | hw := hw
  · have := hws w hw
    omega
  · have hlen : ([0, 0] ++ (pushStrings initialRsp args).2.1.reverse ++ [args.length]).length =
        args.length + 3 := by
      simp [htemp]
    have := mem_pushWords hw (by rw [hlen, hrsp]; omega)
    rw [hlen, hrsp] at this
    omega

/-- The stack of `create_process` stays on its first page. -/
theorem mem_createWrites {name : List Byte} (h : name.length < 50) {w : Write}
    (hw : w ∈ createWrites name) : stackStart ≤ w.1 ∧ w.1 < stackStart + 4096 := by
  have hsize : stringsSize [name] = 8 * (name.length + 1) := by simp [stringsSize]
  have hinit : initialRsp = stackStart + 4080 := rfl
  simp only [stackStart] at hinit ⊢
  obtain ⟨hrsp, -, hws⟩ := pushStrings_spec [name] initialRsp (by omega)
  simp only [createWrites, List.mem_append] at hw
  obtain hw | hw := hw
  · have := hws w hw
    omega
  · have := mem_pushWords hw (by rw [hrsp]; simp only [List.length_cons, List.length_nil]; omega)
    rw [hrsp] at this
    simp only [List.length_cons, List.length_nil] at this
    omega

/-- Pages of the stack that are added one by one. -/
def growsStack (G : Ghost) (p : Nat) (N : Nat → Prop) : Prop :=
  ∀ n, N n → stackEnd / 4096 ≤ n ∧ n ≤ stackPage ∧ G.leaf (p, n) = none

theorem growsAt.stack (G : Ghost) (p a : Nat) : growsStack G p (growsAt G p a) := by
  rintro n ⟨rfl, hnone, hlo, hhi⟩
  simp only [stackEnd, stackStart, stackPage] at *
  exact ⟨by omega, by omega, hnone⟩

/-- Growing twice. -/
theorem Builds.grow {p : Nat} {N N' : Nat → Prop} {m₁ m₂ m₃ : Mem} {G₁ G₂ G₃ : Ghost}
    (h : Builds p True N m₁ G₁ m₂ G₂) (h' : Builds p True N' m₂ G₂ m₃ G₃)
    (hN : growsStack G₁ p N) (hN' : growsStack G₂ p N') :
    Builds p True (fun n => N n ∨ N' n) m₁ G₁ m₃ G₃ ∧
      growsStack G₁ p (fun n => N n ∨ N' n) := by
  refine ⟨(h.trans h').congr (fun _ => Iff.rfl) (fun hD => ⟨hD, hD, ?_⟩), ?_⟩
  · intro n hn hcon
    exact h.added n hcon (hN' n hn).2.2
  · rintro n (hn | hn)
    · exact hN n hn
    · obtain ⟨hlo, hhi, hnone⟩ := hN' n hn
      refine ⟨hlo, hhi, ?_⟩
      by_contra hcon
      exact h.kept n hcon hnone

/-- The kernel writes the arguments of a new image. -/
theorem stackWrites_spec {sp : Space} {m' : Mem} (ws : List Write)
    (hws : ∀ w ∈ ws, stackStart - 4096 ≤ w.1 ∧ w.1 < stackStart + 4096) :
    ∀ {m : Mem} {G : Ghost}, Inv m G → Homed G → Valid m G sp →
      G.leaf (sp.root, stackPage) ≠ none → ws.foldlM (stackWrite sp) m = some m' →
      ∃ G' N, Builds sp.root True N m G m' G' ∧ growsStack G sp.root N ∧ Valid m' G' sp ∧
        brk m' sp = brk m sp ∧ WroteAll (view m sp.root) ws (view m' sp.root) ∧
        ∀ f, G.role f = .vma sp.root → m'.word f = m.word f := by
  induction ws with
  | nil =>
      intro m G h hhome hv _ hrun
      obtain rfl : m = m' := by simpa using hrun
      exact ⟨G, fun _ => False, .refl h hhome, fun _ hn => hn.elim, hv, rfl, rfl, fun _ _ => rfl⟩
  | cons w rest ih =>
      intro m G h hhome hv hstack hrun
      rw [List.foldlM_cons] at hrun
      obtain ⟨m₁, hfirst, hrest⟩ := Option.bind_eq_some_iff.mp hrun
      have hw := hws w (by simp)
      simp only [stackStart] at hw
      have hpage : w.1 / 4096 < userPages := by
        simp only [userPages]
        omega
      -- the first page of the stack and the one below share a page table
      have htab : G.tab (sp.root, 0, w.1 / 4096 / 512) ≠ none := by
        have hsame : w.1 / 4096 / 512 = stackPage / 512 := by
          simp only [stackPage, stackStart]
          omega
        rw [hsame]
        exact h.trees.leaf _ _ hstack
      have hwrite : write m sp w.1 w.2 = some (.resume m₁) := by
        unfold stackWrite at hfirst
        split at hfirst
        · rename_i heq
          rw [heq, Option.some.inj hfirst]
        · simp at hfirst
      obtain ⟨G₁, hB₁, hv₁, hbrk₁, -⟩ := write_spec h hhome hv hpage (Or.inl htab) hwrite
      obtain ⟨G₂, N, hB₂, hN, hv₂, hbrk₂, hall, hnode₂⟩ := ih (fun x hx => hws x (by simp [hx]))
        hB₁.inv hB₁.homed hv₁ (hB₁.kept _ hstack) hrest
      obtain ⟨hB, hgrow⟩ := hB₁.grow hB₂ (growsAt.stack G _ _) hN
      have hwrote := write_wrote h hv hpage (Or.inl htab) hwrite
      have hnode : ∀ f, G.role f = .vma sp.root → m₁.word f = m.word f :=
        fun f hf => write_nodes h hv hpage (Or.inl htab) hwrite hf
      refine ⟨G₂, _, hB, hgrow, hv₂, by rw [hbrk₂, hbrk₁], ⟨_, hwrote, hall⟩, ?_⟩
      intro f hf
      rw [hnode₂ f ((hv.vma_iff h hv₁ hB₁.inv hnode f).mpr hf), hnode f hf]

/-- `create_process` stores on the page it has just mapped. -/
theorem stores_spec {sp : Space} {m' : Mem} (ws : List Write)
    (hws : ∀ w ∈ ws, stackStart ≤ w.1 ∧ w.1 < stackStart + 4096) :
    ∀ {m : Mem} {G : Ghost}, Inv m G → Homed G → Valid m G sp →
      ws.foldlM (fun m w => m.store sp.root w.1 w.2) m = some m' →
      Builds sp.root True (fun _ => False) m G m' G ∧ Valid m' G sp ∧ brk m' sp = brk m sp ∧
        ∀ f, G.role f = .vma sp.root → m'.word f = m.word f := by
  induction ws with
  | nil =>
      intro m G h hhome hv hrun
      obtain rfl : m = m' := by simpa using hrun
      exact ⟨.refl h hhome, hv, rfl, fun _ _ => rfl⟩
  | cons w rest ih =>
      intro m G h hhome hv hrun
      rw [List.foldlM_cons] at hrun
      obtain ⟨m₁, hfirst, hrest⟩ := Option.bind_eq_some_iff.mp hrun
      have hw := hws w (by simp)
      simp only [stackStart] at hw
      have hpage : w.1 / 4096 < userPages := by
        simp only [userPages]
        omega
      obtain ⟨hB₁, hv₁, hbrk₁, -⟩ := store_builds h hhome hv hpage hfirst
      obtain ⟨hB₂, hv₂, hbrk₂, hnode₂⟩ :=
        ih (fun x hx => hws x (by simp [hx])) hB₁.inv hB₁.homed hv₁ hrest
      refine ⟨(hB₁.trans hB₂).congr ?_ ?_, hv₂, by rw [hbrk₂, hbrk₁], fun f hf => ?_⟩
      · simp
      · simp
      · rw [hnode₂ f hf, (h.store_frame hv.root hpage hfirst).2.2 f _ hf]

/-- What a new image leaves in the space `p`, whatever was there before. The first page
of the stack brings the kernel's entry along. -/
structure Loaded (p : Nat) (img : Image) (m : Mem) (G : Ghost) (m' : Mem) (G' : Ghost) : Prop where
  inv : Inv m' G'
  homed : Homed G'
  frame : Frame (· = p) m G m' G'
  pages : ∀ n, G'.leaf (p, n) ≠ none →
    img.brings n ∨ stackEnd / 4096 ≤ n ∧ n ≤ stackPage
  held : img.Apart → G'.held = G.held
  kernel : KeepsKernel p False m G m' G'
  entry : m'.word p 511 = m.kernelEntry

/-- `create_process`. -/
theorem createProcess_spec {m m' : Mem} {G : Ghost} {img : Image} {name : List Byte}
    {sp : Space} (h : Inv m G) (hhome : Homed G) (hok : img.Ok) (hname : name.length < 50)
    (hrun : createProcess m img name = some (sp, m')) :
    ∃ G', G.role sp.root = .free ∧ Loaded sp.root img m G m' G' ∧ Valid m' G' sp ∧
      brk m' sp = heapStart ∧
      ∃ new, Listed m' G' sp.root sp.vm new ∧ bounds m' new = img.areas := by
  obtain ⟨⟨a, m₁⟩, halloc, hrun⟩ := Option.bind_eq_some_iff.mp hrun
  obtain ⟨c, G₂, hfree, rfl, h₂, hleaf₂, hheld₂, htab₂, hnoleaf, -, hrole₂, hword₂, hkp₁⟩ :=
    newRoot h halloc
  have hF₂ := newRoot_frame h hfree hleaf₂ htab₂ hrole₂ hword₂ hkp₁
  have hidx := frame_div c
  simp only [kptr_sub, hidx] at hrun
  obtain ⟨⟨vm, m₃⟩, hload, hrun⟩ := Option.bind_eq_some_iff.mp hrun
  obtain ⟨m₄, hstores, hrun⟩ := Option.bind_eq_some_iff.mp hrun
  obtain ⟨rfl, rfl⟩ : { pml4e := c * 4096, vm := vm } = sp ∧ m₄ = m' := by simpa using hrun
  have hroot : ({ pml4e := c * 4096, vm := vm } : Space).root = c := Space.root_mk c vm
  obtain ⟨hhome₂, hL₂⟩ := newRoot_listed (m₁.memset0 c) h hhome hfree htab₂ hrole₂
  obtain ⟨G₃, hB₃, hv₃, hbrk₃, -, new, hL₃, hareas, -⟩ := loadImage_spec h₂ hhome₂ hL₂ hok hload
  rw [List.append_nil] at hL₃
  rw [← hroot] at hstores
  obtain ⟨hB₄, hv₄, hbrk₄, hnode₄⟩ := stores_spec _ (fun w hw => mem_createWrites hname hw) hB₃.inv
    hB₃.homed hv₃ hstores
  rw [hroot] at hB₄ hnode₄ ⊢
  have hK₂ := newRoot_kernel h hfree htab₂ hword₂ hkp₁
  have hK := hB₃.kernel.trans hB₄.kernel
  have hnew : ∀ f ∈ new, m₄.word f = m₃.word f := fun f hf => hnode₄ f ((hL₃.nodes f).mp hf)
  refine ⟨G₃, hfree, ⟨hB₄.inv, hB₄.homed, hF₂.trans (hB₃.frame.trans hB₄.frame), ?_, ?_,
    (hK₂.trans (hK.mono False.elim)).mono .inl, ?_⟩, hv₄, by rw [hbrk₄, hbrk₃], new,
    hL₃.congr rfl (fun _ => Iff.rfl) fun f hf => by rw [hnode₄ f hf],
    by rw [bounds_congr hnew, hareas]⟩
  · intro n hn
    obtain hold | hnew := hB₃.pages n hn
    · rw [hleaf₂, hnoleaf] at hold
      exact absurd rfl hold
    · exact Or.inl hnew
  · intro hD
    rw [hB₃.held hD, hheld₂]
    intro n _
    rw [hleaf₂, hnoleaf]
  · rw [hK.own (.inl ⟨stackPage, .inr rfl⟩) hL₂.root, hK₂.entry]

structure Emptied (p : Nat) (vm : Word) (m : Mem) (G : Ghost) (m' : Mem) (G' : Ghost) : Prop where
  inv : Inv m' G'
  homed : Homed G'
  frame : Frame (· = p) m G m' G'
  areas : ∃ l, Listed m' G' p vm l
  held : G'.held = G.held
  leaf : ∀ n, G'.leaf (p, n) = none
  free : ∀ f, G.role f = .free → G'.role f = .free
  kernel : KeepsKernel p False m G m' G'

/-- What `dealloc_pml4` leaves of a space. -/
theorem Listed.emptied {m : Mem} {G : Ghost} {p : Nat} {vm : Word} {l : List Nat}
    (hL : Listed m G p vm l) (h : Inv m G) (hhome : Homed G) :
    ∃ G', Emptied p vm m G (m.deallocPml4 p) G' ∧ Listed (m.deallocPml4 p) G' p vm l ∧
      ∀ f ∈ l, (m.deallocPml4 p).word f = m.word f := by
  obtain ⟨G₁, h₁, hs₁, hroot₁, hheld₁, hleaf₁, -⟩ := h.deallocPml4 hL.root
  have hF₁ : Frame (· = p) m G (m.deallocPml4 p) G₁ := by
    apply hs₁.frame h h₁
    intro q n hq
    unfold Ghost.mapped
    rw [hleaf₁, if_neg hq]
  have hvma₁ : ∀ f q, G₁.role f = .vma q ↔ G.role f = .vma q := by
    intro f q
    obtain hsame | ⟨hfree, hold⟩ := hs₁.role f
    · rw [hsame]
    · obtain hdata | ⟨l, k, -, htab⟩ := hold
      · simp [hfree, hdata]
      · simp [hfree, htab]
  have hL₁ : Listed (m.deallocPml4 p) G₁ p vm l := by
    refine hL.congr (by rw [hroot₁, hL.root]) (fun f => hvma₁ f _) ?_
    intro f hf
    rw [hs₁.word f (by simp [hf])]
  refine ⟨G₁, ⟨h₁, ?_, hF₁, ⟨l, hL₁⟩, hheld₁, ?_, ?_,
    .of_keeps (hF₁.steady h hL.root hL₁.root) (h.dealloc_top hL.root)⟩, hL₁, ?_⟩
  · intro f q hf
    by_cases hq : q = p
    · rw [hq]
      exact hroot₁
    · rw [hF₁.root q hq]
      exact hhome f q ((hvma₁ f q).mp hf)
  · intro n
    rw [hleaf₁, if_pos rfl]
  · intro f hf
    obtain hsame | ⟨hfree, -⟩ := hs₁.role f
    · rw [hsame, hf]
    · exact hfree
  · intro f hf
    rw [hs₁.word f (by simp [(hL.nodes f).mp hf])]

theorem Valid.emptied {m : Mem} {G : Ghost} {sp : Space} (hv : Valid m G sp) (h : Inv m G)
    (hhome : Homed G) : ∃ G', Emptied sp.root sp.vm m G (m.deallocPml4 sp.root) G' := by
  obtain ⟨s, t, rest, hL⟩ := hv.areas
  obtain ⟨G', hE, -⟩ := hL.emptied h hhome
  exact ⟨G', hE⟩

/-- `execvpe`: the old pages go, the areas stay behind the new ones. -/
theorem execvpe_spec {m m' : Mem} {G : Ghost} {img : Image} {args : List (List Byte)}
    {sp sp' : Space} (h : Inv m G) (hhome : Homed G) (hv : Valid m G sp) (hok : img.Ok)
    (hargs : FitsArgs args) (hrun : execvpe m sp img args = some (sp', m')) :
    ∃ G', sp'.root = sp.root ∧ G'.tab (sp.root, 3, 0) = some sp.root ∧
      Loaded sp.root img m G m' G' ∧ Valid m' G' sp' ∧ brk m' sp' = heapStart ∧
      ∃ L, WroteAll L (execWrites args) (view m' sp.root) := by
  obtain ⟨⟨vm, m₂⟩, hload, hrun⟩ := Option.bind_eq_some_iff.mp hrun
  obtain ⟨m₃, hwrites, hrun⟩ := Option.bind_eq_some_iff.mp hrun
  obtain ⟨rfl, rfl⟩ : { sp with vm := vm } = sp' ∧ m₃ = m' := by simpa using hrun
  obtain ⟨G₁, hE⟩ := hv.emptied h hhome
  obtain ⟨l, hL₁⟩ := hE.areas
  obtain ⟨G₂, hB₂, hv₂, hbrk₂, -⟩ := loadImage_spec hE.inv hE.homed hL₁ hok hload
  have hsp : ({ pml4e := sp.root * 4096, vm := vm } : Space) = { sp with vm := vm } := by
    rw [← hv.aligned]
  rw [hsp] at hv₂ hbrk₂
  have hroot : ({ sp with vm := vm } : Space).root = sp.root := rfl
  obtain ⟨G₃, N, hB₃, hN, hv₃, hbrk₃, hall, -⟩ := stackWrites_spec _
    (fun w hw => mem_execWrites hargs hw) hB₂.inv hB₂.homed hv₂ (hB₂.added _ (Or.inr rfl)) hwrites
  rw [hroot] at hB₃ hN
  have hK := hB₂.kernel.trans hB₃.kernel
  refine ⟨G₃, hroot, by rw [hB₃.root, hB₂.root, hL₁.root],
    ⟨hB₃.inv, hB₃.homed, hE.frame.trans (hB₂.frame.trans hB₃.frame), ?_, ?_,
      (hE.kernel.trans (hK.mono False.elim)).mono .inl, ?_⟩, hv₃,
    by rw [hbrk₃, hbrk₂], _, hall⟩
  · intro n hn
    obtain hold | hnew := hB₃.pages n hn
    · obtain hold | hnew := hB₂.pages n hold
      · exact absurd (hE.leaf n) hold
      · exact Or.inl hnew
    · exact Or.inr ⟨(hN n hnew).1, (hN n hnew).2.1⟩
  · intro hD
    rw [hB₃.held trivial (fun n hn => (hN n hn).2.2), hB₂.held hD (fun n _ => hE.leaf n), hE.held]
  · rw [hK.own (.inl ⟨stackPage, .inr rfl⟩) hL₁.root, hE.kernel.entry]

end X86Kernel.Kern
