import X86Kernel.Kern.Area
import X86Kernel.Paging.Share

/-!
How many frames `copytask` takes off the free list: one for the new PML4, one for each
table below the parent's and one for each of its areas. With fewer on the list it does
not return; and apart from the frames it takes it writes page tables of the parent only.
-/

namespace X86Kernel.Kern

open Lib Paging

/-- The first `k` frames of the list `s` have been taken, and apart from them only
frames in `X` have been written. -/
structure Spends (X : Nat → Prop) (m : Mem) (s : List Nat) (k : Nat) (m' : Mem) : Prop where
  enough : k ≤ s.length
  stock : Stock m' (s.drop k)
  kpml4 : m'.kpml4 = m.kpml4
  frame : ∀ f, ¬ X f → f ∉ s.take k → m'.word f = m.word f

theorem Spends.trans {X Y : Nat → Prop} {m m₁ m' : Mem} {s : List Nat} {k k' : Nat}
    (h : Spends X m s k m₁) (h' : Spends Y m₁ (s.drop k) k' m')
    (hY : ∀ f, Y f → X f ∨ f ∈ s.take k) : Spends X m s (k + k') m' := by
  have henough := h.enough
  have henough' := h'.enough
  rw [List.length_drop] at henough'
  refine ⟨by omega, ?_, by rw [h'.kpml4, h.kpml4], ?_⟩
  · rw [← List.drop_drop]
    exact h'.stock
  · intro f hX hf
    rw [List.take_add, List.mem_append, not_or] at hf
    rw [h'.frame f (fun hcon => (hY f hcon).elim hX hf.1) hf.2, h.frame f hX hf.1]

theorem Spends.mono {X Y : Nat → Prop} {m m' : Mem} {s : List Nat} {k : Nat}
    (h : Spends X m s k m') (hXY : ∀ f, X f → Y f) : Spends Y m s k m' :=
  ⟨h.enough, h.stock, h.kpml4, fun f hY => h.frame f (mt (hXY f) hY)⟩

/-- One frame, filled with `ws`. -/
theorem Spends.one {m m₁ : Mem} {f : Nat} {s : List Nat} (hstock : Stock m₁ s)
    (hword : m₁.word = m.word) (hkp : m₁.kpml4 = m.kpml4) (ws : Nat → Word) :
    Spends (fun _ => False) m (f :: s) 1 (m₁.setFrame f ws) := by
  refine ⟨by simp, hstock.congr rfl rfl, hkp, fun g _ hg => ?_⟩
  have hgf : g ≠ f := by simpa using hg
  rw [Mem.setFrame_word_of_ne _ _ hgf, hword]

theorem Linear.spends {X : Nat → Prop} {role : Nat → Role} {m m' : Mem} {s : List Nat} {k : Nat}
    (hlinear : Linear m role) (h : Spends X m s k m')
    (hkernel : ∀ f, role f = .kernel → ¬ X f ∧ f ∉ s) : Linear m' role :=
  hlinear.congr (fun _ => Iff.rfl) (fun f hf => h.frame f (hkernel f hf).1
    (fun hcon => (hkernel f hf).2 (List.mem_of_mem_take hcon))) h.kpml4

/-- One iteration of the loop of `copytask`. -/
theorem copyAreas_step {n : Nat} {m m₁ m₂ : Mem} {b last f : Nat} (hb : b < capacity)
    (hlast : last < capacity) (halloc : m.allocatePageForProcess = some (kernBase + f * 4096, m₁))
    (hm₂ : (copyNode m₁ f (kptr b)).set last 5 (kptr f) = m₂) :
    copyAreas (n + 1) m (kptr b) (kptr last) =
      copyAreas n m₂ (vmNext m₂ (kptr b)) (kptr f) := by
  have hidx := frame_div f
  rw [copyAreas, if_neg (kptr_ne_zero hb), kmalloc_vmaSize, halloc, ← hm₂]
  simp only [Option.bind_eq_bind, Option.bind_some, kptr_sub, hidx, frameAt_kptr hlast]
  rfl

/-- The loop over the areas `la`, behind the node `last` of the child. -/
theorem copyAreas_or {role : Nat → Role} {n : Nat} {m : Mem} {a : Word} {last : Nat}
    {s la : List Nat} (hstock : Stock m s) (hlinear : Linear m role)
    (hkernel : ∀ f, role f = .kernel → f ≠ last ∧ f ∉ s)
    (hlt : ∀ f, f ∈ s ∨ f ∈ la ∨ f = last → f < capacity) (hla : AreaList m a la)
    (hnodes : ∀ f ∈ la, f ≠ last ∧ f ∉ s) (hlast : last ∉ s) (hn : la.length < n) :
    (∃ m', copyAreas n m a (kptr last) = some m' ∧ Spends (· = last) m s la.length m') ∨
    copyAreas n m a (kptr last) = none ∧ s.length < la.length := by
  induction la generalizing n m a last s with
  | nil =>
      obtain rfl : a = 0 := hla
      obtain ⟨n, rfl⟩ : ∃ k, n = k + 1 := ⟨n - 1, by simp at hn; omega⟩
      exact .inl ⟨m, by simp [copyAreas], Nat.zero_le _, hstock, rfl, fun _ _ _ => rfl⟩
  | cons b la ih =>
      obtain ⟨rfl, htail⟩ := hla
      obtain ⟨n, rfl⟩ : ∃ k, n = k + 1 := ⟨n - 1, by simp at hn; omega⟩
      have hblt : b < capacity := hlt b (by simp)
      cases s with
      | nil =>
          refine .inr ⟨?_, by simp⟩
          rw [copyAreas, if_neg (kptr_ne_zero hblt), kmalloc_vmaSize, hstock.emptyForProcess]
          rfl
      | cons f s =>
          obtain ⟨m₁, halloc, hword, hkp, -, hstock₁⟩ :=
            hstock.takeForProcess hlinear (fun hcon => (hkernel f hcon).2 (by simp))
          obtain ⟨hbl, hbs⟩ := hnodes b (by simp)
          have hbf : b ≠ f := fun hcon => hbs (by simp [hcon])
          obtain ⟨m₃, hm₃⟩ : ∃ m₃, (copyNode m₁ f (kptr b)).set last 5 (kptr f) = m₃ := ⟨_, rfl⟩
          rw [copyAreas_step hblt (hlt last (by simp)) halloc hm₃]
          -- memory with the copy of the node, and the link to it
          have hone : Spends (fun _ => False) m (f :: s) 1 (copyNode m₁ f (kptr b)) :=
            Spends.one hstock₁ hword hkp _
          have hset : Spends (· = last) m (f :: s) 1 m₃ := by
            rw [← hm₃]
            refine ⟨hone.enough, hone.stock.congr rfl rfl, hone.kpml4, fun g hgl hg => ?_⟩
            rw [Mem.set_word_of_ne _ _ hgl]
            exact hone.frame g (fun hcon => hcon) hg
          have hkeep : ∀ g, g ≠ last → g ≠ f → m₃.word g = m.word g :=
            fun g hgl hgf => hset.frame g hgl (by simpa using hgf)
          have hnext : vmNext m₃ (kptr b) = m.word b 5 := by
            rw [vmNext, frameAt_kptr hblt, hkeep b hbl hbf]
          have hla : ∀ g ∈ la, g ≠ last ∧ g ≠ f ∧ g ∉ s := by
            intro g hg
            obtain ⟨hgl, hgs⟩ := hnodes g (by simp [hg])
            rw [List.mem_cons, not_or] at hgs
            exact ⟨hgl, hgs⟩
          have hlinear₃ := Linear.spends hlinear hset hkernel
          rw [hnext]
          obtain ⟨m', hrun, hrest⟩ | ⟨hrun, hlen⟩ := ih hset.stock hlinear₃
            (fun g hg => by simpa using (hkernel g hg).2)
            (by
              rintro g (hg | hg | rfl)
              · exact hlt g (.inl (List.mem_cons_of_mem _ hg))
              · exact hlt g (.inr (.inl (by simp [hg])))
              · exact hlt g (by simp))
            (htail.congr fun g hg => by rw [hkeep g (hla g hg).1 (hla g hg).2.1])
            (fun g hg => (hla g hg).2) (List.nodup_cons.mp hstock.nodup).1 (by simpa using hn)
          · refine .inl ⟨m', hrun, ?_⟩
            rw [List.length_cons, Nat.add_comm]
            exact hset.trans hrest (fun g hg => .inr (by simp [hg]))
          · exact .inr ⟨hrun, by simpa using hlen⟩

/-- What `copytask` needs of the parent `r`, when the free frames are `s` and the nodes
of the area list are `la`. -/
structure Parent (m : Mem) (role : Nat → Role) (r : Space) (s la : List Nat) : Prop where
  sound : pageTables.Sound m.word 3 r.root
  stock : Stock m s
  areas : AreaList m r.vm la
  lt : ∀ f, f ∈ s ∨ f ∈ la → f < capacity
  tables : ∀ f, f ∈ s ∨ f ∈ la → ¬ pageTables.Table m.word 3 r.root f
  nodes : ∀ f ∈ la, f ∉ s
  leaf : ∀ e ∈ pageTables.leaves m.word 3 r.root, frameOf e ∉ s
  linear : Linear m role
  kernel : ∀ f, role f = .kernel → f ∉ s ∧ ¬ pageTables.Table m.word 3 r.root f

structure Copies (m : Mem) (p : Nat) (s : List Nat) (k : Nat) (m' : Mem) : Prop where
  spends : Spends (pageTables.Table m.word 3 p) m s k m'
  parent : pageTables.Agree shareEntry m.word m'.word 3 p
  past : ∀ i, pageTables.entries 3 ≤ i → m'.word p i = m.word p i

def childFrames (m : Mem) (r : Space) (la : List Nat) : Nat :=
  1 + (pageTables.below m.word 3 r.root).length + la.length

/-- The new PML4 and its tables. -/
theorem newTables_or {m m₁ : Mem} {role : Nat → Role} {r : Space} {c : Nat} {s la : List Nat}
    (h : Parent m role r (c :: s) la) (hstock : Stock m₁ s) (hword : m₁.word = m.word)
    (hkp : m₁.kpml4 = m.kpml4) :
    (∃ m', (m₁.memset0 c).copytables r.root c = some m' ∧
      Copies m r.root (c :: s) (1 + (pageTables.below m.word 3 r.root).length) m') ∨
    (m₁.memset0 c).copytables r.root c = none ∧
      s.length < (pageTables.below m.word 3 r.root).length := by
  have hone : Spends (fun _ => False) m (c :: s) 1 (m₁.memset0 c) := Spends.one hstock hword hkp _
  have hnodup := List.nodup_cons.mp h.stock.nodup
  have hfresh : ∀ f, f ∈ c :: s → ¬ pageTables.Table m.word 3 r.root f :=
    fun f hf => h.tables f (.inl hf)
  have hsame : ∀ f, pageTables.Table m.word 3 r.root f → (m₁.memset0 c).word f = m.word f := by
    intro f hf
    refine hone.frame f (fun hcon => hcon) ?_
    rintro hcon
    obtain rfl : f = c := by simpa using hcon
    exact hfresh f (by simp) hf
  have hagree : pageTables.Agree id m.word (m₁.memset0 c).word 3 r.root := .of_eq hsame
  have hshar : Sharable (m₁.memset0 c) role 3 r.root c s := by
    refine ⟨hagree.sound h.sound, hone.stock, fun f hf => h.lt f (by simp [hf]), ?_, ?_, hnodup.1,
      fun i _ => by simp, ?_, Linear.spends h.linear hone (fun f hf => ⟨fun hcon => hcon,
        (h.kernel f hf).1⟩), ?_⟩
    · intro f hf
      rw [hagree.table]
      exact hfresh f (by simp [hf])
    · rw [hagree.table]
      exact hfresh c (by simp)
    · rw [hagree.leaves]
      exact fun e he hcon => h.leaf e he (by simp [hcon])
    · intro f hf
      obtain ⟨hfs, hft⟩ := h.kernel f hf
      rw [List.mem_cons, not_or] at hfs
      exact ⟨hfs.2, hfs.1, by rwa [hagree.table]⟩
  obtain ⟨hiff, hall⟩ := copytables_spec hshar
  rw [hagree.below] at hiff hall
  by_cases hk : (pageTables.below m.word 3 r.root).length ≤ s.length
  · obtain ⟨m', hrun⟩ := hiff.mpr hk
    have hS := hall m' hrun
    have hpc : r.root ≠ c := fun hcon => hfresh c (by simp) (hcon ▸ .root)
    -- the entry 511 of the child is written first
    have hagree₁ : pageTables.Agree id m.word
        ((m₁.memset0 c).set c 511 ((m₁.memset0 c).word r.root 511)).word 3 r.root := by
      refine .of_eq fun g hg => ?_
      rw [Mem.set_word_of_ne _ _, hsame g hg]
      rintro rfl
      exact hfresh g (by simp) hg
    refine .inl ⟨m', hrun, ?_, hagree₁.trans hS.parent, ?_⟩
    · refine (hone.mono fun _ hcon => hcon.elim).trans
        (Y := fun f => f = c ∨ pageTables.Table m.word 3 r.root f) ?_ ?_
      · refine ⟨hk, hS.stock, hS.kpml4, fun f hf hfs => ?_⟩
        rw [not_or] at hf
        rw [hS.frame f hf.1 hfs (by rw [hagree₁.table]; exact hf.2), Mem.set_word_of_ne _ _ hf.1]
      · rintro f (rfl | hf)
        · exact .inr (by simp)
        · exact .inl hf
    · intro i hi
      rw [(hS.past i hi).2, Mem.set_word_of_ne _ _ hpc, hsame _ .root]
  · refine .inr ⟨?_, by omega⟩
    rw [Option.eq_none_iff_forall_ne_some]
    exact fun m' hrun => hk (hiff.mp ⟨m', hrun⟩)

/-- The nodes `la` of the child, from the first one on. -/
theorem copyNodes_or {role : Nat → Role} {m : Mem} {n e : Nat} {vm : Word} {s la : List Nat}
    (hstock : Stock m s) (hlinear : Linear m role) (hkernel : ∀ f, role f = .kernel → f ∉ s)
    (hlt : ∀ f, f ∈ s ∨ f ∈ la → f < capacity) (hla : AreaList m vm la) (hnodes : ∀ f ∈ la, f ∉ s)
    (hlen : la.length ≤ n) {run : Option (Space × Mem)}
    (hrun : (if vm = 0 then some ({ pml4e := e, vm := 0 }, m)
      else do
        let (w, m) ← kmalloc m vmaSize
        let m := copyNode m ((w - kernBase) / 4096) vm
        let m ← copyAreas n m (vmNext m vm) (BitVec.ofNat 64 w)
        some ({ pml4e := e, vm := BitVec.ofNat 64 w }, m)) = run) :
    (∃ c m', run = some (c, m') ∧ Spends (fun _ => False) m s la.length m') ∨
    run = none ∧ s.length < la.length := by
  cases la with
  | nil =>
      rw [if_pos (show vm = 0 from hla)] at hrun
      exact .inl ⟨_, m, hrun.symm, Nat.zero_le _, hstock, rfl, fun _ _ _ => rfl⟩
  | cons b la =>
      obtain ⟨hvm, htail⟩ := hla
      have hblt : b < capacity := hlt b (by simp)
      rw [if_neg (hvm ▸ kptr_ne_zero hblt), kmalloc_vmaSize] at hrun
      cases s with
      | nil =>
          rw [hstock.emptyForProcess] at hrun
          exact .inr ⟨hrun.symm, by simp⟩
      | cons f s =>
          obtain ⟨m₁, halloc, hword, hkp, -, hstock₁⟩ :=
            hstock.takeForProcess hlinear (fun hcon => hkernel f hcon (by simp))
          have hidx := frame_div f
          rw [halloc] at hrun
          simp only [Option.bind_eq_bind, Option.bind_some, kptr_sub, hidx] at hrun
          have hone : Spends (fun _ => False) m (f :: s) 1 (copyNode m₁ f vm) :=
            Spends.one hstock₁ hword hkp _
          generalize copyNode m₁ f vm = m₂ at hrun hone
          have hkeep : ∀ g, g ≠ f → m₂.word g = m.word g :=
            fun g hg => hone.frame g (fun hcon => hcon) (by simpa using hg)
          have hla : ∀ g, g ∈ b :: la → g ≠ f ∧ g ∉ s := by
            intro g hg
            have hgs := hnodes g hg
            rwa [List.mem_cons, not_or] at hgs
          have hnext : vmNext m₂ vm = m.word b 5 := by
            rw [vmNext, hvm, frameAt_kptr hblt, hkeep b (hla b (by simp)).1]
          have hloop := copyAreas_or (n := n) hone.stock
            (Linear.spends hlinear hone (fun g hg => ⟨fun hcon => hcon, hkernel g hg⟩))
            (fun g hg => by simpa using hkernel g hg)
            (by
              rintro g (hg | hg | rfl)
              · exact hlt g (.inl (List.mem_cons_of_mem _ hg))
              · exact hlt g (.inr (by simp [hg]))
              · exact hlt g (by simp))
            (htail.congr fun g hg => by rw [hkeep g (hla g (by simp [hg])).1])
            (fun g hg => hla g (by simp [hg])) (List.nodup_cons.mp hstock.nodup).1
            (by simpa using hlen)
          rw [hnext] at hrun
          change (copyAreas n m₂ (m.word b 5) (kptr f)).bind _ = run at hrun
          obtain ⟨m', hcopy, hspends⟩ | ⟨hcopy, hshort⟩ := hloop
          · rw [hcopy] at hrun
            refine .inl ⟨_, m', hrun.symm, ?_⟩
            rw [List.length_cons, Nat.add_comm]
            refine hone.trans hspends (fun g hg => .inr ?_)
            rw [hg]
            simp
          · rw [hcopy] at hrun
            exact .inr ⟨hrun.symm, by simpa using hshort⟩

/-- `copytask` returns if and only if there are frames enough. -/
theorem copytask_or {m : Mem} {role : Nat → Role} {r : Space} {s la : List Nat}
    (h : Parent m role r s la) :
    (∃ c m', copytask m r = some (c, m') ∧ Copies m r.root s (childFrames m r la) m') ∨
    copytask m r = none ∧ s.length < childFrames m r la := by
  unfold copytask
  cases s with
  | nil =>
      rw [h.stock.emptyForProcess]
      exact .inr ⟨rfl, by simp only [childFrames, List.length_nil]; omega⟩
  | cons c s =>
      obtain ⟨m₁, halloc, hword, hkp, -, hstock₁⟩ :=
        h.stock.takeForProcess h.linear (fun hcon => (h.kernel c hcon).1 (by simp))
      have hidx := frame_div c
      rw [halloc]
      simp only [Option.bind_eq_bind, Option.bind_some, kptr_sub, hidx]
      obtain ⟨m₂, hrun, hC⟩ | ⟨hrun, hlen⟩ := newTables_or h hstock₁ hword hkp
      · have hs₂ : ∀ f, f ∈ (c :: s).drop (1 + (pageTables.below m.word 3 r.root).length) →
            f ∈ c :: s := fun f hf => List.mem_of_mem_drop hf
        have hareas₂ : AreaList m₂ r.vm la := by
          refine h.areas.congr fun f hf => ?_
          rw [hC.spends.frame f (h.tables f (.inr hf))
            (fun hcon => h.nodes f hf (List.mem_of_mem_take hcon))]
        have hnodes := copyNodes_or (n := fuel) (e := c * 4096) hC.spends.stock
          (Linear.spends h.linear hC.spends (fun f hf => (h.kernel f hf).symm))
          (fun f hf hcon => (h.kernel f hf).1 (hs₂ f hcon))
          (fun f hf => h.lt f (hf.imp_left (hs₂ f))) hareas₂
          (fun f hf hcon => h.nodes f hf (hs₂ f hcon))
          ((hareas₂.length_le fun f hf => h.lt f (.inr hf)).trans (by decide)) rfl
        rw [hrun, Option.bind_some]
        obtain ⟨r', m', hrun', hspends⟩ | ⟨hrun', hlen⟩ := hnodes
        · refine .inl ⟨r', m', hrun', hC.spends.trans hspends (fun f hf => hf.elim), ?_, ?_⟩
          · refine hC.parent.frame fun g hg => hspends.frame g (fun hcon => hcon) ?_
            exact fun hcon => h.tables g (.inl (hs₂ g (List.mem_of_mem_take hcon))) hg
          · intro i hi
            rw [hspends.frame r.root (fun hcon => hcon) ?_, hC.past i hi]
            exact fun hcon => h.tables _ (.inl (hs₂ _ (List.mem_of_mem_take hcon))) .root
        · refine .inr ⟨hrun', ?_⟩
          have henough := hC.spends.enough
          simp only [childFrames, List.length_drop, List.length_cons] at hlen henough ⊢
          omega
      · rw [hrun]
        exact .inr ⟨rfl, by simp only [childFrames, List.length_cons]; omega⟩

/-- A space with its area list can be copied. -/
theorem Listed.parent {m : Mem} {G : Ghost} {r : Space} {la : List Nat}
    (hL : Listed m G r.root r.vm la) (h : Inv m G) :
    ∃ s, Parent m G.role r s la ∧ ∀ f, f ∈ s ↔ G.role f = .free := by
  obtain ⟨s, hchain, -, hs⟩ := h.pool.chain
  have hs' : ∀ f, f ∈ s → G.role f ≠ .kernel := fun f hf => by simp [(hs f).mp hf]
  have htab : ∀ f, pageTables.Table m.word 3 r.root f → ∃ l k, G.role f = .table r.root l k := by
    intro f hf
    obtain ⟨l, k, -, -, ht⟩ := h.table_tab hL.root hf
    exact ⟨l, k, (h.trees.role _ _ _ _).mp ht⟩
  refine ⟨s, ⟨h.sound_tree hL.root, ⟨hchain, fun f hf => (h.pool.managed f (hs' f hf)).2,
    fun f hf => (h.pool.flag f (hs' f hf)).mpr ((hs f).mp hf)⟩, hL.areas, ?_, ?_, ?_, ?_, h.linear,
    ?_⟩, hs⟩
  · rintro f (hf | hf)
    · exact (h.pool.managed f (hs' f hf)).1
    · exact hL.lt h hf
  · intro f hf hcon
    obtain ⟨l, k, hrole⟩ := htab f hcon
    obtain hf | hf := hf
    · simp [(hs f).mp hf] at hrole
    · simp [(hL.nodes f).mp hf] at hrole
  · intro f hf hcon
    have hrole := (hL.nodes f).mp hf
    simp [(hs f).mp hcon] at hrole
  · intro e he hcon
    obtain ⟨ix, hix, hlook⟩ := Radix.mem_leaves.mp he
    have hrole := h.look_data hL.root hix hlook
    simp [(hs _).mp hcon] at hrole
  · intro f hf
    refine ⟨fun hcon => hs' f hcon hf, fun hcon => ?_⟩
    obtain ⟨l, k, hrole⟩ := htab f hcon
    simp [hf] at hrole

end X86Kernel.Kern
