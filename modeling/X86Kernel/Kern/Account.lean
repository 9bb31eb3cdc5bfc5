import X86Kernel.Kern.Room

/-!
Page accounting. A frame is used by a process as a user page, as a table or as
a node of its area list, all of which can be read off memory; every frame is on
the free list, used with the right count, or the kernel's since boot.
-/

namespace X86Kernel.Kern

open Lib Paging Proc

/-- The table for the key `key`, `depth` levels below the PML4 `p`, found by
walking the present entries. Entry 511 of a PML4 leads to the kernel's. -/
def tableAt (m : Mem) (p : Nat) : Nat → Nat → Option Nat
  | 0, key => if key = 0 then some p else none
  | depth + 1, key =>
      (tableAt m p depth (key / 512)).bind fun t =>
        if present (m.word t (key % 512)) = true ∧ (depth = 0 → key < 511) then
          some (frameOf (m.word t (key % 512)))
        else none

def nodeAt (m : Mem) : Word → Nat → Option Nat
  | vm, 0 => toNode vm
  | vm, j + 1 => if vm = 0 then none else nodeAt m (vmNext m vm) j

inductive Place where
  | page (i n : Nat)
  | table (i depth key : Nat)
  | node (i j : Nat)

/-- The frame is used at this place by a process that is not yet reaped. -/
def System.Uses (k : System) (f : Nat) : Place → Prop
  | .page i n => k.InUse i ∧ n < userPages ∧
      (k.mem.walk (k.space i).root (n * 4096)).map frameOf = some f
  | .table i depth key => k.InUse i ∧ depth ≤ 3 ∧
      tableAt k.mem (k.space i).root depth key = some f
  | .node i j => k.InUse i ∧ nodeAt k.mem (k.space i).vm j = some f

def System.IsFree (k : System) (f : Nat) : Prop :=
  (∃ l, Chain (fun g => (k.mem.page g).next) k.mem.head l ∧ l.count f = 1) ∧
    (k.mem.page f).free = true ∧ ∀ u, ¬ k.Uses f u

def System.mappings (k : System) (f : Nat) : Set (Nat × Nat) :=
  {x | k.Uses f (.page x.1 x.2)}

/-- Mapped by as many page table entries as the reference count says, and nothing else. -/
def System.IsMapped (k : System) (f : Nat) : Prop :=
  (k.mem.page f).free = false ∧ 1 ≤ (k.mappings f).ncard ∧
    (k.mem.page f).refCount = (k.mappings f).ncard ∧
    ∀ u, k.Uses f u → ∃ i n, u = .page i n

/-- A PML4, a page table or an area node of one process, and nothing else. -/
def System.IsOwned (k : System) (f : Nat) : Prop :=
  (k.mem.page f).free = false ∧ (k.mem.page f).refCount = 1 ∧
    ∃ u, (∀ i n, u ≠ .page i n) ∧ k.Uses f u ∧ ∀ u', k.Uses f u' → u' = u

def System.IsKernel (m₀ : Mem) (k : System) (f : Nat) : Prop :=
  ¬ OnFreeList m₀ f ∧ ¬ OnFreeList k.mem f ∧ ∀ u, ¬ k.Uses f u

/-- What accounting needs beyond the invariant: the kernel holds no references
of its own, every space belongs to a slot, and there is room behind every
heap. -/
structure Tight (k : System) (G : Ghost) : Prop where
  held : ∀ f, G.held f = 0
  owned : ∀ q, G.tab (q, 3, 0) ≠ none → ∃ i, k.InUse i ∧ (k.space i).root = q
  room : Roomed k G

/-- The runs of the accounting theorem: no `kill`, `fork` with a free slot,
images on pages apart from each other, the stack and the heap, and any access to
user addresses. -/
def AccountStep (k : System) : Action → Prop
  | .sched (.sys .fork) => newPID k.sched.q ≠ none
  | .sched (.sys (.kill _)) => False
  | .sched _ => True
  | .exec img args => img.Ok ∧ img.Apart ∧ FitsArgs args
  | .malloc _ => True
  | .write a _ => a / 4096 < userPages
  | .read a => a / 4096 < userPages

def AccountStart (m₀ : Mem) (k : System) : Prop :=
  Boot m₀ ∧ (∀ i, m₀.word 0 i = 0) ∧ ∃ img name, img.Ok ∧ img.Apart ∧ name.length < 50 ∧
    System.start m₀ img name = some k

section Reading

variable {m : Mem} {G : Ghost} {p : Nat}

/-- Walking finds the tables of the ghost state. -/
theorem tableAt_eq (h : Inv m G) (hp : G.tab (p, 3, 0) = some p) {depth : Nat} (hd : depth ≤ 3)
    (key : Nat) : tableAt m p depth key = G.tab (p, 3 - depth, key) := by
  induction depth generalizing key with
  | zero =>
      simp only [tableAt, Nat.sub_zero]
      split_ifs with hk
      · rw [hk, hp]
      · by_contra hcon
        have hlt := h.trees.key p 3 key (fun hn => hcon hn.symm)
        simp only [keys] at hlt
        omega
  | succ depth ih =>
      obtain ⟨l, hl⟩ : ∃ l, 3 - depth = l + 1 := ⟨3 - (depth + 1), by omega⟩
      have hl' : 3 - (depth + 1) = l := by omega
      have hl3 : l < 3 := by omega
      rw [tableAt, ih (by omega), hl, hl']
      cases ht : G.tab (p, l + 1, key / 512) with
      | none =>
          by_contra hcon
          exact h.trees.up p l key (fun hn => hcon (by simpa using hn.symm)) hl3 ht
      | some t =>
          have hkey := h.trees.key p (l + 1) (key / 512) (by simp [ht])
          rw [Option.bind_some]
          by_cases hin : key < keys l
          · have hlink := h.trees.link p l (key / 512) t (key % 512) ht (by omega) (by
              rwa [show key / 512 * 512 + key % 512 = key by omega])
            rw [show key / 512 * 512 + key % 512 = key by omega] at hlink
            have hroom : depth = 0 → key < 511 := by
              intro hd0
              obtain rfl : l = 2 := by omega
              simpa [keys] using hin
            rw [hlink, present_tableWord]
            cases hc : G.tab (p, l, key) with
            | none => simp
            | some t' => rw [if_pos ⟨rfl, hroom⟩, tableWord_some_frame (h.tab_lt hc)]
          · have hnone : G.tab (p, l, key) = none := by
              by_contra hcon
              exact hin (h.trees.key p l key hcon)
            have hlast : depth = 0 ∧ ¬ key < 511 := by
              interval_cases l
              · simp only [keys] at hkey hin
                omega
              · simp only [keys] at hkey hin
                omega
              · simp only [keys] at hkey hin
                omega
            rw [hnone, if_neg]
            rintro ⟨-, hcon⟩
            exact hlast.2 (hcon hlast.1)

/-- The nodes of a list, by number. -/
theorem nodeAt_eq {vm : Word} {l : List Nat} (hl : AreaList m vm l)
    (hlt : ∀ f ∈ l, f < capacity) (j : Nat) : nodeAt m vm j = l[j]? := by
  induction l generalizing vm j with
  | nil =>
      obtain rfl : vm = 0 := hl
      cases j with
      | zero => simp [nodeAt, toNode]
      | succ j => simp [nodeAt]
  | cons f l ih =>
      obtain ⟨rfl, htail⟩ := hl
      have hf := hlt f (by simp)
      cases j with
      | zero => simp [nodeAt, toNode_kptr hf]
      | succ j =>
          have hnext : vmNext m (kptr f) = m.word f 5 := by
            unfold vmNext
            rw [frameAt_kptr hf]
          rw [nodeAt, if_neg (kptr_ne_zero hf), hnext, ih htail (fun g hg => hlt g (by simp [hg]))]
          simp

end Reading

section Uses

variable {m₀ : Mem} {k : System} {G : Ghost}

theorem uses_page (h : Good m₀ k G) (f i n : Nat) :
    k.Uses f (.page i n) ↔ k.InUse i ∧ G.mapped ((k.space i).root, n) = some f := by
  have hbound : G.mapped ((k.space i).root, n) = some f → n < userPages := by
    intro hf
    obtain ⟨e, he, -⟩ := Option.map_eq_some_iff.mp hf
    have hleaf : G.leaf ((k.space i).root, n) ≠ none := by simp [he]
    have hkey := h.inv.trees.key _ _ _ (h.inv.trees.leaf _ _ hleaf)
    simp only [keys, userPages] at *
    omega
  have hwalk : k.InUse i → n < userPages →
      (k.mem.walk (k.space i).root (n * 4096)).map frameOf = G.mapped ((k.space i).root, n) := by
    intro hi hn
    have hn' : n * 4096 / 4096 = n := frame_div n
    rw [h.inv.walk (h.valid i hi).root (by rwa [hn']), hn']
    unfold Ghost.mapped
    cases he : G.leaf ((k.space i).root, n) with
    | none => rfl
    | some e => simp [Pte.frameOf_word (h.inv.leaf_lt he)]
  constructor
  · rintro ⟨hi, hn, hf⟩
    rw [hwalk hi hn] at hf
    exact ⟨hi, hf⟩
  · rintro ⟨hi, hf⟩
    have hn := hbound hf
    exact ⟨hi, hn, by rw [hwalk hi hn, hf]⟩

theorem uses_table (h : Good m₀ k G) (f i depth key : Nat) :
    k.Uses f (.table i depth key) ↔ k.InUse i ∧ depth ≤ 3 ∧
      G.role f = .table (k.space i).root (3 - depth) key := by
  unfold System.Uses
  constructor
  · rintro ⟨hi, hd, hf⟩
    rw [tableAt_eq h.inv (h.valid i hi).root hd] at hf
    exact ⟨hi, hd, (h.inv.trees.role _ _ _ _).mp hf⟩
  · rintro ⟨hi, hd, hf⟩
    refine ⟨hi, hd, ?_⟩
    rw [tableAt_eq h.inv (h.valid i hi).root hd]
    exact (h.inv.trees.role _ _ _ _).mpr hf

/-- A node is at one place of its list. -/
theorem uses_node (h : Good m₀ k G) {i : Nat} (hi : k.InUse i) :
    ∃ l : List Nat, l.Nodup ∧ (∀ f, f ∈ l ↔ G.role f = .vma (k.space i).root) ∧
      ∀ f j, k.Uses f (.node i j) ↔ l[j]? = some f := by
  obtain ⟨s, t, rest, hL⟩ := (h.valid i hi).areas
  refine ⟨s :: t :: rest, hL.nodup h.inv, hL.nodes, ?_⟩
  intro f j
  rw [← nodeAt_eq hL.areas (fun g hg => hL.lt h.inv hg)]
  exact ⟨fun hf => hf.2, fun hf => ⟨hi, hf⟩⟩

/-- What a use says about the role of a frame. -/
theorem Uses.role (h : Good m₀ k G) {f : Nat} {u : Place} (hu : k.Uses f u) :
    (∃ i n, u = .page i n ∧ G.role f = .data) ∨
      (∃ i d key, u = .table i d key ∧ d ≤ 3 ∧ k.InUse i ∧
        G.role f = .table (k.space i).root (3 - d) key) ∨
      ∃ i j, u = .node i j ∧ k.InUse i ∧ G.role f = .vma (k.space i).root := by
  cases u with
  | page i n =>
      obtain ⟨-, hf⟩ := (uses_page h f i n).mp hu
      obtain ⟨e, he, rfl⟩ := Option.map_eq_some_iff.mp hf
      exact Or.inl ⟨i, n, rfl, h.inv.refs.target _ e he⟩
  | table i d key =>
      obtain ⟨hi, hd, hf⟩ := (uses_table h f i d key).mp hu
      exact Or.inr (Or.inl ⟨i, d, key, rfl, hd, hi, hf⟩)
  | node i j =>
      have hi : k.InUse i := hu.1
      obtain ⟨l, -, hl, hnode⟩ := uses_node h hi
      have hf := (hl f).mp (List.mem_of_getElem? ((hnode f j).mp hu))
      exact Or.inr (Or.inr ⟨i, j, rfl, hi, hf⟩)

theorem flag_eq_false (h : Good m₀ k G) {f : Nat} (hk : G.role f ≠ .kernel)
    (hf : G.role f ≠ .free) : (k.mem.page f).free = false := by
  have hflag := h.inv.pool.flag f hk
  by_contra hcon
  exact hf (hflag.mp (by simpa using hcon))

theorem isFree_of_role (h : Good m₀ k G) {f : Nat} (hf : G.role f = .free) : k.IsFree f := by
  obtain ⟨l, hchain, hnodup, hl⟩ := h.inv.pool.chain
  refine ⟨⟨l, hchain, List.count_eq_one_of_mem hnodup ((hl f).mpr hf)⟩, ?_, ?_⟩
  · exact (h.inv.pool.flag f (by simp [hf])).mpr hf
  · intro u hu
    obtain ⟨i, n, -, hcon⟩ | ⟨i, d, key, -, -, -, hcon⟩ | ⟨i, j, -, -, hcon⟩ := Uses.role h hu <;>
      simp [hf] at hcon

/-- The count of a user page is the number of its mappings. -/
theorem isMapped_of_role (h : Good m₀ k G) (ht : Tight k G) {f : Nat} (hf : G.role f = .data) :
    k.IsMapped f := by
  have hcount := h.inv.refs.count f hf
  have hpos := h.inv.refs.pos f hf
  rw [ht.held f, Nat.add_zero] at hcount
  -- the mappings of a slot are those of its space
  have himage : refs G.mapped f = (fun x => ((k.space x.1).root, x.2)) '' k.mappings f := by
    ext ⟨p, n⟩
    constructor
    · intro hx
      have hx' : G.mapped (p, n) = some f := hx
      obtain ⟨e, he, -⟩ := Option.map_eq_some_iff.mp hx'
      have hroot := h.inv.trees.to_root (h.inv.trees.leaf _ _ (by simp [he] : G.leaf (p, n) ≠ none))
      obtain ⟨i, hi, rfl⟩ := ht.owned p (by simp [hroot])
      exact ⟨(i, n), (uses_page h f i n).mpr ⟨hi, hx'⟩, rfl⟩
    · rintro ⟨⟨i, n'⟩, hu, heq⟩
      obtain ⟨rfl, rfl⟩ : (k.space i).root = p ∧ n' = n := by simpa using heq
      exact ((uses_page h f i n').mp hu).2
  have hinj : Set.InjOn (fun x : Nat × Nat => ((k.space x.1).root, x.2)) (k.mappings f) := by
    rintro ⟨i, n⟩ hi ⟨j, n'⟩ hj heq
    obtain ⟨hroot, rfl⟩ : (k.space i).root = (k.space j).root ∧ n = n' := by simpa using heq
    rw [h.distinct i j ((uses_page h f i n).mp hi).1 ((uses_page h f j n).mp hj).1 hroot]
  have hncard : refCount G.mapped f = (k.mappings f).ncard := by
    unfold refCount
    rw [himage, hinj.ncard_image]
  refine ⟨flag_eq_false h (by simp [hf]) (by simp [hf]), ?_, ?_, fun u hu => ?_⟩
  · rw [← hncard, ← hcount]
    exact hpos
  · rw [← hncard]
    exact hcount
  · obtain ⟨i, n, rfl, -⟩ | ⟨i, d, key, -, -, -, hcon⟩ | ⟨i, j, -, -, hcon⟩ := Uses.role h hu
    · exact ⟨i, n, rfl⟩
    · simp [hf] at hcon
    · simp [hf] at hcon

theorem isOwned_of_table (h : Good m₀ k G) (ht : Tight k G) {f p l key : Nat}
    (hf : G.role f = .table p l key) : k.IsOwned f := by
  have htab := (h.inv.trees.role _ _ _ _).mpr hf
  have hroot := h.inv.trees.to_root (by rw [htab]; simp : G.tab (p, l, key) ≠ none)
  obtain ⟨i, hi, rfl⟩ := ht.owned p (by simp [hroot])
  have hl : l ≤ 3 := by
    have hkey := h.inv.trees.key _ _ _ (by rw [htab]; simp : G.tab (_, l, key) ≠ none)
    by_contra hcon
    obtain ⟨l', rfl⟩ : ∃ l', l = l' + 4 := ⟨l - 4, by omega⟩
    simp [keys] at hkey
  refine ⟨flag_eq_false h (by simp [hf]) (by simp [hf]), h.inv.refs.table f _ _ _ hf,
    .table i (3 - l) key, by simp, ?_, ?_⟩
  · rw [uses_table h]
    exact ⟨hi, by omega, by rw [hf, show 3 - (3 - l) = l by omega]⟩
  · intro u hu
    obtain ⟨i', n, -, hcon⟩ | ⟨i', d, key', rfl, hd, hi', hrole⟩ | ⟨i', j, -, -, hcon⟩ :=
      Uses.role h hu
    · simp [hf] at hcon
    · rw [hf] at hrole
      obtain ⟨hroot', hdepth, rfl⟩ :
          (k.space i).root = (k.space i').root ∧ l = 3 - d ∧ key = key' := by simpa using hrole
      rw [h.distinct i' i hi' hi hroot'.symm, show d = 3 - l by omega]
    · simp [hf] at hcon

theorem isOwned_of_vma (h : Good m₀ k G) (ht : Tight k G) {f p : Nat}
    (hf : G.role f = .vma p) : k.IsOwned f := by
  obtain ⟨i, hi, rfl⟩ := ht.owned p (by simp [h.homed f p hf])
  obtain ⟨l, hnodup, hl, hnode⟩ := uses_node h hi
  obtain ⟨j, hj⟩ := List.getElem?_of_mem ((hl f).mpr hf)
  refine ⟨flag_eq_false h (by simp [hf]) (by simp [hf]), h.inv.refs.vma f _ hf, .node i j,
    by simp, (hnode f j).mpr hj, ?_⟩
  intro u hu
  obtain ⟨i', n, -, hcon⟩ | ⟨i', d, key', -, -, -, hcon⟩ | ⟨i', j', rfl, hi', hrole⟩ :=
    Uses.role h hu
  · simp [hf] at hcon
  · simp [hf] at hcon
  · rw [hf] at hrole
    obtain rfl := h.distinct i' i hi' hi (by simpa using hrole.symm)
    have hj' := (hnode f j').mp hu
    -- a list without duplicates has a node at one index only
    obtain ⟨hlt, hval⟩ := List.getElem?_eq_some_iff.mp hj
    obtain ⟨hlt', hval'⟩ := List.getElem?_eq_some_iff.mp hj'
    rw [hnodup.getElem_inj_iff.mp (hval'.trans hval.symm)]

theorem isKernel_of_role (h : Good m₀ k G) {f : Nat} (hf : G.role f = .kernel) :
    k.IsKernel m₀ f := by
  refine ⟨(h.kernel f).mp hf, by rw [onFreeList_iff h.inv, hf]; decide, ?_⟩
  intro u hu
  obtain ⟨i, n, -, hcon⟩ | ⟨i, d, key, -, -, -, hcon⟩ | ⟨i, j, -, -, hcon⟩ := Uses.role h hu <;>
    simp [hf] at hcon

end Uses

/-- The four situations exclude each other. -/
theorem situations_exclusive (m₀ : Mem) (k : System) (f : Nat) :
    ¬ (k.IsFree f ∧ k.IsMapped f) ∧ ¬ (k.IsFree f ∧ k.IsOwned f) ∧
      ¬ (k.IsFree f ∧ k.IsKernel m₀ f) ∧ ¬ (k.IsMapped f ∧ k.IsOwned f) ∧
      ¬ (k.IsMapped f ∧ k.IsKernel m₀ f) ∧ ¬ (k.IsOwned f ∧ k.IsKernel m₀ f) := by
  have hused : k.IsMapped f → ∃ i n, k.Uses f (.page i n) := by
    rintro ⟨-, hpos, -⟩
    obtain ⟨⟨i, n⟩, hx⟩ := Set.nonempty_of_ncard_ne_zero (by omega : (k.mappings f).ncard ≠ 0)
    exact ⟨i, n, hx⟩
  refine ⟨?_, ?_, ?_, ?_, ?_, ?_⟩
  · rintro ⟨hfree, hmap⟩
    obtain ⟨i, n, hu⟩ := hused hmap
    exact hfree.2.2 _ hu
  · rintro ⟨hfree, -, -, u, -, hu, -⟩
    exact hfree.2.2 u hu
  · rintro ⟨⟨⟨l, hchain, hcount⟩, -⟩, -, hnot, -⟩
    exact hnot ((hchain.along_iff f).mpr (List.count_pos_iff.mp (by omega)))
  · rintro ⟨hmap, -, -, u, hpage, -, honly⟩
    obtain ⟨i, n, hu⟩ := hused hmap
    exact hpage i n (honly _ hu).symm
  · rintro ⟨hmap, -, -, hnone⟩
    obtain ⟨i, n, hu⟩ := hused hmap
    exact hnone _ hu
  · rintro ⟨⟨-, -, u, -, hu, -⟩, -, -, hnone⟩
    exact hnone u hu

section Tight

variable {m₀ : Mem} {k k' : System} {G G' : Ghost}

/-- Something happens in the space `p` only, which has a slot of its own or is
gone. -/
theorem Tight.act {p : Nat} (ht : Tight k G) (hroom : Roomed k' G')
    (hF : Frame (· = p) k.mem G k'.mem G') (hheld : G'.held = G.held)
    (hmine : G'.tab (p, 3, 0) ≠ none → ∃ i, k'.InUse i ∧ (k'.space i).root = p)
    (hkept : ∀ i, k.InUse i → (k.space i).root ≠ p → k'.InUse i ∧ k'.space i = k.space i) :
    Tight k' G' := by
  refine ⟨fun f => by rw [hheld, ht.held], ?_, hroom⟩
  intro q hq
  by_cases hqp : q = p
  · subst hqp
    exact hmine hq
  · rw [hF.root q hqp] at hq
    obtain ⟨i, hi, rfl⟩ := ht.owned q hq
    obtain ⟨hi', hspace⟩ := hkept i hi hqp
    exact ⟨i, hi', by rw [hspace]⟩

/-- The current process does something to its own memory. -/
theorem Tight.own (h : Good m₀ k G) (ht : Tight k G) (huser : k.inUser = true) {sp : Space}
    {m : Mem} (hroot : sp.root = k.cur.root) (hF : Frame (· = k.cur.root) k.mem G m G')
    (hheld : G'.held = G.held)
    (hroom : Roomed { k with space := Function.update k.space k.sched.r sp, mem := m } G') :
    Tight { k with space := Function.update k.space k.sched.r sp, mem := m } G' := by
  refine ht.act hroom hF hheld ?_ ?_
  · intro _
    refine ⟨k.sched.r, h.cur_inUse huser, ?_⟩
    simpa using hroot
  · intro i hi hne
    have hir : i ≠ k.sched.r := by
      rintro rfl
      exact hne rfl
    exact ⟨hi, Function.update_of_ne hir _ _⟩

/-- It adds pages that were not there. -/
theorem Tight.own_mem (h : Good m₀ k G) (ht : Tight k G) (huser : k.inUser = true)
    {m : Mem} {N : Nat → Prop} (hB : Builds k.cur.root True N k.mem G m G')
    (hnone : ∀ n, N n → G.leaf (k.cur.root, n) = none) (hroom : Roomed { k with mem := m } G') :
    Tight { k with mem := m } G' := by
  have hsame : Function.update k.space k.sched.r k.cur = k.space := by
    unfold System.cur
    simp
  have htight := ht.own h huser (rfl : k.cur.root = k.cur.root) hB.frame (hB.held trivial hnone)
    (by rwa [hsame])
  rwa [hsame] at htight

theorem Tight.quiet (ht : Tight k G) (hroom : Roomed k' G) (hspace : k'.space = k.space)
    (huse : ∀ j, k.InUse j → k'.InUse j) : Tight k' G := by
  refine ⟨ht.held, ?_, hroom⟩
  intro q hq
  obtain ⟨i, hi, hroot⟩ := ht.owned q hq
  exact ⟨i, huse i hi, by rw [hspace, hroot]⟩

theorem Tight.step (h : Good m₀ k G) (ht : Tight k G) {act : Action} (hok : AccountStep k act)
    (hE : Effect k G act k' G') : Tight k' G' := by
  have hroom : Roomed k' G' := by
    refine ht.room.step h ?_ hE
    rintro img args rfl
    exact hok.2.1.2
  cases hE with
  | fork huser hfree hv hbrk hF hheld hleaf huse hnew =>
      rename_i s c m
      obtain ⟨pid, hpid⟩ := Option.ne_none_iff_exists'.mp hok
      refine ht.act (p := c.root) hroom (by rw [forked_mem]; exact hF) hheld ?_ ?_
      · intro _
        refine ⟨pid, (huse pid).mpr (Or.inr hpid), ?_⟩
        rw [forked_space, if_pos hpid]
      · intro i hi _
        refine ⟨(huse i).mpr (Or.inl hi), ?_⟩
        rw [forked_space, if_neg (fun hcon => hnew i hcon hi)]
  | reap hfork hreap hi hF hheld htab hleaf huse =>
      rename_i e s i m
      refine ht.act (p := (k.space i).root) hroom hF hheld (fun hcon => absurd htab hcon) ?_
      intro j hj hroot
      exact ⟨(huse j).mpr ⟨hj, fun hji => hroot (by rw [hji])⟩, rfl⟩
  | quiet hfork hreap huse => exact ht.quiet hroom rfl (fun j => (huse j).mpr)
  | exec huser hroot htab hL hbrk =>
      obtain ⟨-, hapart, -⟩ := hok
      exact ht.own h huser hroot hL.frame (hL.held hapart) hroom
  | malloc huser hB hv hbrk hload =>
      refine ht.own_mem h huser hB ?_ hroom
      rintro n ⟨hlo, hhi⟩
      have hbound := (hv.brk_le hB.inv).2
      refine ht.room _ (h.cur_inUse huser) n hlo ?_
      simp only [heapPage, heapStart] at *
      omega
  | write huser hB hbrk hload => exact ht.own_mem h huser hB (fun n hn => hn.2.1) hroom
  | read huser hB hbrk => exact ht.own_mem h huser hB (fun n hn => hn.2.1) hroom
  | segv huser hact huse => exact ht.quiet hroom rfl (fun j => (huse j).mpr)
  | stuck huser hact => exact ht.quiet hroom rfl (fun _ hj => hj)

end Tight

theorem AccountStep.safe {m₀ : Mem} {k : System} {G : Ghost} {act : Action} (h : Good m₀ k G)
    (hboot : ¬ OnFreeList m₀ 0) (hzero : ∀ i, m₀.word 0 i = 0) (hok : AccountStep k act) :
    Safe k act := by
  have hpage : ∀ i, k.mem.word 0 i = 0 := by
    intro i
    rw [h.kword 0 ((h.kernel 0).mpr hboot), hzero]
  cases act with
  | sched e =>
      cases e with
      | sys call =>
          cases call with
          | kill pid => exact hok.elim
          | _ => exact ⟨trivial, trivial⟩
      | _ => exact ⟨trivial, trivial⟩
  | exec img args => exact ⟨hok.1, hok.2.2⟩
  | malloc bytes => trivial
  | write a b => exact ⟨hok, Or.inr hpage⟩
  | read a => exact ⟨hok, Or.inr hpage⟩

/-- Page accounting is exact: in every state that such steps lead to, every frame is in
exactly one of the four situations. -/
theorem page_accounting_exact (m₀ : Mem) (k : System)
    (h : Reachable System.step AccountStep (AccountStart m₀) k) (f : Nat) :
    (k.IsFree f ∨ k.IsMapped f ∨ k.IsOwned f ∨ k.IsKernel m₀ f) ∧
      ¬ (k.IsFree f ∧ k.IsMapped f) ∧ ¬ (k.IsFree f ∧ k.IsOwned f) ∧
      ¬ (k.IsFree f ∧ k.IsKernel m₀ f) ∧ ¬ (k.IsMapped f ∧ k.IsOwned f) ∧
      ¬ (k.IsMapped f ∧ k.IsKernel m₀ f) ∧ ¬ (k.IsOwned f ∧ k.IsKernel m₀ f) := by
  refine ⟨?_, situations_exclusive m₀ k f⟩
  obtain ⟨hfree0, hzero⟩ : ¬ OnFreeList m₀ 0 ∧ ∀ i, m₀.word 0 i = 0 := by
    obtain ⟨k₀, -, ⟨hboot, hzero, -⟩, -⟩ := h
    exact ⟨hboot.zero, hzero⟩
  obtain ⟨G, hgood, htight⟩ : ∃ G, Good m₀ k G ∧ Tight k G := by
    refine Good.reachable h ?_ (fun k act G hgood => AccountStep.safe hgood hfree0 hzero)
      fun k act k' G G' hgood hok _ hE htight => htight.step hgood hok hE
    rintro k ⟨hboot, -, img, name, hok, hapart, hname, hrun⟩
    obtain ⟨G, hgood, hsched, hL, hbrk⟩ := hboot.start hok hname hrun
    have huse := boot_inUse hsched
    refine ⟨G, hgood, fun f => by rw [hL.held hapart]; rfl, ?_, .start hsched hL hapart.2 hbrk⟩
    intro q hq
    by_cases hq2 : q = (k.space 2).root
    · exact ⟨2, (huse 2).mpr rfl, hq2.symm⟩
    · rw [hL.frame.root q hq2] at hq
      exact absurd rfl hq
  cases hrole : G.role f with
  | free => exact Or.inl (isFree_of_role hgood hrole)
  | data => exact Or.inr (Or.inl (isMapped_of_role hgood htight hrole))
  | table p l key => exact Or.inr (Or.inr (Or.inl (isOwned_of_table hgood htight hrole)))
  | vma p => exact Or.inr (Or.inr (Or.inl (isOwned_of_vma hgood htight hrole)))
  | kernel => exact Or.inr (Or.inr (Or.inr (isKernel_of_role hgood hrole)))

/-- The shell forks and writes to its stack; frame 8 is its PML4. -/
theorem page_accounting_exact_fork :
    ∃ k, Reachable System.step AccountStep (AccountStart smallMem) k ∧
      (k.sched.q 3).state = .running ∧
      (k.IsFree 8 ∨ k.IsMapped 8 ∨ k.IsOwned 8 ∨ k.IsKernel smallMem 8) := by
  have hrun : ((System.start smallMem emptyImage []).bind fun k =>
      if (newPID k.sched.q).isSome then
        (k.step (.sched (.sys .fork))).bind fun k => k.step (.write stackStart 7)
      else none).any (fun k => (k.sched.q 3).state = .running) = true := by
    decide +kernel
  obtain ⟨k, hk, hstate⟩ := (Option.any_eq_true _ _).mp hrun
  obtain ⟨k₀, hk₀, hk⟩ := Option.bind_eq_some_iff.mp hk
  split_ifs at hk with hslot
  obtain ⟨k₁, hk₁, hk⟩ := Option.bind_eq_some_iff.mp hk
  have hstart : Reachable System.step AccountStep (AccountStart smallMem) k₀ :=
    .start ⟨smallMem_boot, fun _ => rfl, emptyImage, [], emptyImage_ok, emptyImage_apart,
      by decide, hk₀⟩
  have hfork := hstart.next (e := Action.sched (.sys .fork))
    (Option.isSome_iff_ne_none.mp hslot) hk₁
  have hwrite := hfork.next (e := Action.write stackStart 7)
    (show stackStart / 4096 < userPages by decide) hk
  exact ⟨k, hwrite, by simpa using hstate, (page_accounting_exact smallMem k hwrite 8).1⟩

end X86Kernel.Kern
