import X86Kernel.Paging.Inv

/-!
The elementary effects of the paging code on the invariant: taking a frame
from the list and giving one back, counting a reference, hanging a table into
a tree and taking one out, and rewriting one page table entry. Every function
of `paging.c` is a sequence of these.
-/

namespace X86Kernel.Paging

open Lib

def Ghost.setRole (G : Ghost) (f : Nat) (r : Role) : Ghost :=
  { G with role := Function.update G.role f r }

def Ghost.setHeld (G : Ghost) (f n : Nat) : Ghost :=
  { G with held := Function.update G.held f n }

def Ghost.setTab (G : Ghost) (p l k : Nat) (o : Option Nat) : Ghost :=
  { G with tab := Function.update G.tab (p, l, k) o }

theorem Pool.congr_role {m : Mem} {role role' : Nat → Role} (h : Pool m role)
    (hfree : ∀ f, role' f = .free ↔ role f = .free)
    (hkern : ∀ f, role' f = .kernel ↔ role f = .kernel) : Pool m role' := by
  obtain ⟨l, hl, hnodup, hmem⟩ := h.chain
  refine ⟨⟨l, hl, hnodup, fun f => (hmem f).trans (hfree f).symm⟩, ?_, ?_⟩
  · intro f hf
    exact h.managed f (fun hk => hf ((hkern f).mpr hk))
  · intro f hf
    rw [hfree f]
    exact h.flag f (fun hk => hf ((hkern f).mpr hk))

/-- The pool does not depend on the counts. -/
theorem Pool.congr_mem {m m' : Mem} {role : Nat → Role} (h : Pool m role)
    (hhead : m'.head = m.head)
    (hpage : ∀ f, (m'.page f).next = (m.page f).next ∧
      (m'.page f).address = (m.page f).address ∧ (m'.page f).free = (m.page f).free) :
    Pool m' role := by
  obtain ⟨l, hl, hnodup, hmem⟩ := h.chain
  refine ⟨⟨l, ?_, hnodup, hmem⟩, ?_, ?_⟩
  · rw [hhead]
    exact hl.congr (fun f _ => (hpage f).1)
  · intro f hf
    rw [(hpage f).2.1]
    exact h.managed f hf
  · intro f hf
    rw [(hpage f).2.2]
    exact h.flag f hf

theorem Pool.alloc {m m' : Mem} {role : Nat → Role} {a : Nat} (h : Pool m role)
    (halloc : m.allocatePage = some (a, m')) :
    ∃ f, role f = .free ∧ a = f * 4096 ∧ m'.word = m.word ∧ m'.kpml4 = m.kpml4 ∧
      (fun g => (m'.page g).refCount) = Function.update (fun g => (m.page g).refCount) f 1 ∧
      Pool m' (Function.update role f .data) := by
  obtain ⟨f, hhead, ha, hword, hkp, hhead', hpage⟩ := Mem.allocatePage_eq halloc
  obtain ⟨l, hl, hnodup, hmem⟩ := h.chain
  rw [hhead] at hl
  obtain ⟨rest, rfl, hrest⟩ := hl.eq_cons
  have hfree : role f = .free := (hmem f).mp (by simp)
  have hnk : role f ≠ .kernel := by simp [hfree]
  obtain ⟨hfrest, hnodup'⟩ := List.nodup_cons.mp hnodup
  refine ⟨f, hfree, ?_, hword, hkp, ?_, ⟨rest, ?_, hnodup', ?_⟩, ?_, ?_⟩
  · rw [ha, (h.managed f hnk).2]
  · funext g
    rw [hpage]
    by_cases hg : g = f <;> simp [hg]
  · rw [hhead']
    apply hrest.congr
    intro g _
    rw [hpage]
    by_cases hg : g = f <;> simp [hg]
  · intro g
    by_cases hg : g = f
    · subst hg
      simp [hfrest]
    · rw [Function.update_of_ne hg, ← hmem g]
      simp [hg]
  · intro g hgk
    rw [hpage]
    by_cases hg : g = f
    · subst hg
      simpa using h.managed g hnk
    · rw [Function.update_of_ne hg] at hgk ⊢
      exact h.managed g hgk
  · intro g hgk
    rw [hpage]
    by_cases hg : g = f
    · subst hg
      simp
    · rw [Function.update_of_ne hg] at hgk ⊢
      rw [Function.update_of_ne hg]
      exact h.flag g hgk

/-- A frame that nobody uses any more goes to the front of the list. -/
theorem Pool.push {m : Mem} {role : Nat → Role} {f : Nat} (h : Pool m role)
    (hf : role f ≠ .free) (hk : role f ≠ .kernel) :
    Pool { m.setPage f { m.page f with free := true, next := m.head } with head := some f }
      (Function.update role f .free) := by
  obtain ⟨l, hl, hnodup, hmem⟩ := h.chain
  have hfl : f ∉ l := fun hin => hf ((hmem f).mp hin)
  refine ⟨⟨f :: l, ?_, List.nodup_cons.mpr ⟨hfl, hnodup⟩, ?_⟩, ?_, ?_⟩
  · apply (hl.push hfl).congr
    intro g _
    by_cases hg : g = f <;> simp [Mem.setPage, hg]
  · intro g
    by_cases hg : g = f
    · simp [hg]
    · rw [Function.update_of_ne hg, ← hmem g]
      simp [hg]
  · intro g hgk
    by_cases hg : g = f
    · subst hg
      simpa [Mem.setPage] using h.managed g hk
    · rw [Function.update_of_ne hg] at hgk
      simpa [Mem.setPage, hg] using h.managed g hgk
  · intro g hgk
    by_cases hg : g = f
    · subst hg
      simp [Mem.setPage]
    · rw [Function.update_of_ne hg] at hgk ⊢
      simpa [Mem.setPage, hg] using h.flag g hgk

/-- The trees depend on the roles of tables only. -/
theorem Trees.congr_role {word : Nat → Nat → Word} {G G' : Ghost} (h : Trees word G)
    (htab : G'.tab = G.tab) (hleaf : G'.leaf = G.leaf)
    (hrole : ∀ f p l k, G'.role f = .table p l k ↔ G.role f = .table p l k) :
    Trees word G' := by
  refine ⟨?_, ?_, ?_, ?_, ?_, ?_, ?_⟩
  · intro p l k t
    rw [htab, hrole]
    exact h.role p l k t
  · rw [htab]
    exact h.key
  · rw [htab]
    exact h.root
  · rw [htab]
    exact h.up
  · rw [htab]
    exact h.link
  · rw [htab, hleaf]
    exact h.page
  · rw [htab, hleaf]
    exact h.leaf

/-- The trees depend on the user entries of the tables only. -/
theorem Trees.congr_word {word word' : Nat → Nat → Word} {G : Ghost} (h : Trees word G)
    (hword : ∀ t p l k i, G.role t = .table p l k → i < 512 → (l = 3 → i < 511) →
      word' t i = word t i) : Trees word' G := by
  refine ⟨h.role, h.key, h.root, h.up, ?_, ?_, h.leaf⟩
  · intro p l k t i ht hi hkey
    rw [← h.link p l k t i ht hi hkey]
    refine hword t p (l + 1) k i ((h.role _ _ _ _).mp ht) hi ?_
    intro hl
    obtain rfl : l = 2 := by omega
    simp only [keys] at hkey
    omega
  · intro p k t i ht hi
    rw [← h.page p k t i ht hi]
    exact hword t p 0 k i ((h.role _ _ _ _).mp ht) hi (by omega)

/-- A frame that is no table is used for something else. -/
theorem Trees.setRole_setHeld {word : Nat → Nat → Word} {G : Ghost} (h : Trees word G) {f : Nat}
    {r : Role} (hold : ∀ p l k, G.role f ≠ .table p l k) (hnew : ∀ p l k, r ≠ .table p l k)
    (n : Nat) : Trees word ((G.setRole f r).setHeld f n) := by
  refine h.congr_role rfl rfl fun g p l k => ?_
  simp only [Ghost.setHeld, Ghost.setRole, Function.update_apply]
  split_ifs with hg
  · simp [hg, hold, hnew]
  · exact Iff.rfl

/-- A table is on the way from its root. -/
theorem Trees.level_le {word : Nat → Nat → Word} {G : Ghost} (h : Trees word G) {p l k : Nat}
    (ht : G.tab (p, l, k) ≠ none) : l ≤ 3 := by
  have hkey := h.key p l k ht
  by_contra hl
  obtain ⟨d, rfl⟩ : ∃ d, l = d + 4 := ⟨l - 4, by omega⟩
  simp [keys] at hkey

theorem Trees.tab_unique {word : Nat → Nat → Word} {G : Ghost} (h : Trees word G)
    {p l k p' l' k' t : Nat} (ht : G.tab (p, l, k) = some t)
    (ht' : G.tab (p', l', k') = some t) : p' = p ∧ l' = l ∧ k' = k := by
  have hrole := (h.role p l k t).mp ht
  have hrole' := (h.role p' l' k' t).mp ht'
  rw [hrole] at hrole'
  simpa [eq_comm] using hrole'

/-- A frame that is no table is the table behind no entry. -/
theorem Trees.tab_ne_data {word : Nat → Nat → Word} {G : Ghost} (h : Trees word G) {f : Nat}
    (hf : G.role f = .data) (p l k : Nat) : G.tab (p, l, k) ≠ some f := by
  intro hcon
  have hrole := (h.role _ _ _ _).mp hcon
  rw [hf] at hrole
  cases hrole

/-- The roles when a frame becomes a table. -/
theorem Trees.role_hang {word : Nat → Nat → Word} {G : Ghost} (h : Trees word G) {p l k f : Nat}
    (hnone : G.tab (p, l, k) = none) (hf : G.role f = .data) (p' l' k' t' : Nat) :
    ((G.setRole f (.table p l k)).setTab p l k (some f)).tab (p', l', k') = some t' ↔
      ((G.setRole f (.table p l k)).setTab p l k (some f)).role t' = .table p' l' k' := by
  have hrole := h.role p' l' k' t'
  simp only [Ghost.setTab, Ghost.setRole, Function.update_apply]
  by_cases hk' : (p', l', k') = (p, l, k)
  · obtain ⟨rfl, rfl, rfl⟩ : p' = p ∧ l' = l ∧ k' = k := by simpa using hk'
    by_cases htf' : t' = f
    · simp [htf']
    · have hne : G.role t' ≠ .table p' l' k' := by simp [← hrole, hnone]
      simp [hne, Ne.symm htf', htf']
  · by_cases htf' : t' = f
    · subst htf'
      have hne := h.tab_ne_data hf p' l' k'
      have hk'' : ¬ (p = p' ∧ l = l' ∧ k = k') := by
        rintro ⟨rfl, rfl, rfl⟩
        exact hk' rfl
      simp [hk', hne, hk'']
    · simp [hk', htf', hrole]

/-- The roles when a table is given up. -/
theorem Trees.role_cut {word : Nat → Nat → Word} {G : Ghost} (h : Trees word G) {p l k f : Nat}
    (hf : G.tab (p, l, k) = some f) (p' l' k' t' : Nat) :
    ((G.setRole f .data).setTab p l k none).tab (p', l', k') = some t' ↔
      ((G.setRole f .data).setTab p l k none).role t' = .table p' l' k' := by
  have hrole := h.role p' l' k' t'
  simp only [Ghost.setTab, Ghost.setRole, Function.update_apply]
  by_cases htf' : t' = f
  · subst htf'
    by_cases hk' : (p', l', k') = (p, l, k)
    · simp [hk']
    · have hne : G.tab (p', l', k') ≠ some t' := by
        intro hcon
        obtain ⟨rfl, rfl, rfl⟩ := h.tab_unique hf hcon
        exact hk' rfl
      simp [hk', hne]
  · by_cases hk' : (p', l', k') = (p, l, k)
    · obtain ⟨rfl, rfl, rfl⟩ : p' = p ∧ l' = l ∧ k' = k := by simpa using hk'
      have hne : G.role t' ≠ .table p' l' k' := by
        rw [← hrole.ne, hf]
        simpa using Ne.symm htf'
      simp [htf', hne]
    · simp [hk', htf', hrole]

/-- An empty frame becomes the table behind entry `i` of `t`. -/
theorem Trees.hang {m : Mem} {G : Ghost} (h : Trees m.word G) {p l k t i f : Nat}
    (ht : G.tab (p, l + 1, k) = some t) (hi : i < 512) (hkey : k * 512 + i < keys l)
    (hnone : G.tab (p, l, k * 512 + i) = none) (hf : G.role f = .data)
    (hzero : ∀ j < 512, m.word f j = 0) :
    Trees (m.set t i (tableWord (some f))).word
      ((G.setRole f (.table p l (k * 512 + i))).setTab p l (k * 512 + i) (some f)) := by
  have hl := h.level_le (p := p) (l := l + 1) (k := k) (by simp [ht])
  have htf : t ≠ f := fun hcon => h.tab_ne_data hf _ _ _ (hcon ▸ ht)
  -- nothing hangs below a table that does not exist yet
  have hbelow : ∀ l' j, l' + 1 = l → j < 512 → G.tab (p, l', (k * 512 + i) * 512 + j) = none := by
    intro l' j hl' hj
    by_contra hcon
    have hup := h.up _ _ _ hcon (by omega)
    rw [hl', key_div hj] at hup
    exact hup hnone
  refine ⟨h.role_hang hnone hf, ?_, ?_, ?_, ?_, ?_, ?_⟩
  · intro p' l' k' hne
    simp only [Ghost.setTab, Ghost.setRole, Function.update_apply] at hne
    split_ifs at hne with hk'
    · obtain ⟨rfl, rfl, rfl⟩ : p' = p ∧ l' = l ∧ k' = k * 512 + i := by simpa using hk'
      exact hkey
    · exact h.key _ _ _ hne
  · intro p' t' ht'
    simp only [Ghost.setTab, Ghost.setRole, Function.update_apply] at ht'
    rw [if_neg (by simp; omega)] at ht'
    exact h.root _ _ ht'
  · intro p' l' k' hne hl'
    simp only [Ghost.setTab, Ghost.setRole, Function.update_apply] at hne ⊢
    split_ifs at hne with hk'
    · obtain ⟨rfl, rfl, rfl⟩ : p' = p ∧ l' = l ∧ k' = k * 512 + i := by simpa using hk'
      rw [if_neg (by simp), key_div hi]
      simp [ht]
    · split_ifs
      · simp
      · exact h.up _ _ _ hne hl'
  · intro p' l' k' t' i' ht' hi' hkey'
    simp only [Ghost.setTab, Ghost.setRole, Function.update_apply] at ht' ⊢
    rw [Mem.set_word]
    by_cases hnew : (p', l' + 1, k') = (p, l, k * 512 + i)
    · obtain ⟨rfl, rfl, rfl⟩ : p' = p ∧ l' + 1 = l ∧ k' = k * 512 + i := by simpa using hnew
      obtain rfl : f = t' := by simpa using ht'
      rw [if_neg (fun hcon => htf hcon.1.symm), hzero i' hi', if_neg (by simp),
        hbelow l' i' rfl hi']
      rfl
    · rw [if_neg hnew] at ht'
      have hlink := h.link _ _ _ _ _ ht' hi' hkey'
      by_cases hent : t' = t ∧ i' = i
      · obtain ⟨rfl, rfl⟩ := hent
        obtain ⟨rfl, hll, rfl⟩ := h.tab_unique ht ht'
        obtain rfl : l' = l := by omega
        simp
      · rw [if_neg hent, if_neg, hlink]
        intro hk'
        obtain ⟨rfl, rfl, hk''⟩ : p' = p ∧ l' = l ∧ k' * 512 + i' = k * 512 + i := by
          simpa using hk'
        obtain ⟨rfl, rfl⟩ : k' = k ∧ i' = i := by omega
        rw [ht] at ht'
        exact hent ⟨by simpa using ht'.symm, rfl⟩
  · intro p' k' t' i' ht' hi'
    simp only [Ghost.setTab, Ghost.setRole, Function.update_apply] at ht' ⊢
    rw [Mem.set_word]
    by_cases hnew : (p', 0, k') = (p, l, k * 512 + i)
    · obtain ⟨rfl, rfl, rfl⟩ : p' = p ∧ 0 = l ∧ k' = k * 512 + i := by simpa using hnew
      obtain rfl : f = t' := by simpa using ht'
      have hleaf : G.leaf (p', (k * 512 + i) * 512 + i') = none := by
        by_contra hcon
        have htab := h.leaf _ _ hcon
        rw [key_div hi'] at htab
        exact htab hnone
      rw [if_neg (fun hcon => htf hcon.1.symm), hzero i' hi', hleaf]
      rfl
    · rw [if_neg hnew] at ht'
      rw [if_neg, h.page _ _ _ _ ht' hi']
      rintro ⟨rfl, rfl⟩
      have huniq := h.tab_unique ht ht'
      omega
  · intro p' n hne
    have htab := h.leaf p' n hne
    simp only [Ghost.setTab, Ghost.setRole, Function.update_apply]
    split_ifs
    · simp
    · exact htab

/-- A table whose entries are all clear is taken out of its parent. -/
theorem Trees.cut {m : Mem} {G : Ghost} (h : Trees m.word G) {p l k t f : Nat}
    (hf : G.tab (p, l, k) = some f) (hl : l < 3) (ht : G.tab (p, l + 1, k / 512) = some t)
    (hzero : ∀ j < 512, m.word f j = 0) :
    Trees (m.set t (k % 512) 0).word ((G.setRole f .data).setTab p l k none) := by
  have hbelow : ∀ l' k', l' + 1 = l → k' / 512 = k → G.tab (p, l', k') = none := by
    intro l' k' hl' hk'
    by_contra hcon
    have hlink := h.link p l' k f (k' % 512) (hl' ▸ hf) (by omega)
    have hidx : k * 512 + k' % 512 = k' := by omega
    rw [hidx, hzero _ (by omega)] at hlink
    exact hcon (tableWord_eq_zero (hlink (h.key _ _ _ hcon)).symm)
  have hpages : l = 0 → ∀ n, n / 512 = k → G.leaf (p, n) = none := by
    intro hl' n hn
    have hpage := h.page p k f (n % 512) (hl' ▸ hf) (by omega)
    have hidx : k * 512 + n % 512 = n := by omega
    rw [hidx, hzero _ (by omega)] at hpage
    exact leafWord_eq_zero hpage.symm
  have htf : t ≠ f := by
    rintro rfl
    have huniq := h.tab_unique hf ht
    omega
  refine ⟨h.role_cut hf, ?_, ?_, ?_, ?_, ?_, ?_⟩
  · intro p' l' k' hne
    simp only [Ghost.setTab, Ghost.setRole, Function.update_apply] at hne
    split_ifs at hne with hk'
    · exact absurd rfl hne
    · exact h.key _ _ _ hne
  · intro p' t' ht'
    simp only [Ghost.setTab, Ghost.setRole, Function.update_apply] at ht'
    rw [if_neg (by simp; omega)] at ht'
    exact h.root _ _ ht'
  · intro p' l' k' hne hl'
    simp only [Ghost.setTab, Ghost.setRole, Function.update_apply] at hne ⊢
    split_ifs at hne with hk'
    · exact absurd rfl hne
    · rw [if_neg]
      · exact h.up _ _ _ hne hl'
      · intro hcon
        obtain ⟨rfl, hl'', hk''⟩ : p' = p ∧ l' + 1 = l ∧ k' / 512 = k := by simpa using hcon
        exact hne (hbelow l' k' hl'' hk'')
  · intro p' l' k' t' i' ht' hi' hkey'
    simp only [Ghost.setTab, Ghost.setRole, Function.update_apply] at ht' ⊢
    split_ifs at ht' with hk'
    have hlink := h.link _ _ _ _ _ ht' hi' hkey'
    rw [Mem.set_word]
    by_cases hent : t' = t ∧ i' = k % 512
    · obtain ⟨rfl, rfl⟩ := hent
      obtain ⟨rfl, hll, rfl⟩ := h.tab_unique ht ht'
      obtain rfl : l' = l := by omega
      rw [if_pos ⟨rfl, rfl⟩, if_pos (by simp; omega)]
      rfl
    · rw [if_neg hent, if_neg, hlink]
      intro hcon
      obtain ⟨rfl, rfl, hk''⟩ : p' = p ∧ l' = l ∧ k' * 512 + i' = k := by simpa using hcon
      obtain ⟨rfl, rfl⟩ : k' = k / 512 ∧ i' = k % 512 := by omega
      rw [ht] at ht'
      exact hent ⟨by simpa using ht'.symm, rfl⟩
  · intro p' k' t' i' ht' hi'
    simp only [Ghost.setTab, Ghost.setRole, Function.update_apply] at ht' ⊢
    split_ifs at ht' with hk'
    rw [Mem.set_word, if_neg, h.page _ _ _ _ ht' hi']
    rintro ⟨rfl, rfl⟩
    have huniq := h.tab_unique ht ht'
    omega
  · intro p' n hne
    simp only [Ghost.setTab, Ghost.setRole, Function.update_apply]
    rw [if_neg]
    · exact h.leaf _ _ hne
    · intro hcon
      obtain ⟨rfl, hl', hn⟩ : p' = p ∧ 0 = l ∧ n / 512 = k := by simpa using hcon
      exact hne (hpages hl'.symm n hn)

/-- Every table belongs to the tree of a PML4. -/
theorem Trees.to_root {word : Nat → Nat → Word} {G : Ghost} (h : Trees word G) {p l k : Nat}
    (ht : G.tab (p, l, k) ≠ none) : G.tab (p, 3, 0) = some p := by
  have hl := h.level_le ht
  have hroot : ∃ k', G.tab (p, 3, k') ≠ none := by
    obtain rfl | rfl | rfl | rfl : l = 0 ∨ l = 1 ∨ l = 2 ∨ l = 3 := by omega
    · exact ⟨_, h.up _ _ _ (h.up _ _ _ (h.up _ _ _ ht (by omega)) (by omega)) (by omega)⟩
    · exact ⟨_, h.up _ _ _ (h.up _ _ _ ht (by omega)) (by omega)⟩
    · exact ⟨_, h.up _ _ _ ht (by omega)⟩
    · exact ⟨_, ht⟩
  obtain ⟨k', hk'⟩ := hroot
  have hkey := h.key _ _ _ hk'
  obtain rfl : k' = 0 := by
    simp only [keys] at hkey
    omega
  obtain ⟨t, ht'⟩ := Option.ne_none_iff_exists'.mp hk'
  rw [ht', h.root _ _ ht']

/-- An empty frame becomes the PML4 of a new address space. -/
theorem Trees.plant {m : Mem} {G : Ghost} (h : Trees m.word G) {f : Nat}
    (hf : G.role f = .data) (hzero : ∀ j < 511, m.word f j = 0) :
    Trees m.word ((G.setRole f (.table f 3 0)).setTab f 3 0 (some f)) := by
  have hnone : ∀ l k, G.tab (f, l, k) = none := by
    intro l k
    by_contra hcon
    have hrole := (h.role _ _ _ _).mp (h.to_root hcon)
    rw [hf] at hrole
    cases hrole
  refine ⟨h.role_hang (hnone _ _) hf, ?_, ?_, ?_, ?_, ?_, ?_⟩
  · intro p' l' k' hne
    simp only [Ghost.setTab, Ghost.setRole, Function.update_apply] at hne
    split_ifs at hne with hk'
    · obtain ⟨rfl, rfl, rfl⟩ : p' = f ∧ l' = 3 ∧ k' = 0 := by simpa using hk'
      decide
    · exact h.key _ _ _ hne
  · intro p' t' ht'
    simp only [Ghost.setTab, Ghost.setRole, Function.update_apply] at ht'
    split_ifs at ht' with hk'
    · obtain ⟨rfl, -⟩ : p' = f ∧ True := by simpa using hk'
      simpa using ht'.symm
    · exact h.root _ _ ht'
  · intro p' l' k' hne hl'
    simp only [Ghost.setTab, Ghost.setRole, Function.update_apply] at hne ⊢
    rw [if_neg (by simp; omega)] at hne
    split_ifs
    · simp
    · exact h.up _ _ _ hne hl'
  · intro p' l' k' t' i' ht' hi' hkey'
    simp only [Ghost.setTab, Ghost.setRole, Function.update_apply] at ht' ⊢
    have hl' : l' < 3 := by
      by_contra hcon
      obtain ⟨d, rfl⟩ : ∃ d, l' = d + 3 := ⟨l' - 3, by omega⟩
      split_ifs at ht' with hk'
      · simp at hk'
      · have := h.level_le (p := p') (l := d + 3 + 1) (k := k') (by simp [ht'])
        omega
    rw [if_neg (show ¬ (p', l', k' * 512 + i') = (f, 3, 0) by simp; omega)]
    split_ifs at ht' with hk'
    · obtain ⟨rfl, rfl, rfl⟩ : p' = f ∧ l' = 2 ∧ k' = 0 := by simpa using hk'
      obtain rfl : p' = t' := by simpa using ht'
      simp only [keys] at hkey'
      rw [hzero i' (by omega), hnone]
      rfl
    · exact h.link _ _ _ _ _ ht' hi' hkey'
  · intro p' k' t' i' ht' hi'
    simp only [Ghost.setTab, Ghost.setRole, Function.update_apply] at ht' ⊢
    rw [if_neg (by simp)] at ht'
    exact h.page _ _ _ _ ht' hi'
  · intro p' n hne
    simp only [Ghost.setTab, Ghost.setRole, Function.update_apply]
    rw [if_neg (by simp)]
    exact h.leaf _ _ hne

/-- An address space without pages and tables is given up. -/
theorem Trees.uproot {m : Mem} {G : Ghost} (h : Trees m.word G) {p : Nat}
    (hp : G.tab (p, 3, 0) = some p) (hzero : ∀ j < 511, m.word p j = 0) :
    Trees m.word ((G.setRole p .data).setTab p 3 0 none) := by
  have hbelow : ∀ k, G.tab (p, 2, k) = none := by
    intro k
    by_contra hcon
    have hkey := h.key _ _ _ hcon
    have hkey' : k < 511 := by simpa [keys] using hkey
    have hlink := h.link p 2 0 p k hp (by omega) (by simpa using hkey)
    rw [hzero k hkey', Nat.zero_mul, Nat.zero_add] at hlink
    exact hcon (tableWord_eq_zero hlink.symm)
  refine ⟨h.role_cut hp, ?_, ?_, ?_, ?_, ?_, ?_⟩
  · intro p' l' k' hne
    simp only [Ghost.setTab, Ghost.setRole, Function.update_apply] at hne
    split_ifs at hne with hk'
    · exact absurd rfl hne
    · exact h.key _ _ _ hne
  · intro p' t' ht'
    simp only [Ghost.setTab, Ghost.setRole, Function.update_apply] at ht'
    split_ifs at ht' with hk'
    exact h.root _ _ ht'
  · intro p' l' k' hne hl'
    simp only [Ghost.setTab, Ghost.setRole, Function.update_apply] at hne ⊢
    rw [if_neg (by simp; omega)] at hne
    rw [if_neg]
    · exact h.up _ _ _ hne hl'
    · intro hcon
      obtain ⟨rfl, hl'', -⟩ : p' = p ∧ l' + 1 = 3 ∧ k' / 512 = 0 := by simpa using hcon
      obtain rfl : l' = 2 := by omega
      exact hne (hbelow k')
  · intro p' l' k' t' i' ht' hi' hkey'
    simp only [Ghost.setTab, Ghost.setRole, Function.update_apply] at ht' ⊢
    split_ifs at ht' with hk'
    have hl' := h.level_le (p := p') (l := l' + 1) (k := k') (by simp [ht'])
    rw [if_neg (by simp; omega)]
    exact h.link _ _ _ _ _ ht' hi' hkey'
  · intro p' k' t' i' ht' hi'
    simp only [Ghost.setTab, Ghost.setRole, Function.update_apply] at ht' ⊢
    rw [if_neg (by simp)] at ht'
    exact h.page _ _ _ _ ht' hi'
  · intro p' n hne
    simp only [Ghost.setTab, Ghost.setRole, Function.update_apply]
    rw [if_neg (by simp)]
    exact h.leaf _ _ hne

/-- One page table entry is rewritten. -/
theorem Trees.setLeaf {m : Mem} {G : Ghost} (h : Trees m.word G) {p k t i : Nat}
    (ht : G.tab (p, 0, k) = some t) (hi : i < 512) (v : Option Pte) (held : Nat → Nat) :
    Trees (m.set t i (leafWord v)).word
      { G with leaf := Function.update G.leaf (p, k * 512 + i) v, held := held } := by
  refine ⟨h.role, h.key, h.root, h.up, ?_, ?_, ?_⟩
  · intro p' l' k' t' i' ht' hi' hkey'
    rw [Mem.set_word, if_neg, h.link _ _ _ _ _ ht' hi' hkey']
    rintro ⟨rfl, rfl⟩
    have huniq := h.tab_unique ht ht'
    omega
  · intro p' k' t' i' ht' hi'
    rw [Mem.set_word]
    by_cases hent : t' = t ∧ i' = i
    · obtain ⟨rfl, rfl⟩ := hent
      obtain ⟨rfl, -, rfl⟩ := h.tab_unique ht ht'
      simp
    · rw [if_neg hent]
      dsimp only
      rw [Function.update_of_ne, h.page _ _ _ _ ht' hi']
      intro hcon
      obtain ⟨rfl, hk'⟩ : p' = p ∧ k' * 512 + i' = k * 512 + i := by simpa using hcon
      obtain ⟨rfl, rfl⟩ : k' = k ∧ i' = i := by omega
      rw [ht] at ht'
      exact hent ⟨by simpa using ht'.symm, rfl⟩
  · intro p' n hne
    dsimp only at hne ⊢
    by_cases hx : (p', n) = (p, k * 512 + i)
    · obtain ⟨rfl, rfl⟩ : p' = p ∧ n = k * 512 + i := by simpa using hx
      rw [key_div hi, ht]
      simp
    · rw [Function.update_of_ne hx] at hne
      exact h.leaf _ _ hne

/-- The counts see the tables only through the roles. -/
theorem Refs.setTab {rc : Nat → Nat} {G : Ghost} (h : Refs rc G) (p l k : Nat)
    (o : Option Nat) : Refs rc (G.setTab p l k o) :=
  ⟨h.target, h.finite, h.count, h.pos, h.own, h.table, h.vma, h.held, h.inj⟩

/-- No page table entry points at a frame that is not a user page. -/
theorem Refs.unmapped {rc : Nat → Nat} {G : Ghost} (h : Refs rc G) {f : Nat}
    (hf : G.role f ≠ .data) : refCount G.mapped f = 0 := by
  rw [refCount_eq_zero_iff h.finite]
  intro x hx
  obtain ⟨e, he, rfl⟩ := Option.map_eq_some_iff.mp hx
  exact hf (h.target x e he)

/-- A frame that is held as often as it is counted has no page table entry. -/
theorem Refs.unmapped_of_held {rc : Nat → Nat} {G : Ghost} (h : Refs rc G) {f : Nat}
    (hf : G.role f = .data) (hle : rc f ≤ G.held f) {x : Nat × Nat} {e : Pte}
    (he : G.leaf x = some e) : e.frame ≠ f := by
  rintro rfl
  have hcount := h.count _ hf
  have hpos := refCount_pos h.finite (x := x) (f := e.frame) (by simp [Ghost.mapped, he])
  omega

/-- A frame changes its role between user page and anything else while no
entry points at it. -/
theorem Refs.setRole {rc rc' : Nat → Nat} {G : Ghost} (h : Refs rc G) {f n : Nat} {r : Role}
    (hrc : ∀ g, g ≠ f → rc' g = rc g) (hfree : ∀ x e, G.leaf x = some e → e.frame ≠ f)
    (hdata : r = .data → rc' f = n ∧ 0 < n) (hheld : r ≠ .data → n = 0)
    (htable : ∀ p l k, r = .table p l k → rc' f = 1) (hvma : ∀ p, r = .vma p → rc' f = 1) :
    Refs rc' ((G.setRole f r).setHeld f n) := by
  refine ⟨?_, h.finite, ?_, ?_, ?_, ?_, ?_, ?_, h.inj⟩
  · intro x e he
    have hne := hfree x e he
    simp only [Ghost.setHeld, Ghost.setRole, Function.update_of_ne hne]
    exact h.target x e he
  · intro g hg
    simp only [Ghost.setHeld, Ghost.setRole, Function.update_apply] at hg ⊢
    split_ifs at hg with hgf
    · subst hgf
      have hzero : refCount G.mapped g = 0 := by
        rw [refCount_eq_zero_iff h.finite]
        intro x hx
        obtain ⟨e, he, hef⟩ := Option.map_eq_some_iff.mp hx
        exact hfree x e he hef
      have hmapped : ((G.setRole g r).setHeld g n).mapped = G.mapped := rfl
      simp only [Ghost.setHeld, Ghost.setRole] at hmapped
      rw [hmapped, hzero, if_pos rfl, (hdata hg).1]
      omega
    · rw [hrc g hgf, if_neg hgf]
      exact h.count g hg
  · intro g hg
    simp only [Ghost.setHeld, Ghost.setRole, Function.update_apply] at hg
    split_ifs at hg with hgf
    · subst hgf
      have := hdata hg
      omega
    · rw [hrc g hgf]
      exact h.pos g hg
  · intro x e he hown
    rw [hrc _ (hfree x e he)]
    exact h.own x e he hown
  · intro g p l k hg
    simp only [Ghost.setHeld, Ghost.setRole, Function.update_apply] at hg
    split_ifs at hg with hgf
    · subst hgf
      exact htable p l k hg
    · rw [hrc g hgf]
      exact h.table g p l k hg
  · intro g p hg
    simp only [Ghost.setHeld, Ghost.setRole, Function.update_apply] at hg
    split_ifs at hg with hgf
    · subst hgf
      exact hvma p hg
    · rw [hrc g hgf]
      exact h.vma g p hg
  · intro g hg
    simp only [Ghost.setHeld, Ghost.setRole, Function.update_apply] at hg ⊢
    split_ifs at hg ⊢ with hgf
    · exact hheld hg
    · exact h.held g hg

/-- The count of a user page and the references the kernel holds to it move
together. -/
theorem Refs.setCount {rc : Nat → Nat} {G : Ghost} (h : Refs rc G) {f c n : Nat}
    (hf : G.role f = .data) (hc : c = refCount G.mapped f + n) (hpos : 0 < c)
    (hown : ∀ x e, G.leaf x = some e → e.own = true → e.frame ≠ f) :
    Refs (Function.update rc f c) (G.setHeld f n) := by
  refine ⟨h.target, h.finite, ?_, ?_, ?_, ?_, ?_, ?_, h.inj⟩
  · intro g hg
    simp only [Ghost.setHeld, Function.update_apply]
    split_ifs with hgf
    · subst hgf
      exact hc
    · exact h.count g hg
  · intro g hg
    simp only [Function.update_apply]
    split_ifs with hgf
    · exact hpos
    · exact h.pos g hg
  · intro x e he ho
    rw [Function.update_of_ne (hown x e he ho)]
    exact h.own x e he ho
  · intro g p l k hg
    have hne : g ≠ f := by
      rintro rfl
      have hg' : G.role g = .table p l k := hg
      simp [hf] at hg'
    rw [Function.update_of_ne hne]
    exact h.table g p l k hg
  · intro g p hg
    have hne : g ≠ f := by
      rintro rfl
      have hg' : G.role g = .vma p := hg
      simp [hf] at hg'
    rw [Function.update_of_ne hne]
    exact h.vma g p hg
  · intro g hg
    have hne : g ≠ f := by
      rintro rfl
      exact hg hf
    simp only [Ghost.setHeld, Function.update_of_ne hne]
    exact h.held g hg

theorem Ghost.mapped_update (leaf : Nat × Nat → Option Pte) (x : Nat × Nat) (v : Option Pte) :
    (fun y => (Function.update leaf x v y).map Pte.frame) =
      Function.update (fun y => (leaf y).map Pte.frame) x (v.map Pte.frame) := by
  funext y
  by_cases hy : y = x
  · subst hy
    simp
  · simp [hy]

/-- Rewriting an entry moves one reference between the table and the kernel's
hands on each side. -/
theorem Refs.setLeaf {rc : Nat → Nat} {G : Ghost} (h : Refs rc G) {p n : Nat}
    {v : Option Pte} {held : Nat → Nat}
    (hv : ∀ e, v = some e → G.role e.frame = .data ∧ (e.own = true → rc e.frame = 1) ∧
      ∀ n' e', n' ≠ n → G.leaf (p, n') = some e' → e'.frame ≠ e.frame)
    (hheld : ∀ f, held f + (if v.map Pte.frame = some f then 1 else 0) =
      G.held f + (if G.mapped (p, n) = some f then 1 else 0)) :
    Refs rc { G with leaf := Function.update G.leaf (p, n) v, held := held } := by
  have hmapped : ({ G with leaf := Function.update G.leaf (p, n) v, held := held } : Ghost).mapped =
      Function.update G.mapped (p, n) (v.map Pte.frame) := Ghost.mapped_update G.leaf (p, n) v
  refine ⟨?_, ?_, ?_, h.pos, ?_, h.table, h.vma, ?_, ?_⟩
  · intro x e he
    dsimp only at he ⊢
    by_cases hx : x = (p, n)
    · subst hx
      exact (hv e (by simpa using he)).1
    · rw [Function.update_of_ne hx] at he
      exact h.target x e he
  · rw [hmapped]
    exact h.finite.update _ _
  · intro f hf
    have hcount := h.count f hf
    have hupd := refCount_update h.finite (p, n) (v.map Pte.frame) f
    have hh := hheld f
    rw [hmapped]
    dsimp only
    omega
  · intro x e he ho
    dsimp only at he
    by_cases hx : x = (p, n)
    · subst hx
      exact (hv e (by simpa using he)).2.1 ho
    · rw [Function.update_of_ne hx] at he
      exact h.own x e he ho
  · intro f hf
    have hzero := h.held f hf
    have hnew : v.map Pte.frame ≠ some f := by
      intro hcon
      obtain ⟨e, he, rfl⟩ := Option.map_eq_some_iff.mp hcon
      exact hf (hv e he).1
    have hold : G.mapped (p, n) ≠ some f := by
      intro hcon
      obtain ⟨e, he, rfl⟩ := Option.map_eq_some_iff.mp hcon
      exact hf (h.target _ e he)
    have hh := hheld f
    rw [if_neg hnew, if_neg hold] at hh
    dsimp only
    omega
  · intro p' n₁ n₂ e₁ e₂ h₁ h₂ heq
    dsimp only at h₁ h₂
    by_cases hx₁ : (p', n₁) = (p, n)
    · obtain ⟨rfl, rfl⟩ : p' = p ∧ n₁ = n := by simpa using hx₁
      by_contra hne
      rw [Function.update_of_ne (by simpa using Ne.symm hne)] at h₂
      exact (hv e₁ (by simpa using h₁)).2.2 n₂ e₂ (Ne.symm hne) h₂ heq.symm
    · rw [Function.update_of_ne hx₁] at h₁
      by_cases hx₂ : (p', n₂) = (p, n)
      · obtain ⟨rfl, rfl⟩ : p' = p ∧ n₂ = n := by simpa using hx₂
        exact absurd heq ((hv e₂ (by simpa using h₂)).2.2 n₁ e₁ (by simpa using hx₁) h₁)
      · rw [Function.update_of_ne hx₂] at h₂
        exact h.inj p' n₁ n₂ e₁ e₂ h₁ h₂ heq

end X86Kernel.Paging
