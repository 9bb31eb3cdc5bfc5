import X86Kernel.Fs.Chdir

/-!
What `readdir_tarfs` delivers, call by call, until it returns 0. It goes through
the headers that share more than their first character with the directory, and
takes the first of these for the directory itself. So a listing is what it should
be as long as no other name begins like the directory's; the listing of the root
has the nameless header in place of the first member.
-/

namespace X86Kernel.Fs

open Lib

/-- `open_dir` with its buffer `file_path[50]`; `/` is not resolved. -/
def Files.openDirFits (A : Archive) (f : Files) (path : List UInt8) (around : Around) :
    Option (Result × Files) :=
  if path = [47] ∨ (filePath f.currDir path).length < 50 then some (f.openDir A path around)
  else none

/-- The calls for a descriptor deliver these names, and then there is no more. -/
def Files.Lists (A : Archive) (f : Files) (fd : Int) : List (List UInt8) → Prop
  | [] => (f.readdirTarfs A fd).1.ret = 0
  | name :: names => (f.readdirTarfs A fd).1 = { ret := 1, out := name ++ [0] } ∧
      Files.Lists A (f.readdirTarfs A fd).2 fd names

def Files.ListsDir (A : Archive) (f : Files) (path : List UInt8) (around : Around)
    (names : List (List UInt8)) : Prop :=
  ∃ f', f.openDirFits A path around = some ({ ret := f.fdC + 3, out := [] }, f') ∧
    f'.Lists A (f.fdC + 3) names

def below (ms : List Member) (d : List UInt8) : List (List UInt8) :=
  ((ms.map Member.name).filter fun n => d <+: n ∧ n ≠ d).map (List.drop d.length)

/-- Every directory comes before what is below it. -/
def Ordered (ms : List Member) : Prop :=
  ms.Pairwise fun m m' => ¬ (m'.name.getLast? = some 47 ∧ m'.name <+: m.name ∧ m'.name ≠ m.name)

section Loop

variable (dirName : List UInt8)

/-- The loop of `readdir_tarfs` counts this name. -/
def Counted (n : List UInt8) : Prop := 0 < startsWith n dirName ∨ dirName = [47]

instance (n : List UInt8) : Decidable (Counted dirName n) := inferInstanceAs (Decidable (_ ∨ _))

def entryOf (n : List UInt8) : List UInt8 := substring n (startsWith n dirName)

/-- The entry number `d` from here on, if there is one. -/
theorem readdirLoop_found (hs : List Header) {k d : Nat} (hk : 0 < k) :
    (readdirLoop dirName hs k (k + d)).1 =
        ((hs.map Header.name).filter (Counted dirName))[d]?.map (entryOf dirName) ∧
      ((readdirLoop dirName hs k (k + d)).1.isSome →
        (readdirLoop dirName hs k (k + d)).2 = k + d + 1) := by
  induction hs generalizing k d with
  | nil => simp [readdirLoop]
  | cons h hs ih =>
      have hne : ¬ (k : Int) = 0 := by omega
      have hcounted : (0 < startsWith h.name dirName ∨ dirName = [47]) ↔ Counted dirName h.name :=
        Iff.rfl
      simp only [readdirLoop, hcounted, if_neg hne, List.map_cons, List.filter_cons,
        decide_eq_true_eq]
      by_cases hc : Counted dirName h.name
      · simp only [if_pos hc]
        cases d with
        | zero => simp [entryOf]
        | succ d =>
            have hlater : ¬ (k : Int) = k + (d + 1 : Nat) := by omega
            have hshift : (k : Int) + (d + 1 : Nat) = (k + 1 : Nat) + d := by omega
            rw [if_neg hlater, hshift, List.getElem?_cons_succ]
            exact ih (k := k + 1) (by omega)
      · simp only [if_neg hc]
        exact ih hk

/-- The call for the entry number `e`; the number 0 stands for the directory
itself, and is taken for 1. -/
theorem readdirLoop_start (hs : List Header) (e : Nat) :
    (readdirLoop dirName hs 0 e).1 =
        ((hs.map Header.name).filter (Counted dirName))[max e 1]?.map (entryOf dirName) ∧
      ((readdirLoop dirName hs 0 e).1.isSome →
        (readdirLoop dirName hs 0 e).2 = (max e 1 + 1 : Nat)) := by
  induction hs with
  | nil => simp [readdirLoop]
  | cons h hs ih =>
      have hcounted : (0 < startsWith h.name dirName ∨ dirName = [47]) ↔ Counted dirName h.name :=
        Iff.rfl
      simp only [readdirLoop, hcounted, if_true, List.map_cons, List.filter_cons,
        decide_eq_true_eq]
      by_cases hc : Counted dirName h.name
      · simp only [if_pos hc]
        obtain ⟨d, hd⟩ : ∃ d, max e 1 = d + 1 := ⟨max e 1 - 1, by omega⟩
        have hentry : (if (e : Int) = 0 then (e : Int) + 1 else e) = ((1 : Nat) : Int) + d := by
          split_ifs <;> omega
        have hfound := readdirLoop_found dirName hs (k := 1) (d := d) (by omega)
        rw [hentry, hd, List.getElem?_cons_succ]
        refine ⟨hfound.1, fun hsome => ?_⟩
        have hnext := hfound.2 hsome
        exact hnext.trans (by push_cast; omega)
      · simp only [if_neg hc]
        exact ih

variable {dirName}

def counted (A : Archive) (dirName : List UInt8) : List (List UInt8) :=
  ((A.headers.take 32).map Header.name).filter (Counted dirName)

/-- One call. -/
theorem readdirTarfs_eq {A : Archive} {f : Files} {fd : Int} {e : Nat}
    (hname : (f.fd fd).fileName = dirName) (hentry : (f.fd fd).entry = e) :
    match (counted A dirName)[max e 1]? with
    | some n => (f.readdirTarfs A fd).1 = { ret := 1, out := entryOf dirName n ++ [0] } ∧
        ((f.readdirTarfs A fd).2.fd fd).fileName = dirName ∧
        ((f.readdirTarfs A fd).2.fd fd).entry = (max e 1 + 1 : Nat)
    | none => (f.readdirTarfs A fd).1.ret = 0 := by
  obtain ⟨hfound, hnext⟩ := readdirLoop_start dirName (A.headers.take 32) e
  rw [counted]
  simp only [Files.readdirTarfs, hname, hentry]
  generalize readdirLoop dirName (A.headers.take 32) 0 e = r at hfound hnext
  obtain ⟨found, entry⟩ := r
  cases hcall : (((A.headers.take 32).map Header.name).filter (Counted dirName))[max e 1]? with
  | none =>
      rw [hcall] at hfound
      simp [show found = none from hfound]
  | some n =>
      rw [hcall] at hfound
      obtain rfl : found = some (entryOf dirName n) := hfound
      simpa [hname] using hnext rfl

/-- The names that are listed from the entry number `e` on. -/
theorem lists_iff {A : Archive} {f : Files} {fd : Int} {e : Nat} {names : List (List UInt8)}
    (hname : (f.fd fd).fileName = dirName) (hentry : (f.fd fd).entry = e) :
    f.Lists A fd names ↔ names = ((counted A dirName).drop (max e 1)).map (entryOf dirName) := by
  induction names generalizing f e with
  | nil =>
      have hcall := readdirTarfs_eq (A := A) hname hentry
      cases hnext : (counted A dirName)[max e 1]? with
      | none =>
          rw [hnext] at hcall
          rw [List.drop_eq_nil_of_le (List.getElem?_eq_none_iff.mp hnext)]
          exact iff_of_true hcall rfl
      | some n =>
          rw [hnext] at hcall
          obtain ⟨hlt, -⟩ := List.getElem?_eq_some_iff.mp hnext
          rw [List.drop_eq_getElem_cons hlt, List.map_cons]
          refine iff_of_false (fun hret => ?_) (List.cons_ne_nil _ _).symm
          rw [Files.Lists, hcall.1] at hret
          simp at hret
  | cons n names ih =>
      have hcall := readdirTarfs_eq (A := A) hname hentry
      cases hnext : (counted A dirName)[max e 1]? with
      | none =>
          rw [hnext] at hcall
          rw [List.drop_eq_nil_of_le (List.getElem?_eq_none_iff.mp hnext)]
          refine iff_of_false (fun hlists => ?_) (by simp)
          have hret := congrArg Result.ret hlists.1
          simp [hcall] at hret
      | some n' =>
          rw [hnext] at hcall
          obtain ⟨hout, hname', hentry'⟩ := hcall
          obtain ⟨hlt, hget⟩ := List.getElem?_eq_some_iff.mp hnext
          have hmax : max (max e 1 + 1) 1 = max e 1 + 1 := by omega
          rw [Files.Lists, hout, ih hname' hentry', hmax, List.drop_eq_getElem_cons hlt, hget]
          simp [eq_comm]

end Loop

section Names

variable {d n : List UInt8} {ns : List (List UInt8)}

theorem startsWith_ge (s t : List UInt8) : -1 ≤ startsWith s t := by
  induction s generalizing t with
  | nil => simp [startsWith]
  | cons x s ih =>
      cases t with
      | nil => simp [startsWith]
      | cons y t =>
          have hrest := ih t
          rw [startsWith]
          split_ifs <;> omega

theorem startsWith_append (d s : List UInt8) : startsWith (d ++ s) d = d.length - 1 := by
  induction d with
  | nil => cases s <;> rfl
  | cons x d ih =>
      rw [List.cons_append, startsWith, if_pos rfl, ih, List.length_cons]
      omega

/-- A listing counts the names with the same two characters in front. -/
theorem startsWith_pos_iff (hd : 2 ≤ d.length) : 0 < startsWith n d ↔ n.take 2 = d.take 2 := by
  obtain ⟨x, y, d, rfl⟩ : ∃ x y d', d = x :: y :: d' := by
    match d, hd with
    | x :: y :: d', _ => exact ⟨x, y, d', rfl⟩
  match n with
  | [] => simp [startsWith]
  | [a] =>
      simp only [startsWith]
      split_ifs <;> simp
  | a :: b :: n =>
      have hrest := startsWith_ge n d
      simp only [startsWith, List.take_succ_cons, List.take_zero, List.cons.injEq, and_true]
      split_ifs with ha hb
      · exact iff_of_true (by omega) ⟨ha, hb⟩
      · exact iff_of_false (by omega) (fun h => hb h.2)
      · exact iff_of_false (by omega) (fun h => ha h.1)

theorem entryOf_below (h : d <+: n) : entryOf d n = n.drop d.length := by
  obtain ⟨s, rfl⟩ := h
  rw [entryOf, startsWith_append, substring]
  congr 1
  omega

/-- The first name that counts is left out: that is right when it is the name of
the directory, and every other that counts is below. -/
theorem tail_filter {p q : List UInt8 → Prop} [DecidablePred p] [DecidablePred q]
    (hpq : ∀ n, p n → q n) (hq : q d) (hp : ¬ p d)
    (hcount : ns.count d = 1) (hothers : ∀ n ∈ ns, q n → n ≠ d → p n)
    (horder : ∀ front back, ns = front ++ d :: back → ∀ n ∈ front, ¬ p n) :
    (ns.filter (fun n => q n)).tail = ns.filter (fun n => p n) := by
  have hmem : d ∈ ns := List.count_pos_iff.mp (by omega)
  obtain ⟨front, back, rfl⟩ := List.append_of_mem hmem
  have hnot : d ∉ front ∧ d ∉ back := by
    rw [List.count_append, List.count_cons_self] at hcount
    exact ⟨List.count_eq_zero.mp (by omega), List.count_eq_zero.mp (by omega)⟩
  have hfront := horder front back rfl
  have hnone : front.filter (fun n => q n) = [] := by
    refine List.filter_eq_nil_iff.mpr fun n hn hqn => hfront n hn ?_
    exact hothers n (by simp [hn]) (by simpa using hqn) (fun heq => hnot.1 (heq ▸ hn))
  have hback : back.filter (fun n => q n) = back.filter (fun n => p n) := by
    refine List.filter_congr fun n hn => ?_
    rw [decide_eq_decide]
    exact ⟨fun hqn => hothers n (by simp [hn]) hqn (fun heq => hnot.2 (heq ▸ hn)), hpq n⟩
  have hnone' : front.filter (fun n => p n) = [] :=
    List.filter_eq_nil_iff.mpr (by simpa using hfront)
  rw [List.filter_append, hnone, List.nil_append, List.filter_cons_of_pos (by simpa using hq),
    List.tail_cons, hback, List.filter_append, hnone', List.nil_append,
    List.filter_cons_of_neg (by simpa using hp)]

/-- And only then are there as many names as there should be. -/
theorem length_filter {p q : List UInt8 → Prop} [DecidablePred p] [DecidablePred q]
    (hpq : ∀ n, p n → q n) (hq : q d) (hp : ¬ p d) (hmem : d ∈ ns)
    (hlen : (ns.filter (fun n => q n)).length = (ns.filter (fun n => p n)).length + 1) :
    ns.count d = 1 ∧ ∀ n ∈ ns, q n → n ≠ d → p n := by
  have hsplit := List.countP_eq_countP_filter_add ns (fun n => decide (q n)) (fun n => decide (p n))
  have hin : (ns.filter fun n => p n).countP (fun n => decide (q n)) =
      (ns.filter fun n => p n).length := by
    rw [List.countP_eq_length]
    intro n hn
    simpa using hpq n (by simpa using (List.mem_filter.mp hn).2)
  have hone : ((ns.filter fun n => !decide (p n)).filter fun n => decide (q n)).length = 1 := by
    rw [← List.countP_eq_length_filter]
    rw [hin, List.countP_eq_length_filter] at hsplit
    omega
  rw [List.filter_filter] at hone
  obtain ⟨x, hx⟩ := List.length_eq_one_iff.mp hone
  have hrest : ∀ n ∈ ns, q n → ¬ p n → n = x := by
    intro n hn hqn hpn
    have hmem : n ∈ ns.filter fun n => decide (q n) && !decide (p n) := by
      simp [hn, hqn, hpn]
    rw [hx] at hmem
    exact List.mem_singleton.mp hmem
  obtain rfl : d = x := hrest d hmem hq hp
  refine ⟨?_, fun n hn hqn hne => ?_⟩
  · rw [← List.count_filter (p := fun n => decide (q n) && !decide (p n)) (by simp [hq, hp]), hx]
    simp
  · by_contra hpn
    exact hne (hrest n hn hqn hpn)

end Names

section Open

variable {A : Archive} {f : Files} {path d : List UInt8} {names : List (List UInt8)}
  {around : Around}

/-- A directory that is there is opened, and then listed under its own name. -/
theorem listsDir_iff (hpath : setTruePath f.currDir path = d) (hslash : d.getLast? = some 47)
    (hmem : ∃ h ∈ A.headers.take 32, h.name = d) :
    f.ListsDir A path around names ↔ (filePath f.currDir path).length < 50 ∧
      names = (counted A d).tail.map (entryOf d) := by
  have hne : path ≠ [47] := by
    rintro rfl
    have hroot : setTruePath f.currDir [47] = [] :=
      setTruePath_absolute (n := []) f.currDir (by decide) (by decide) (by decide)
    rw [← hpath, hroot] at hslash
    simp at hslash
  obtain ⟨n, hn⟩ := Option.isSome_iff_exists.mp (isValidDirectory_isSome hpath hslash hmem)
  obtain ⟨hfind, -⟩ := Option.filter_eq_some_iff.mp hn
  obtain ⟨h, -, hget, hname⟩ := isfileexists_some hfind
  have hopen : f.openDir A path around = f.install h none around := by
    rw [Files.openDir, if_neg hne, hn, Option.bind_some, hget]
  have hlists : (f.install h none around).2.Lists A (f.fdC + 3) names ↔
      names = (counted A d).tail.map (entryOf d) := by
    have hfile : ((f.install h none around).2.fd (f.fdC + 3)).fileName = d := by
      simp [Files.install, hname, hpath]
    rw [lists_iff hfile (e := 0) (by simp [Files.install])]
    simp
  rw [Files.ListsDir, Files.openDirFits, hopen, ← hlists]
  simp only [hne, false_or]
  constructor
  · rintro ⟨f', hf', hnames⟩
    split_ifs at hf' with hfits
    obtain rfl : (f.install h none around).2 = f' := congrArg Prod.snd (Option.some.inj hf')
    exact ⟨hfits, hnames⟩
  · rintro ⟨hfits, hnames⟩
    exact ⟨_, by rw [if_pos hfits]; rfl, hnames⟩

theorem listsDir_root_iff :
    f.ListsDir A [47] around names ↔ names = (counted A [47]).tail.map (entryOf [47]) := by
  have hopen : f.openDirFits A [47] around = some (f.openDir A [47] around) := by
    rw [Files.openDirFits, if_pos (.inl rfl)]
  have hlists : (f.openDir A [47] around).2.Lists A (f.fdC + 3) names ↔
      names = (counted A [47]).tail.map (entryOf [47]) := by
    have hfile : ((f.openDir A [47] around).2.fd (f.fdC + 3)).fileName = [47] := by
      simp [Files.openDir]
    rw [lists_iff hfile (e := 0) (by simp [Files.openDir])]
    simp
  rw [Files.ListsDir, hopen, ← hlists]
  constructor
  · rintro ⟨f', hf', hnames⟩
    obtain rfl : (f.openDir A [47] around).2 = f' := congrArg Prod.snd (Option.some.inj hf')
    exact hnames
  · intro hnames
    exact ⟨_, by simp [Files.openDir], hnames⟩

variable {ms : List Member} {z start : Nat} {byte : Nat → UInt8}

theorem image_names (hms : ms.length < 32) (hz : 2 ≤ z ∧ z ≤ 20)
    (himage : Holds byte start (image ms z))
    (hA : initTarfs byte start (start + (image ms z).length) = some A) :
    (A.headers.take 32).map Header.name = ms.map Member.name ++ [[]] := by
  obtain ⟨l, hd, hheaders, hnames, hnone, -, -⟩ := image_headers hms hz himage hA
  have hcount : l.length = ms.length := by
    simpa using congrArg List.length hnames
  rw [List.take_of_length_le (by simp [hheaders]; omega), hheaders, List.map_append, hnames,
    List.map_singleton, hnone]

/-- For the root every header counts. -/
theorem counted_root (hall : (A.headers.take 32).map Header.name = ms.map Member.name ++ [[]]) :
    counted A [47] = ms.map Member.name ++ [[]] := by
  rw [counted, hall, List.filter_eq_self]
  exact fun _ _ => decide_eq_true (.inr rfl)

/-- The last of them delivers an empty name. -/
theorem root_last (hne : ms ≠ [])
    (hall : (A.headers.take 32).map Header.name = ms.map Member.name ++ [[]]) :
    [] ∈ (counted A [47]).tail.map (entryOf [47]) := by
  rw [counted_root hall, List.tail_append_of_ne_nil (by simpa using hne)]
  exact List.mem_map.mpr ⟨[], by simp, rfl⟩

/-- Nothing lists as what is below `/`. -/
theorem below_root_ne (hne : ms ≠ [])
    (hall : (A.headers.take 32).map Header.name = ms.map Member.name ++ [[]]) :
    below ms [47] ≠ (counted A [47]).tail.map (entryOf [47]) := by
  intro heq
  have hlast := root_last hne hall
  rw [← heq] at hlast
  obtain ⟨n, hn, hnil⟩ := List.mem_map.mp hlast
  obtain ⟨⟨s, rfl⟩, hproper⟩ : [47] <+: n ∧ n ≠ [47] := by
    simpa using (List.mem_filter.mp hn).2
  obtain rfl : s = [] := by simpa using hnil
  exact hproper rfl

theorem counted_dir (hlen : 2 ≤ d.length)
    (hall : (A.headers.take 32).map Header.name = ms.map Member.name ++ [[]]) :
    counted A d = (ms.map Member.name).filter fun n => n.take 2 = d.take 2 := by
  have hd : d ≠ [47] := by
    rintro rfl
    simp at hlen
  have hq : ∀ n, Counted d n ↔ n.take 2 = d.take 2 := fun n => by
    rw [Counted, startsWith_pos_iff hlen, or_iff_left hd]
  have hnil : ¬ ([] : List UInt8).take 2 = d.take 2 := by
    intro hnil
    have hzero := congrArg List.length hnil
    simp only [List.take_nil, List.length_nil, List.length_take] at hzero
    omega
  rw [counted, hall, List.filter_append]
  simp only [hq]
  rw [List.filter_cons_of_neg (by simpa using hnil), List.filter_nil, List.append_nil]

end Open

/-- What is listed is what is below exactly when the directory's name is there once, and
every other name that counts is below. -/
theorem below_eq_iff {ms : List Member} (horder : Ordered ms) {d : List UInt8}
    (hlen : 2 ≤ d.length) (hslash : d.getLast? = some 47) (hin : d ∈ ms.map Member.name) :
    below ms d =
        ((ms.map Member.name).filter fun n => n.take 2 = d.take 2).tail.map (entryOf d) ↔
      (ms.map Member.name).count d = 1 ∧
        ∀ m ∈ ms, m.name.take 2 = d.take 2 → m.name ≠ d → d <+: m.name := by
  have hpq : ∀ n, d <+: n ∧ n ≠ d → n.take 2 = d.take 2 := by
    rintro n ⟨⟨s, rfl⟩, -⟩
    exact List.take_append_of_le_length hlen
  constructor
  · intro heq
    have hnum := congrArg List.length heq
    have hpos : 0 < ((ms.map Member.name).filter fun n => n.take 2 = d.take 2).length :=
      List.length_pos_of_mem (List.mem_filter.mpr ⟨hin, by simp⟩)
    simp only [below, List.length_map, List.length_tail] at hnum
    obtain ⟨hone, hothers⟩ := length_filter hpq rfl (fun h => h.2 rfl) hin (by omega)
    refine ⟨hone, fun m hm htake hmd => ?_⟩
    exact (hothers m.name (List.mem_map_of_mem hm) htake hmd).1
  · rintro ⟨hone, hothers⟩
    have hpair : (ms.map Member.name).Pairwise fun n n' =>
        ¬ (n'.getLast? = some 47 ∧ n' <+: n ∧ n' ≠ n) := List.pairwise_map.mpr horder
    rw [tail_filter hpq rfl (fun h => h.2 rfl) hone]
    · rw [below]
      refine (List.map_congr_left fun n hn => ?_).symm
      have hbelow : d <+: n ∧ n ≠ d := by simpa using (List.mem_filter.mp hn).2
      exact entryOf_below hbelow.1
    · intro n hn htake hnd
      obtain ⟨m, hm, rfl⟩ := List.mem_map.mp hn
      exact ⟨hothers m hm htake hnd, hnd⟩
    · intro front back hsplit n hn hbelow
      rw [hsplit] at hpair
      exact (List.pairwise_append.mp hpair).2.2 n hn d (by simp)
        ⟨hslash, hbelow.1, hbelow.2.symm⟩

/-- A listing is complete and exact: for a directory of the archive exactly when
its path fits, no other member has its name, and every other whose name begins
with the same two characters is below; for the root, only if there is no member. -/
theorem readdir_lists_iff (ms : List Member) (z start : Nat) (byte : Nat → UInt8) (A : Archive)
    (hms : ms.length < 32) (hz : 2 ≤ z ∧ z ≤ 20) (himage : Holds byte start (image ms z))
    (hA : initTarfs byte start (start + (image ms z).length) = some A) (horder : Ordered ms)
    (f : Files) (around : Around) :
    (∀ path d, (∃ m ∈ ms, m.name = d) → d.getLast? = some 47 → setTruePath f.currDir path = d →
      (f.ListsDir A path around (below ms d) ↔
        (filePath f.currDir path).length < 50 ∧ d ≠ [47] ∧ (ms.map Member.name).count d = 1 ∧
          ∀ m ∈ ms, m.name.take 2 = d.take 2 → m.name ≠ d → d <+: m.name)) ∧
      (f.ListsDir A [47] around (ms.map Member.name) ↔ ms = []) := by
  have hall := image_names hms hz himage hA
  refine ⟨fun path d hmem hslash hpath => ?_, ?_⟩
  · have hin : d ∈ ms.map Member.name := by simpa using hmem
    have hheader : ∃ h ∈ A.headers.take 32, h.name = d := by
      rw [← List.mem_map (f := Header.name), hall]
      exact List.mem_append_left _ hin
    rw [listsDir_iff hpath hslash hheader]
    refine and_congr_right fun _ => ?_
    by_cases hd47 : d = [47]
    · -- listed like the root
      subst hd47
      exact iff_of_false (below_root_ne (by rintro rfl; simp at hin) hall) (fun h => h.1 rfl)
    · have hlen : 2 ≤ d.length := by
        match d, hslash, hd47 with
        | [x], hx, hne47 => exact absurd (by simpa using hx) (by simpa using hne47)
        | _ :: _ :: _, _, _ => simp
      rw [counted_dir hlen hall, below_eq_iff horder hlen hslash hin, and_iff_right hd47]
  · rw [listsDir_root_iff]
    constructor
    · intro heq
      by_contra hne
      have hlast := root_last hne hall
      rw [← heq] at hlast
      obtain ⟨m, -, hm⟩ := List.mem_map.mp hlast
      exact m.name_ne hm
    · rintro rfl
      rw [counted_root hall]
      rfl

/-- An archive with `a/` and `a/b`: the directory lists `b`. -/
theorem readdir_lists_iff_one :
    ∃ (ms : List Member) (byte : Nat → UInt8) (A : Archive),
      ms.map Member.name = [[97, 47], [97, 47, 98]] ∧
      initTarfs byte 4096 (4096 + (image ms 2).length) = some A ∧
      ∀ around, bootUsage.sys.cur.ListsDir A [47, 97, 47] around [[98]] := by
  obtain ⟨ms, -, hnames⟩ := @exists_files [[97, 47], [97, 47, 98]] (by decide)
  have hcount : ms.length = 2 := by simpa using congrArg List.length hnames
  have himage := holds_imageAt 4096 ms 2
  have hA := initTarfs_image (by omega) (by decide) himage
  have horder : Ordered ms := by
    refine List.pairwise_map.mp (?_ : (ms.map Member.name).Pairwise fun n n' =>
      ¬ (n'.getLast? = some 47 ∧ n' <+: n ∧ n' ≠ n))
    rw [hnames]
    decide
  have hin : ∀ m ∈ ms, m.name = [97, 47] ∨ m.name = [97, 47, 98] := by
    intro m hm
    have hmem : m.name ∈ ms.map Member.name := List.mem_map_of_mem hm
    simpa [hnames] using hmem
  have hdir : ∃ m ∈ ms, m.name = [97, 47] := by
    rw [← List.mem_map (f := Member.name), hnames]
    simp
  have hbelow : below ms [97, 47] = [[98]] := by
    rw [below, hnames]
    decide
  refine ⟨ms, _, _, hnames, hA, fun around => ?_⟩
  rw [← hbelow]
  refine ((readdir_lists_iff ms 2 4096 _ _ (by omega) (by decide) himage hA horder
    bootUsage.sys.cur around).1 [47, 97, 47] [97, 47] hdir rfl (by decide +kernel)).mpr
    ⟨by decide, by decide, by rw [hnames]; decide, fun m hm _ _ => ?_⟩
  obtain hname | hname := hin m hm
  · rw [hname]
  · rw [hname]
    decide

/-- A file in the root: the listing has an empty name in its place. -/
theorem readdir_root_nameless : ¬ ∃ around, ∀ (ms : List Member) (z start : Nat)
    (byte : Nat → UInt8) (A : Archive), ms.length < 32 → 2 ≤ z ∧ z ≤ 20 →
    Holds byte start (image ms z) →
      initTarfs byte start (start + (image ms z).length) = some A → Ordered ms → ∀ f : Files,
      (∀ path d, (∃ m ∈ ms, m.name = d) → d.getLast? = some 47 → setTruePath f.currDir path = d →
        f.ListsDir A path around (below ms d)) ∧
        f.ListsDir A [47] around (ms.map Member.name) := by
  rintro ⟨around, hall⟩
  obtain ⟨ms, -, hnames⟩ := @exists_files [[97]] (by decide)
  have hcount : ms.length = 1 := by simpa using congrArg List.length hnames
  have himage := holds_imageAt 4096 ms 2
  have hA := initTarfs_image (by omega) (by decide) himage
  have horder : Ordered ms := by
    obtain ⟨m, rfl⟩ := List.length_eq_one_iff.mp hcount
    exact List.pairwise_singleton _ _
  have hlists := (hall ms 2 4096 _ _ (by omega) (by decide) himage hA horder bootUsage.sys.cur).2
  have hlast := root_last (by rintro rfl; simp at hcount)
    (image_names (by omega) (by decide) himage hA)
  rw [← listsDir_root_iff.mp hlists, hnames] at hlast
  exact absurd hlast (by decide)

end X86Kernel.Fs
