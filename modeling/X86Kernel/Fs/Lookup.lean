import X86Kernel.Fs.Ustar

/-!
The two ways to find a member: `get_file_address`, which `execvpe` uses and
which looks at every header, and `isfileexists`, which everything else uses and
which resolves a path first and looks at the first 32.
-/

namespace X86Kernel.Fs

open Lib

section Path

def NoDots (s : List UInt8) : Prop := ¬ [46, 46] <:+: s

instance (s : List UInt8) : Decidable (NoDots s) := inferInstanceAs (Decidable (¬ _))

theorem NoDots.tail {x : UInt8} {s : List UInt8} (h : NoDots (x :: s)) : NoDots s :=
  fun hin => h (hin.trans (List.suffix_cons x s).isInfix)

theorem cstr_eq_strAt (n : Nat) (buf : Int → UInt8) (a : Nat) :
    cstr n buf a = strAt (fun i : Nat => buf i) n a := by
  induction n generalizing a with
  | zero => rfl
  | succ n ih =>
      have htail := ih (a + 1)
      push_cast at htail
      rw [cstr, strAt, htail]

/-- A byte that does not begin `..` is copied. -/
theorem truePathLoop_cons {x : UInt8} {rest : List UInt8} (h : x = 46 → rest.head? ≠ some 46)
    (abs : Int → UInt8) (a : Int) :
    truePathLoop (x :: rest) abs a = truePathLoop rest (Function.update abs a x) (a + 1) := by
  rw [truePathLoop]
  rintro rest' rfl rfl
  exact h rfl rfl

/-- Without `..` the loop copies. -/
theorem truePathLoop_append {s rest : List UInt8} (hs : NoDots s) (hrest : rest.head? ≠ some 46)
    (abs : Int → UInt8) (a : Nat) :
    ∃ abs', truePathLoop (s ++ rest) abs a = truePathLoop rest abs' ((a + s.length : Nat) : Int) ∧
      Holds (fun i : Nat => abs' i) a s ∧ ∀ j : Nat, j < a → abs' j = abs j := by
  induction s generalizing abs a with
  | nil => exact ⟨abs, rfl, Holds.nil, fun _ _ => rfl⟩
  | cons x s ih =>
      have hx : x = 46 → (s ++ rest).head? ≠ some 46 := by
        rintro rfl hhead
        cases s with
        | nil => exact hrest hhead
        | cons y s =>
            obtain rfl : y = 46 := by simpa using hhead
            exact hs ⟨[], s, rfl⟩
      obtain ⟨abs', hloop, hholds, hbefore⟩ := ih hs.tail (Function.update abs a x) (a + 1)
      refine ⟨abs', ?_, holds_cons.mpr ⟨?_, hholds⟩, fun j hj => ?_⟩
      · rw [List.cons_append, truePathLoop_cons hx, List.length_cons, Nat.add_comm s.length,
          ← Nat.add_assoc, ← hloop]
        push_cast
        rfl
      · rw [hbefore a (by omega), Function.update_self]
      · rw [hbefore j (by omega), Function.update_of_ne (by omega)]

/-- What the loop leaves is closed with a NUL behind the cursor. -/
theorem cstr_behind {abs : Int → UInt8} {s : List UInt8} (h : Holds (fun i : Nat => abs i) 0 s)
    (hnul : (0 : UInt8) ∉ s) (hlen : s.length < 100) :
    cstr 100 (Function.update (Function.update abs s.length 0) (s.length + 1) 0) 0 = s := by
  have hcstr := cstr_eq_strAt 100
    (Function.update (Function.update abs s.length 0) (s.length + 1) 0) 0
  refine hcstr.trans (Holds.strAt (holds_append.mpr ⟨?_, ?_⟩) hnul hlen)
  · intro i x hx
    have hi : i < s.length := (List.getElem?_eq_some_iff.mp hx).1
    simp only [Nat.zero_add]
    rw [Function.update_of_ne (by omega), Function.update_of_ne (by omega)]
    simpa using h i x hx
  · refine holds_cons.mpr ⟨?_, Holds.nil⟩
    rw [Function.update_of_ne (by omega)]
    simp

/-- The path that `setTruePath` works on: an absolute path without its slash, or
a relative one behind the current directory. -/
def filePath (currDir path : List UInt8) : List UInt8 :=
  if path.head? = some 47 then path.drop 1 else currDir.drop 1 ++ path

/-- The buffer before the loop: the path, cut off at its beginning. -/
def pathBuffer (path : List UInt8) : Int → UInt8 :=
  Function.update (fun j => path.getD j.toNat 0) 0 0

theorem setTruePath_eq {currDir path : List UInt8} {abs : Int → UInt8} {a : Int}
    (h : truePathLoop (filePath currDir path) (pathBuffer path) 0 = (abs, a)) :
    setTruePath currDir path =
      cstr 100 (Function.update (Function.update abs a 0) (a + 1) 0) 0 := by
  have hset : setTruePath currDir path =
      let r := truePathLoop (filePath currDir path) (pathBuffer path) 0
      cstr 100 (Function.update (Function.update r.1 r.2 0) (r.2 + 1) 0) 0 := rfl
  rw [hset, h]

/-- A path without `..` resolves to itself. -/
theorem setTruePath_plain {currDir path : List UInt8} (h : NoDots (filePath currDir path))
    (hnul : (0 : UInt8) ∉ filePath currDir path) (hlen : (filePath currDir path).length < 100) :
    setTruePath currDir path = filePath currDir path := by
  obtain ⟨abs', hloop, hholds, -⟩ := @truePathLoop_append _ [] h (by simp) (pathBuffer path) 0
  rw [List.append_nil, Nat.zero_add, truePathLoop] at hloop
  rw [setTruePath_eq hloop, cstr_behind hholds hnul hlen]

theorem filePath_absolute (currDir n : List UInt8) : filePath currDir (47 :: n) = n := rfl

/-- An absolute path without `..` resolves to the name behind its slash. -/
theorem setTruePath_absolute {n : List UInt8} (currDir : List UInt8) (h : NoDots n)
    (hnul : (0 : UInt8) ∉ n) (hlen : n.length < 100) : setTruePath currDir (47 :: n) = n :=
  @setTruePath_plain currDir (47 :: n) h hnul hlen

end Path

/-- The header that `isfileexists` finds, by its address. -/
def openAddress (A : Archive) (currDir path : List UInt8) : Option Nat :=
  (isfileexists A currDir path).bind fun i => (A.headers[i]?).map Header.address

/-- The header that `get_file_address` finds, unless it returns -1. -/
def execAddress (A : Archive) (filename : List UInt8) : Option Nat :=
  if getFileAddress A filename = 2 ^ 64 - 1 then none else some (getFileAddress A filename)

section Agree

variable {A : Archive} {currDir n : List UInt8}

theorem execAddress_eq (haddr : ∀ h ∈ A.headers, h.address ≠ 2 ^ 64 - 1) (n : List UInt8) :
    execAddress A n = (A.headers.find? fun h => n = h.name).map Header.address := by
  unfold execAddress getFileAddress
  cases hfind : A.headers.find? fun h => n = h.name with
  | none => simp
  | some h => simpa using haddr h (List.mem_of_find?_eq_some hfind)

/-- The first of the first 32 headers with the name. -/
theorem isfileexists_bind {path : List UInt8} (h : setTruePath currDir path = n) :
    ((isfileexists A currDir path).bind fun i => A.headers[i]?) =
      (A.headers.take 32).find? fun h => n = h.name := by
  unfold isfileexists
  rw [h]
  have hpred : (fun hd : Header => decide (hd.name = n)) = fun hd => decide (n = hd.name) := by
    funext hd
    simp [eq_comm]
  rw [hpred, List.find?_eq_bind_findIdx?_getElem?]
  cases hidx : (A.headers.take 32).findIdx? fun hd => n = hd.name with
  | none => rfl
  | some i =>
      have hlt : i < (A.headers.take 32).length := (List.findIdx?_eq_some_iff_getElem.mp hidx).1
      have hi : i < 32 := by
        rw [List.length_take] at hlt
        omega
      simp [List.getElem?_take, hi]

theorem openAddress_eq (h : setTruePath currDir (47 :: n) = n) :
    openAddress A currDir (47 :: n) =
      ((A.headers.take 32).find? fun h => n = h.name).map Header.address := by
  rw [← isfileexists_bind h, openAddress, Option.map_bind]
  rfl

/-- The two searches find the same, unless the name comes behind the first 32
headers only. -/
theorem openAddress_eq_execAddress_iff (haddr : ∀ h ∈ A.headers, h.address ≠ 2 ^ 64 - 1)
    (h : setTruePath currDir (47 :: n) = n) :
    openAddress A currDir (47 :: n) = execAddress A n ↔
      (∀ h ∈ A.headers, h.name ≠ n) ∨ ∃ h ∈ A.headers.take 32, h.name = n := by
  rw [openAddress_eq h, execAddress_eq haddr]
  have hsplit : A.headers.find? (fun h => n = h.name) =
      ((A.headers.take 32).find? fun h => n = h.name).or
        ((A.headers.drop 32).find? fun h => n = h.name) := by
    rw [← List.find?_append, List.take_append_drop]
  cases hfirst : (A.headers.take 32).find? fun h => n = h.name with
  | some hd =>
      have hname : n = hd.name := by simpa using List.find?_some hfirst
      rw [hsplit, hfirst]
      refine iff_of_true rfl (.inr ⟨hd, List.mem_of_find?_eq_some hfirst, hname.symm⟩)
  | none =>
      have hno : ¬ ∃ h ∈ A.headers.take 32, h.name = n := by
        rintro ⟨hd, hmem, hname⟩
        have := List.find?_eq_none.mp hfirst hd hmem
        simp [hname] at this
      rw [or_iff_left hno, Option.map_none, eq_comm, Option.map_eq_none_iff, List.find?_eq_none]
      simp [eq_comm]

end Agree

/-- Every header that is indexed lies in the archive. -/
theorem initLoop_lt {byte : Nat → UInt8} {fin n address : Nat} {l : List Nat}
    (h : initLoop byte fin n address = some l) : ∀ a ∈ l, a < fin := by
  induction n generalizing address l with
  | zero =>
      rw [initLoop] at h
      split_ifs at h
      obtain rfl := Option.some.inj h
      simp
  | succ n ih =>
      rw [initLoop] at h
      split_ifs at h with hlt
      · obtain ⟨l', hl', rfl⟩ := Option.map_eq_some_iff.mp h
        intro a ha
        obtain rfl | ha := List.mem_cons.mp ha
        · exact hlt
        · exact ih hl' a ha
      · obtain rfl := Option.some.inj h
        simp

theorem initTarfs_address {byte : Nat → UInt8} {start fin : Nat} {A : Archive}
    (hA : initTarfs byte start fin = some A) (hfin : fin < 2 ^ 64) :
    ∀ h ∈ A.headers, h.address ≠ 2 ^ 64 - 1 := by
  obtain ⟨l, hl, rfl⟩ := Option.map_eq_some_iff.mp hA
  intro h hh
  obtain ⟨a, ha, rfl⟩ := List.mem_map.mp hh
  have hlt := initLoop_lt hl a ha
  change a ≠ 2 ^ 64 - 1
  omega

/-- The two lookups agree about a name exactly when one of the first 32 headers
has it, or none at all. -/
theorem lookups_agree_iff (byte : Nat → UInt8) (start fin : Nat) (A : Archive)
    (hA : initTarfs byte start fin = some A) (hfin : fin < 2 ^ 64) (currDir n : List UInt8)
    (hnul : (0 : UInt8) ∉ n) (hdots : NoDots n) (hlen : n.length < 49) :
    openAddress A currDir (47 :: n) = execAddress A n ↔
      (∀ h ∈ A.headers, h.name ≠ n) ∨ ∃ h ∈ A.headers.take 32, h.name = n := by
  exact openAddress_eq_execAddress_iff (initTarfs_address hA hfin)
    (setTruePath_absolute currDir hdots hnul (by omega))

/-- Empty files with given names. -/
theorem exists_files {names : List (List UInt8)}
    (h : ∀ n ∈ names, n ≠ [] ∧ (0 : UInt8) ∉ n ∧ n.length ≤ 99) :
    ∃ ms : List Member, (∀ m ∈ ms, m.size = 0) ∧ ms.map Member.name = names := by
  refine ⟨names.pmap (fun n hn => emptyFile n hn.1 hn.2.1 hn.2.2) h, ?_, ?_⟩
  · intro m hm
    obtain ⟨n, hn, rfl⟩ := List.mem_pmap.mp hm
    rfl
  · rw [List.map_pmap]
    exact List.pmap_eq_self.mpr fun n hn => rfl

/-- An archive of empty files, as it is indexed: the first zero block is taken
for a header without a name. -/
theorem index_files {names : List (List UInt8)}
    (h : ∀ n ∈ names, n ≠ [] ∧ (0 : UInt8) ∉ n ∧ n.length ≤ 99) (hcount : names.length ≤ 199) :
    ∃ byte fin A, initTarfs byte 4096 fin = some A ∧ fin < 2 ^ 64 ∧
      A.headers.map Header.name = names ++ [[]] := by
  obtain ⟨ms, hsize, hms⟩ := exists_files h
  have hmem := holds_imageAt 4096 ms 2
  have hlen : (ms.flatMap Member.bytes).length = 512 * ms.length := by
    clear hms hmem
    induction ms with
    | nil => rfl
    | cons m ms ih =>
        rw [List.flatMap_cons, List.length_append, Member.bytes_length_empty (hsize m (by simp)),
          ih (fun m' hm' => hsize m' (by simp [hm'])), List.length_cons]
        omega
  have hms_le : ms.length ≤ 199 := by rwa [← hms, List.length_map] at hcount
  have hfin : 4096 + (image ms 2).length < 2 ^ 64 := by
    rw [image, List.length_append, List.length_replicate, hlen]
    omega
  refine ⟨_, _, _, initTarfs_image hms_le (by omega) hmem, hfin, ?_⟩
  rw [List.map_append, addresses_names hmem.left, List.map_singleton,
    image_last_name (by omega) hmem, hms]

/-- `n` files `a` and one file `b` behind them. -/
theorem index_behind (n : Nat) (hn : n < 199) :
    ∃ byte fin A, initTarfs byte 4096 fin = some A ∧ fin < 2 ^ 64 ∧
      A.headers.map Header.name = List.replicate n [97] ++ [[98], []] := by
  have hnames : ∀ name ∈ List.replicate n ([97] : List UInt8) ++ [[98]],
      name ≠ [] ∧ (0 : UInt8) ∉ name ∧ name.length ≤ 99 := by
    intro name hmem
    obtain hmem | hmem := List.mem_append.mp hmem
    · rw [List.eq_of_mem_replicate hmem]
      decide
    · rw [List.mem_singleton.mp hmem]
      decide
  obtain ⟨byte, fin, A, hA, hfin, hindex⟩ := index_files hnames (by simp; omega)
  exact ⟨byte, fin, A, hA, hfin, by rw [hindex, List.append_assoc]; rfl⟩

/-- One file, found by both. -/
theorem lookups_agree_iff_one :
    ∃ byte fin A, initTarfs byte 4096 fin = some A ∧
      openAddress A [47] [47, 98] = execAddress A [98] := by
  obtain ⟨byte, fin, A, hA, hfin, hnames⟩ := index_behind 0 (by decide)
  refine ⟨byte, fin, A, hA, (lookups_agree_iff byte 4096 fin A hA hfin [47] [98] (by decide)
    (by decide) (by decide)).mpr (.inr ?_)⟩
  obtain ⟨h, hh, hname⟩ : ∃ h ∈ A.headers, h.name = [98] := by
    rw [← List.mem_map (f := Header.name), hnames]
    simp
  refine ⟨h, ?_, hname⟩
  rwa [List.take_of_length_le]
  have hlen := congrArg List.length hnames
  simp only [List.length_map] at hlen
  simp [hlen]

/-- Behind 32 other files, a file can be executed but not opened. -/
theorem lookups_disagree :
    ¬ ∀ (byte : Nat → UInt8) (start fin : Nat) (A : Archive), initTarfs byte start fin = some A →
      fin < 2 ^ 64 → ∀ (currDir : List UInt8), ∀ h ∈ A.headers, NoDots h.name →
      h.name.length < 49 → openAddress A currDir (47 :: h.name) = execAddress A h.name := by
  intro hall
  obtain ⟨byte, fin, A, hA, hfin, hnames⟩ := index_behind 32 (by decide)
  obtain ⟨h, hh, hname⟩ : ∃ h ∈ A.headers, h.name = [98] := by
    rw [← List.mem_map (f := Header.name), hnames]
    simp
  have hagree := hall byte 4096 fin A hA hfin [47] h hh (by rw [hname]; decide)
    (by rw [hname]; decide)
  rw [hname, openAddress_eq_execAddress_iff (initTarfs_address hA hfin)
    (setTruePath_absolute [47] (by decide) (by decide) (by decide))] at hagree
  obtain hno | ⟨h₁, hmem, hb⟩ := hagree
  · exact hno h hh hname
  · have hin : h₁.name ∈ (A.headers.take 32).map Header.name := List.mem_map_of_mem hmem
    rw [List.map_take, hnames, List.take_append_of_le_length (by simp),
      List.take_of_length_le (by simp)] at hin
    rw [List.eq_of_mem_replicate hin] at hb
    simp at hb

end X86Kernel.Fs
