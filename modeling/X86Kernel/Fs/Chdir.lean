import X86Kernel.Fs.Directory
import X86Kernel.Fs.TruePath

/-!
Changing the directory, from the library's `chdir` on. A directory below the root
is entered by the header of its member. The root has none: it is reached by `../`,
and otherwise only through the nameless header behind the members, whose last
character is the byte that stands in front of it.
-/

namespace X86Kernel.Fs

open Lib

/-- `chdir` of `process.c` with its buffers, `file_path[50]` and `curr_dir[50]`;
`none` when a string does not fit. -/
def Files.chdirFits (A : Archive) (f : Files) (path : List UInt8) : Option (Int × Files) :=
  if (filePath f.currDir path).length < 50 then
    if (f.chdir A path).2.currDir.length < 50 then some (f.chdir A path) else none
  else none

/-- `chdir` of the library, which has `a[40]` for the path and its slash. Of an
empty path it reads the byte in front. -/
def Files.libcChdir (A : Archive) (f : Files) (path : List UInt8) : Option (Int × Files) :=
  if path ≠ [] ∧ (withSlash path).length < 40 then f.chdirFits A (withSlash path) else none

/-- The root, or the name of a member that ends with a slash. -/
def IsPlace (ms : List Member) (goal : List UInt8) : Prop :=
  goal = [] ∨ ∃ m ∈ ms, m.name = goal ∧ m.name.getLast? = some 47

/-- `chdir` goes where `goal` says if that is a place, and fails without a trace if
it is none. -/
def GoesTo (A : Archive) (ms : List Member) (f : Files) (path goal : List UInt8) : Prop :=
  ∃ ret f', f.libcChdir A path = some (ret, f') ∧
    (IsPlace ms goal → ret = 0 ∧ f' = { f with currDir := 47 :: goal }) ∧
    (¬ IsPlace ms goal → ret = -1 ∧ f' = f)

theorem ne_nil_of_slash {name : List UInt8} (hslash : name.getLast? = some 47) : name ≠ [] := by
  rintro rfl
  simp at hslash

section Find

variable {A : Archive} {currDir path : List UInt8} {l : List Header} {hd : Header}

/-- The root is found at the nameless header. -/
theorem isValidDirectory_root (hA : A.headers = l ++ [hd]) (hshort : l.length < 32)
    (hnames : ∀ h ∈ l, h.name ≠ []) (hnone : hd.name = [])
    (hroot : setTruePath currDir path = []) :
    (isValidDirectory A currDir path).isSome ↔ A.byte (hd.address - 1) = 47 := by
  have hfind : isfileexists A currDir path = some l.length := by
    have hbefore : l.findIdx? (fun h => decide (h.name = [])) = none := by
      simpa [List.findIdx?_eq_none_iff] using hnames
    rw [isfileexists, hroot, List.take_of_length_le (by simp [hA]; omega), hA, List.findIdx?_append,
      hbefore]
    simp [hnone]
  have hget : A.headers[l.length]? = some hd := by simp [hA]
  simp only [isValidDirectory, hfind, Option.filter_some, hget, Option.map_some, lastByte, hnone,
    List.getLast?_nil, Option.getD_none, Option.some_inj, decide_eq_true_eq]
  split_ifs with hbyte <;> simp [hbyte]

/-- Any other directory is found at a header of its name. -/
theorem isValidDirectory_named {goal : List UInt8} (hshort : A.headers.length ≤ 32)
    (hgoal : setTruePath currDir path = goal) (hslash : goal.getLast? = some 47) :
    (isValidDirectory A currDir path).isSome ↔ ∃ h ∈ A.headers, h.name = goal := by
  constructor
  · intro hsome
    obtain ⟨n, hn⟩ := Option.isSome_iff_exists.mp hsome
    obtain ⟨h, hmem, hname, -⟩ := isValidDirectory_some hn
    exact ⟨h, List.mem_of_mem_take hmem, hname.trans hgoal⟩
  · intro hmem
    refine isValidDirectory_isSome hgoal hslash ?_
    rwa [List.take_of_length_le hshort]

end Find

section Image

variable {ms : List Member} {z start : Nat} {byte : Nat → UInt8} {A : Archive}

/-- The headers of an archive: those of its members, and a nameless one. -/
theorem image_headers (hms : ms.length < 32) (hz : 2 ≤ z ∧ z ≤ 20)
    (himage : Holds byte start (image ms z))
    (hA : initTarfs byte start (start + (image ms z).length) = some A) :
    ∃ l hd, A.headers = l ++ [hd] ∧ l.map Header.name = ms.map Member.name ∧ hd.name = [] ∧
      hd.address = start + (ms.flatMap Member.bytes).length ∧ A.byte = byte := by
  rw [initTarfs_image (by omega) ⟨by omega, hz.2⟩ himage] at hA
  obtain rfl := Option.some.inj hA
  exact ⟨_, _, rfl, addresses_names himage.left, image_last_name (by omega) himage, rfl, rfl⟩

variable {currDir path goal : List UInt8}

theorem isValidDirectory_image_root (hms : ms.length < 32) (hz : 2 ≤ z ∧ z ≤ 20)
    (himage : Holds byte start (image ms z))
    (hA : initTarfs byte start (start + (image ms z).length) = some A)
    (hroot : setTruePath currDir path = []) :
    (isValidDirectory A currDir path).isSome ↔
      byte (start + (ms.flatMap Member.bytes).length - 1) = 47 := by
  obtain ⟨l, hd, hheaders, hnames, hnone, haddr, hbyte⟩ := image_headers hms hz himage hA
  have hcount : l.length = ms.length := by
    simpa using congrArg List.length hnames
  have hnamed : ∀ h ∈ l, h.name ≠ [] := by
    intro h hh
    have hmem : h.name ∈ ms.map Member.name := hnames ▸ List.mem_map_of_mem hh
    obtain ⟨m, -, hm⟩ := List.mem_map.mp hmem
    exact hm ▸ m.name_ne
  rw [isValidDirectory_root hheaders (by omega) hnamed hnone hroot, haddr, hbyte]

theorem isValidDirectory_image_named (hms : ms.length < 32) (hz : 2 ≤ z ∧ z ≤ 20)
    (himage : Holds byte start (image ms z))
    (hA : initTarfs byte start (start + (image ms z).length) = some A)
    (hgoal : setTruePath currDir path = goal) (hslash : goal.getLast? = some 47) :
    (isValidDirectory A currDir path).isSome ↔ ∃ m ∈ ms, m.name = goal := by
  obtain ⟨l, hd, hheaders, hnames, hnone, -, -⟩ := image_headers hms hz himage hA
  have hcount : l.length = ms.length := by
    simpa using congrArg List.length hnames
  have hne := ne_nil_of_slash hslash
  rw [isValidDirectory_named (by simp [hheaders]; omega) hgoal hslash,
    ← List.mem_map (f := Header.name), ← List.mem_map (f := Member.name), hheaders,
    List.map_append, hnames]
  simp [hnone, hne]

theorem isPlace_iff (hslash : goal.getLast? = some 47) :
    IsPlace ms goal ↔ ∃ m ∈ ms, m.name = goal := by
  have hne := ne_nil_of_slash hslash
  simp only [IsPlace, hne, false_or]
  constructor
  · rintro ⟨m, hm, hname, -⟩
    exact ⟨m, hm, hname⟩
  · rintro ⟨m, hm, rfl⟩
    exact ⟨m, hm, rfl, hslash⟩

end Image

/-- A path that ends with a slash leads to a directory, if it leads anywhere. -/
theorem PathText.setTruePath_dir {dirs : List (List UInt8)} (hdirs : ∀ c ∈ dirs, IsComponent c)
    {p : PathText} (hend : p.text.getLast? = some 47)
    (hfits : (filePath (47 :: rendered dirs) p.text).length < 50) :
    setTruePath (47 :: rendered dirs) p.text = rendered (normalise (p.fromRoot dirs)) := by
  have hwhole : (p.whole (47 :: rendered dirs)).getLast? = some 47 := by
    rw [PathText.whole]
    split_ifs
    · exact hend
    · rw [List.getLast?_append, hend]
      rfl
  rw [setTruePath_normalise dirs hdirs p hfits, hwhole, decide_eq_true rfl, slashed_true]

section Goes

variable {A : Archive} {ms : List Member} {f : Files} {path goal : List UInt8}

/-- The two ways into a directory. -/
theorem chdir_eq (hgoal : setTruePath f.currDir path = goal) :
    f.chdir A path =
      if path = [46, 46, 47] ∧ goal = [] ∨ (isValidDirectory A f.currDir path).isSome then
        (0, { f with currDir := 47 :: goal })
      else (-1, f) := by
  rw [Files.chdir, hgoal]
  by_cases hup : path = [46, 46, 47] ∧ goal = []
  · rw [if_pos hup, if_pos (.inl hup), hup.2]
  · simp only [hup, if_false, false_or]

theorem libcChdir_eq (hslash : path.getLast? = some 47) (hpath : path.length < 40)
    (hfile : (filePath f.currDir path).length < 50) :
    f.libcChdir A path =
      if (f.chdir A path).2.currDir.length < 50 then some (f.chdir A path) else none := by
  have hne := ne_nil_of_slash hslash
  have hsame : withSlash path = path := by rw [withSlash, if_pos hslash]
  rw [Files.libcChdir, hsame, if_pos ⟨hne, hpath⟩, Files.chdirFits, if_pos hfile]

/-- Strings that are too long. -/
theorem GoesTo.fits (hslash : path.getLast? = some 47) (h : GoesTo A ms f path goal) :
    path.length < 40 ∧ (filePath f.currDir path).length < 50 := by
  obtain ⟨ret, f', hrun, -⟩ := h
  have hsame : withSlash path = path := by rw [withSlash, if_pos hslash]
  rw [Files.libcChdir, hsame] at hrun
  split_ifs at hrun with hpath
  rw [Files.chdirFits] at hrun
  split_ifs at hrun with hfile
  exact ⟨hpath.2, hfile⟩

/-- Where the strings fit, all is well exactly if `chdir` enters what is a place,
and its name fits. -/
theorem goesTo_iff (hslash : path.getLast? = some 47) (hpath : path.length < 40)
    (hfile : (filePath f.currDir path).length < 50) (hlen : f.currDir.length < 50)
    (hgoal : setTruePath f.currDir path = goal) :
    GoesTo A ms f path goal ↔
      (IsPlace ms goal ↔
        path = [46, 46, 47] ∧ goal = [] ∨ (isValidDirectory A f.currDir path).isSome) ∧
      (IsPlace ms goal → goal.length < 49) := by
  rw [GoesTo, libcChdir_eq hslash hpath hfile, chdir_eq hgoal]
  by_cases hin : path = [46, 46, 47] ∧ goal = [] ∨ (isValidDirectory A f.currDir path).isSome
  · simp only [hin, if_true, List.length_cons, iff_true]
    by_cases hplace : IsPlace ms goal
    · simp [hplace]
      omega
    · simp [hplace]
  · simp only [hin, if_false, hlen, if_true, iff_false]
    by_cases hplace : IsPlace ms goal
    · simp [hplace]
    · simp [hplace]

end Goes

/-- `chdir` accepts exactly the directories, as long as its strings fit and the
root is asked for as `../`; under another name the root is accepted exactly when
the byte in front of the nameless header is a slash. -/
theorem chdir_goesTo_iff (ms : List Member) (z start : Nat) (byte : Nat → UInt8) (A : Archive)
    (hms : ms.length < 32) (hz : 2 ≤ z ∧ z ≤ 20) (himage : Holds byte start (image ms z))
    (hA : initTarfs byte start (start + (image ms z).length) = some A)
    (dirs : List (List UInt8)) (hdirs : ∀ c ∈ dirs, IsComponent c) (f : Files)
    (hcurr : f.currDir = 47 :: rendered dirs) (hlen : f.currDir.length < 50) (p : PathText)
    (hend : p.text.getLast? = some 47) :
    GoesTo A ms f p.text (rendered (normalise (p.fromRoot dirs))) ↔
      (p.text.length < 40 ∧ (filePath f.currDir p.text).length < 50 ∧
        ∀ m ∈ ms, m.name = rendered (normalise (p.fromRoot dirs)) → m.name.length < 49) ∧
      (normalise (p.fromRoot dirs) = [] →
        p.text = [46, 46, 47] ∨ byte (start + (ms.flatMap Member.bytes).length - 1) = 47) := by
  by_cases hfits : p.text.length < 40 ∧ (filePath f.currDir p.text).length < 50
  · obtain ⟨hpath, hfile⟩ := hfits
    have hgoal : setTruePath f.currDir p.text = rendered (normalise (p.fromRoot dirs)) := by
      rw [hcurr] at hfile ⊢
      exact PathText.setTruePath_dir hdirs hend hfile
    rw [goesTo_iff hend hpath hfile hlen hgoal]
    simp only [hpath, hfile, true_and]
    obtain hroot | hdeep := eq_or_ne (normalise (p.fromRoot dirs)) []
    · have hnot : ∀ m ∈ ms, m.name ≠ [] := fun m _ => m.name_ne
      rw [hroot, rendered_nil] at hgoal ⊢
      rw [isValidDirectory_image_root hms hz himage hA hgoal]
      simp +contextual [IsPlace, hnot]
    · have hlast := getLast?_rendered hdeep
      generalize rendered (normalise (p.fromRoot dirs)) = goal at hgoal hlast ⊢
      have hne := ne_nil_of_slash hlast
      rw [isValidDirectory_image_named hms hz himage hA hgoal hlast, isPlace_iff hlast]
      simp only [hne, hdeep, and_false, false_or, false_imp_iff, and_true, true_and]
      constructor
      · rintro hshort m hm rfl
        exact hshort ⟨m, hm, rfl⟩
      · rintro hshort ⟨m, hm, rfl⟩
        exact hshort m hm rfl
  · refine iff_of_false (fun hgo => hfits (hgo.fits hend)) ?_
    rintro ⟨⟨hpath, hfile, -⟩, -⟩
    exact hfits ⟨hpath, hfile⟩

/-- An archive with the directory `a/`, which the shell enters from the root. -/
theorem chdir_goesTo_iff_one :
    ∃ (m : Member) (byte : Nat → UInt8) (A : Archive), m.name = [97, 47] ∧
      initTarfs byte 4096 (4096 + (image [m] 2).length) = some A ∧
      GoesTo A [m] bootUsage.sys.cur [97, 47] [97, 47] := by
  have himage := holds_imageAt 4096 [emptyFile [97, 47] (by decide) (by decide) (by decide)] 2
  have hA := initTarfs_image (by decide) (by decide) himage
  refine ⟨_, _, _, rfl, hA, (chdir_goesTo_iff _ 2 4096 _ _ (by decide) (by decide) himage hA []
    (by simp) bootUsage.sys.cur rfl (by decide) ⟨false, [[97]], true, by decide⟩ rfl).mpr
    ⟨⟨by decide, by decide, ?_⟩, fun hroot => absurd hroot (by decide)⟩⟩
  intro m hm _
  rw [List.mem_singleton.mp hm]
  exact (by decide : [97, 47].length < 49)

/-- `chdir("/")` in the root. -/
theorem chdir_root_fails :
    ¬ ∀ (ms : List Member) (z start : Nat) (byte : Nat → UInt8) (A : Archive),
      ms.length < 32 → 2 ≤ z ∧ z ≤ 20 → Holds byte start (image ms z) →
      initTarfs byte start (start + (image ms z).length) = some A →
      ∀ (dirs : List (List UInt8)), (∀ c ∈ dirs, IsComponent c) → ∀ f : Files,
      f.currDir = 47 :: rendered dirs → f.currDir.length < 50 → ∀ p : PathText,
      p.text.getLast? = some 47 →
        GoesTo A ms f p.text (rendered (normalise (p.fromRoot dirs))) := by
  intro hall
  have himage := holds_imageAt 4096 [emptyFile [97] (by decide) (by decide) (by decide)] 2
  have hA := initTarfs_image (by decide) (by decide) himage
  have hgo := hall _ 2 4096 _ _ (by decide) (by decide) himage hA [] (by simp)
    bootUsage.sys.cur rfl (by decide) ⟨true, [], true, by simp⟩ rfl
  have hgoal : setTruePath [47] [47] = [] := by decide +kernel
  have haccept :=
    ((goesTo_iff rfl (by decide) (by decide) (by decide) hgoal).mp hgo).1.mp (.inl rfl)
  have hslash := (isValidDirectory_image_root (by decide) (by decide) himage hA hgoal).mp
    (haccept.resolve_left (by decide))
  rw [List.flatMap_singleton, Member.bytes_length_empty rfl] at hslash
  exact absurd hslash (by decide +kernel)

end X86Kernel.Fs
