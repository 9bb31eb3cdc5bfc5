import X86Kernel.Fs.Descriptors
import X86Kernel.Fs.Lookup
import X86Kernel.Fs.Sizes

/-!
What becomes of an open file. `read_tarfs` never moves the offset and clips at the
size that `octal_to_binary` made, so that a sequence of reads is what it should be
only as long as there is nothing to walk through. `close_tarfs` clears a copy of
the descriptor, so that a closed file can still be read.
-/

namespace X86Kernel.Fs

open Lib

def Files.Walks (A : Archive) (f : Files) (fd : Int) : List UInt8 → List Int → Prop
  | _, [] => True
  | rest, count :: counts =>
      let r := (f.readTarfs A fd count).1
      r.ret = min count rest.length ∧ r.out.take r.ret.toNat = rest.take count.toNat ∧
        (r.out.length : Int) ≤ count ∧
        Files.Walks A (f.readTarfs A fd count).2 fd (rest.drop count.toNat) counts

section Read

variable {A : Archive} {f : Files} {fd count : Int} {rest : List UInt8}

theorem readTarfs_files (A : Archive) (f : Files) (fd count : Int) :
    (f.readTarfs A fd count).2 = f := by
  simp only [Files.readTarfs]
  split_ifs <;> rfl

/-- A read of an open file: the smaller of `count` and the size, from the start of
the file, and a NUL behind. -/
theorem readTarfs_open (haval : (f.fd fd).aval = 1) (hpos : 0 < count) (hmax : count < 2 ^ 31) :
    (f.readTarfs A fd count).1 =
      { ret := min count (f.fd fd).size,
        out := (List.range (min count (f.fd fd).size).toNat).map
          (fun i => A.byte ((f.fd fd).address + 512 + i)) ++ [0] } := by
  have hopen : ¬ (f.fd fd).aval = 0 := by
    rw [haval]
    decide
  have hcount : count % 2 ^ 64 = count := Int.emod_eq_of_lt (by omega) (by omega)
  simp only [Files.readTarfs, if_neg hopen, if_neg (show ¬ count = 0 by omega), hcount]
  split_ifs with hsmall
  · rw [int32_eq_self (by omega) (by omega), min_eq_right (by omega)]
  · rw [min_eq_left (by omega)]

/-- The bytes that stand in memory are read as they are. -/
theorem map_range_holds {byte : Nat → UInt8} {a : Nat} (h : rest ≠ [] → Holds byte a rest) :
    (List.range rest.length).map (fun i => byte (a + i)) = rest := by
  refine List.ext_getElem (by simp) fun i hi hi' => ?_
  have hne : rest ≠ [] := List.ne_nil_of_length_pos (by omega)
  simpa using h hne i rest[i] (List.getElem?_eq_getElem hi')

/-- One read is right when there is less to read than it asks for. -/
theorem walks_cons (haval : (f.fd fd).aval = 1) (hpos : 0 < count) (hmax : count < 2 ^ 31)
    (hrest : rest ≠ [] → Holds A.byte ((f.fd fd).address + 512) rest) {counts : List Int} :
    f.Walks A fd rest (count :: counts) ↔
      (f.fd fd).size = rest.length ∧ rest.length < count ∧ f.Walks A fd [] counts := by
  rw [Files.Walks, readTarfs_files, readTarfs_open haval hpos hmax]
  simp only [List.length_append, List.length_map, List.length_range, List.length_singleton]
  constructor
  · rintro ⟨hret, -, hlen, hwalks⟩
    have hsize : (f.fd fd).size = rest.length := by omega
    have hless : (rest.length : Int) < count := by omega
    rw [List.drop_eq_nil_of_le (by omega)] at hwalks
    exact ⟨hsize, hless, hwalks⟩
  · rintro ⟨hsize, hless, hwalks⟩
    have hmin : min count ((f.fd fd).size : Int) = rest.length := by omega
    rw [hmin, Int.toNat_natCast, map_range_holds hrest, List.drop_eq_nil_of_le (by omega),
      List.take_of_length_le (by omega : rest.length ≤ count.toNat), List.take_left]
    exact ⟨by omega, rfl, by omega, hwalks⟩

/-- Reads behind the end. -/
theorem walks_nil_iff (haval : (f.fd fd).aval = 1) {counts : List Int}
    (hcounts : ∀ c ∈ counts, 0 < c ∧ c < 2 ^ 31) :
    f.Walks A fd [] counts ↔ counts = [] ∨ (f.fd fd).size = 0 := by
  induction counts with
  | nil => simp [Files.Walks]
  | cons c counts ih =>
      obtain ⟨hpos, hmax⟩ := hcounts c (by simp)
      rw [walks_cons haval hpos hmax (fun h => absurd rfl h),
        ih fun d hd => hcounts d (by simp [hd])]
      simp only [List.length_nil, reduceCtorEq, false_or]
      constructor
      · exact fun h => h.1
      · exact fun h => ⟨h, by simpa using hpos, .inr h⟩

/-- Reads from the beginning of a file. -/
theorem walks_iff (haval : (f.fd fd).aval = 1)
    (hbody : Holds A.byte ((f.fd fd).address + 512) rest) {counts : List Int}
    (hcounts : ∀ c ∈ counts, 0 < c ∧ c < 2 ^ 31) :
    f.Walks A fd rest counts ↔ counts = [] ∨ (f.fd fd).size = rest.length ∧
      (rest = [] ∨ ∃ c, counts = [c] ∧ rest.length < c) := by
  cases counts with
  | nil => simp [Files.Walks]
  | cons c counts =>
      obtain ⟨hpos, hmax⟩ := hcounts c (by simp)
      rw [walks_cons haval hpos hmax (fun _ => hbody),
        walks_nil_iff haval fun d hd => hcounts d (by simp [hd])]
      simp only [reduceCtorEq, false_or, List.cons.injEq]
      refine and_congr_right fun hsize => ?_
      constructor
      · rintro ⟨hless, rfl | hzero⟩
        · exact .inr ⟨c, ⟨rfl, rfl⟩, hless⟩
        · exact .inl (List.eq_nil_of_length_eq_zero (by omega))
      · rintro (rfl | ⟨d, ⟨rfl, rfl⟩, hless⟩)
        · exact ⟨by simpa using hpos, .inr (by simpa using hsize)⟩
        · exact ⟨hless, .inl rfl⟩

/-- Reads of a file that was just opened. -/
theorem install_walks_iff {h : Header} {flags : Option Int} {around : Around}
    (hbody : Holds A.byte (h.address + 512) rest) {counts : List Int}
    (hcounts : ∀ c ∈ counts, 0 < c ∧ c < 2 ^ 31) :
    (f.install h flags around).2.Walks A (f.install h flags around).1.ret rest counts ↔
      counts = [] ∨ octalToBinary around h.size = rest.length ∧
        (rest = [] ∨ ∃ c, counts = [c] ∧ rest.length < c) := by
  have hret : (f.install h flags around).1.ret = f.fdC + 3 := rfl
  generalize hf' : (f.install h flags around).2 = f'
  have haval : (f'.fd (f.fdC + 3)).aval = 1 := by simp [← hf', Files.install]
  have hsize : (f'.fd (f.fdC + 3)).size = octalToBinary around h.size := by
    simp [← hf', Files.install]
  have haddr : (f'.fd (f.fdC + 3)).address = h.address := by simp [← hf', Files.install]
  rw [hret, walks_iff haval (by rwa [haddr]) hcounts, hsize]

end Read

section Open

variable {A : Archive} {ms : List Member} {z start : Nat} {byte : Nat → UInt8} {m : Member}

theorem addresses_take (start : Nat) (ms : List Member) (k : Nat) :
    addresses start (ms.take k) = (addresses start ms).take k := by
  induction ms generalizing start k with
  | nil => simp [addresses]
  | cons m ms ih =>
      cases k with
      | zero => rfl
      | succ k => simp [addresses, ih]

/-- `open_tarfs` finds a member among the first 32. -/
theorem openTarfs_member (hms : ms.length ≤ 199) (hz : 2 ≤ z ∧ z ≤ 20)
    (himage : Holds byte start (image ms z))
    (hA : initTarfs byte start (start + (image ms z).length) = some A) {i : Nat} (hi : i < 32)
    (hm : ms[i]? = some m) (hfirst : ∀ j m', j < i → ms[j]? = some m' → m'.name ≠ m.name)
    {f : Files} {path : List UInt8} (hpath : setTruePath f.currDir path = m.name) (flags : Int)
    (around : Around) :
    f.openTarfs A path flags around =
        f.install (headerAt byte (start + offset ms i)) (some flags) around ∧
      Holds A.byte (start + offset ms i + 512) m.body := by
  rw [initTarfs_image hms ⟨by omega, hz.2⟩ himage] at hA
  obtain rfl := Option.some.inj hA
  have hfew : Holds byte start ((ms.take 32).flatMap Member.bytes) := by
    have hall := himage.left
    rw [← List.take_append_drop 32 ms, List.flatMap_append] at hall
    exact hall.left
  have hoff : offset (ms.take 32) i = offset ms i := by
    rw [offset, offset, List.take_take, min_eq_left (by omega)]
  obtain ⟨hfind, hbytes⟩ := @find_present _ _ _ m.name _ _ hfew
    (by rw [List.getElem?_take_of_lt hi]; exact hm) rfl
    (fun j m' hj hm' => hfirst j m' hj (by rwa [List.getElem?_take_of_lt (by omega)] at hm'))
  rw [hoff] at hfind hbytes
  rw [addresses_take, List.map_take] at hfind
  refine ⟨?_, (Member.holds_header hbytes).2⟩
  rw [Files.openTarfs, isfileexists_bind hpath, List.take_append, List.find?_append, hfind]
  rfl

end Open

/-- Successive reads of a file that was just opened are right exactly when there
are none, or `octal_to_binary` makes the right size of it and the file is empty, or
there is one read only, for more than the whole file. -/
theorem read_walks_iff (ms : List Member) (z start : Nat) (byte : Nat → UInt8) (A : Archive)
    (hms : ms.length ≤ 199) (hz : 2 ≤ z ∧ z ≤ 20) (himage : Holds byte start (image ms z))
    (hA : initTarfs byte start (start + (image ms z).length) = some A) (i : Nat) (m : Member)
    (hi : i < 32) (hm : ms[i]? = some m)
    (hfirst : ∀ j m', j < i → ms[j]? = some m' → m'.name ≠ m.name) (f : Files)
    (path : List UInt8) (hpath : setTruePath f.currDir path = m.name) (flags : Int)
    (around : Around) (counts : List Int) (hcounts : ∀ c ∈ counts, 0 < c ∧ c < 2 ^ 31) :
    (f.openTarfs A path flags around).2.Walks A (f.openTarfs A path flags around).1.ret m.body
        counts ↔
      counts = [] ∨
        octalToBinary around (headerAt byte (start + offset ms i)).size = m.body.length ∧
          (m.body = [] ∨ ∃ c, counts = [c] ∧ m.body.length < c) := by
  obtain ⟨hopen, hbody⟩ := openTarfs_member hms hz himage hA hi hm hfirst hpath flags around
  rw [hopen]
  exact install_walks_iff hbody hcounts

/-- The digits of an octal size. -/
theorem octal_isOctal (size : Nat) : IsOctal (octal size) := by
  refine ⟨by simp [octal], fun c hc => ?_⟩
  obtain ⟨i, -, rfl⟩ := List.mem_map.mp hc
  have hlt : size / 8 ^ (10 - i) % 8 < 8 := Nat.mod_lt _ (by omega)
  rw [UInt8.toNat_ofNat_of_lt' (by change _ < 256; omega)]
  omega

/-- With a NUL behind the digits the size field is read as it was written. -/
theorem Member.headerAt_size {byte : Nat → UInt8} {start : Nat} {m : Member}
    (h : Holds byte start m.header) (hnul : m.rest.head? = some 0) :
    (headerAt byte start).size = octal m.size := by
  have hattrs := m.attrs_length
  have hoct := octal_isOctal m.size
  obtain ⟨rest, hrest⟩ : ∃ rest, m.rest = 0 :: rest := by
    cases hr : m.rest with
    | nil => simp [hr] at hnul
    | cons x rest => exact ⟨rest, by simpa [hr] using hnul⟩
  have htail := (h.right (b := start + (m.name.length + 1)) (by simp)).right
    (b := start + 124) (by omega)
  rw [hrest, ← List.singleton_append, ← List.append_assoc] at htail
  refine Holds.strAt htail.left (fun hzero => ?_) (by simp [hoct.1])
  have := (hoct.2 0 hzero).1
  simp at this

/-- With a NUL behind the digits the size is right for four sizes only, if nothing is
known of the stack. -/
theorem decoded_size_iff {byte : Nat → UInt8} {start : Nat} {m : Member}
    (h : Holds byte start m.header) (hnul : m.rest.head? = some 0) :
    (∀ around, octalToBinary around (headerAt byte start).size = m.size) ↔
      RightSize m.size := by
  have hsize := m.size_lt
  have hoct := octal_isOctal m.size
  have hvalue : sizeValue (octal m.size) = m.size := by
    have hself : Holds (fun i => (octal m.size).getD i 0) 0 (octal m.size) := by
      intro i x hx
      simp [hx]
    have hdigits := octalValue_octal hself (by omega) (Nat.le_refl 11)
    rw [← octalValue_eq, hoct.1]
    simpa using hdigits
  rw [Member.headerAt_size h hnul]
  have hiff := octalToBinary_all_iff hoct (by rw [hvalue]; exact hsize)
  rwa [hvalue] at hiff

def oneByte : Member where
  name := [97]
  attrs := List.replicate 122 0
  size := 1
  rest := List.replicate 377 0
  body := [120]
  pad := List.replicate 511 0
  name_ne := by decide
  name_nul := by decide
  name_length := by decide
  attrs_length := by rw [List.length_replicate]; rfl
  size_lt := by decide
  rest_length := zeros_length
  body_length := rfl
  pad_length := by rw [List.length_replicate]; decide

/-- It is read with one call for two bytes. -/
theorem read_walks_iff_one :
    ∃ (byte : Nat → UInt8) (A : Archive),
      initTarfs byte 4096 (4096 + (image [oneByte] 2).length) = some A ∧
      ∀ around, (bootUsage.sys.cur.openTarfs A [47, 97] 0 around).2.Walks A
        (bootUsage.sys.cur.openTarfs A [47, 97] 0 around).1.ret [120] [2] := by
  have himage := holds_imageAt 4096 [oneByte] 2
  have hA := initTarfs_image (by decide) (by decide) himage
  have hsize := (decoded_size_iff (m := oneByte) (himage.left.left).left rfl).mpr (by decide)
  exact ⟨_, _, hA, fun around => (read_walks_iff [oneByte] 2 4096 _ _ (by decide) (by decide)
    himage hA 0 oneByte (by decide) rfl (by simp) bootUsage.sys.cur [47, 97] (by decide +kernel) 0
    around [2] (by decide)).mpr (.inr ⟨hsize around, .inr ⟨2, rfl, by decide⟩⟩)⟩

/-- The second call finds the byte again, whatever the stack holds. -/
theorem second_read_repeats : ¬ ∃ around, ∀ (ms : List Member) (z start : Nat) (byte : Nat → UInt8)
    (A : Archive), ms.length ≤ 199 → 2 ≤ z ∧ z ≤ 20 → Holds byte start (image ms z) →
    initTarfs byte start (start + (image ms z).length) = some A → ∀ (i : Nat) (m : Member),
    i < 32 → ms[i]? = some m → (∀ j m', j < i → ms[j]? = some m' → m'.name ≠ m.name) →
    ∀ (f : Files) (path : List UInt8), setTruePath f.currDir path = m.name → ∀ (flags : Int)
      (counts : List Int), (∀ c ∈ counts, 0 < c ∧ c < 2 ^ 31) →
      (f.openTarfs A path flags around).2.Walks A (f.openTarfs A path flags around).1.ret m.body
        counts := by
  rintro ⟨around, hall⟩
  have himage := holds_imageAt 4096 [oneByte] 2
  have hA := initTarfs_image (by decide) (by decide) himage
  have hpath : setTruePath bootUsage.sys.cur.currDir [47, 97] = [97] := by decide +kernel
  have hcounts : ∀ c ∈ ([2, 2] : List Int), 0 < c ∧ c < 2 ^ 31 := by decide
  have hwalks := hall [oneByte] 2 4096 _ _ (by decide) (by decide) himage hA 0 oneByte (by decide)
    rfl (by simp) bootUsage.sys.cur [47, 97] hpath 0 [2, 2] hcounts
  obtain ⟨hopen, hbody⟩ := openTarfs_member (m := oneByte) (by decide) (by decide) himage hA
    (by decide : 0 < 32) rfl (by simp) hpath 0 around
  rw [hopen, install_walks_iff (h := headerAt _ (4096 + offset [oneByte] 0)) hbody hcounts]
    at hwalks
  obtain hnone | ⟨-, hempty | ⟨c, hc, -⟩⟩ := hwalks
  · exact absurd hnone (by decide)
  · exact absurd hempty (by decide)
  · simp at hc

def Call.OpensOrCloses : Call → Prop
  | .openTarfs _ _ _ => True
  | .closeTarfs _ => True
  | _ => False

def Files.calls (A : Archive) (f : Files) (cs : List Call) : Files :=
  cs.foldl (fun f c => (f.call A c).2) f

def Files.Returns (A : Archive) (f : Files) (cs : List Call) (fd : Int) : Prop :=
  ∃ before path flags around after, cs = before ++ .openTarfs path flags around :: after ∧
    (f.calls A before).opens A (.openTarfs path flags around) = true ∧
    ((f.calls A before).openTarfs A path flags around).1.ret = fd

/-- What a close is for: whatever is opened and closed later, reads of `fd` fail as
long as it is not returned again, and those of other descriptors are as they would
have been. -/
def Files.Closes (A : Archive) (f : Files) (fd : Int) : Prop :=
  ∀ cs : List Call, (∀ c ∈ cs, c.OpensOrCloses) →
    (¬ (f.closeTarfs fd).2.Returns A cs fd →
      ∀ count, (((f.closeTarfs fd).2.calls A cs).readTarfs A fd count).1.ret = -1) ∧
    ∀ fd' ≠ fd, ∀ count, (((f.closeTarfs fd).2.calls A cs).readTarfs A fd' count).1 =
      ((f.calls A cs).readTarfs A fd' count).1

section Close

variable {A : Archive} {f : Files} {fd : Int}

/-- An open descriptor stays open: an open takes another, or opens this one again. -/
theorem call_open {c : Call} (hc : c.OpensOrCloses) (h : (f.fd fd).aval = 1) :
    ((f.call A c).2.fd fd).aval = 1 := by
  cases c with
  | openTarfs path flags around =>
      simp only [Files.call, Files.openTarfs]
      split
      · exact h
      · by_cases hfd : fd = f.fdC + 3
        · subst hfd
          simp [Files.install]
        · simpa [Files.install, Function.update_of_ne hfd] using h
  | closeTarfs fp => exact h
  | _ => exact hc.elim

theorem calls_open {cs : List Call} (hcs : ∀ c ∈ cs, c.OpensOrCloses) (h : (f.fd fd).aval = 1) :
    ((f.calls A cs).fd fd).aval = 1 := by
  induction cs generalizing f with
  | nil => exact h
  | cons c cs ih =>
      exact ih (fun d hd => hcs d (by simp [hd])) (call_open (hcs c (by simp)) h)

/-- A descriptor that was returned is open from then on. -/
theorem returns_open {cs : List Call} (hcs : ∀ c ∈ cs, c.OpensOrCloses) (h : f.Returns A cs fd) :
    ((f.calls A cs).fd fd).aval = 1 := by
  obtain ⟨before, path, flags, around, after, rfl, hopens, hret⟩ := h
  have hrun : f.calls A (before ++ .openTarfs path flags around :: after) =
      Files.calls A ((f.calls A before).openTarfs A path flags around).2 after := by
    simp [Files.calls, Files.call]
  rw [hrun]
  refine calls_open (fun c hc => hcs c (by simp [hc])) ?_
  obtain ⟨h, hh⟩ := Option.isSome_iff_exists.mp hopens
  simp only [Files.openTarfs, hh] at hret ⊢
  rw [← hret]
  simp [Files.install]

/-- As long as it is open, a read of nothing returns 0. -/
theorem not_closes (h : (f.fd fd).aval = 1) : ¬ f.Closes A fd := by
  intro hcloses
  have hread := (hcloses [] (by simp)).1 (by
    rintro ⟨before, path, flags, around, after, hnil, -⟩
    simp at hnil) 0
  simp [Files.closeTarfs, Files.calls, Files.readTarfs, h] at hread

end Close

/-- No `close_tarfs` closes: whatever a process opened and closed before, a
descriptor that it got can be read after its close. -/
theorem close_never_closes (A : Archive) (f : Files) (cs : List Call)
    (hcs : ∀ c ∈ cs, c.OpensOrCloses) (fd : Int) (hfd : f.Returns A cs fd) :
    ¬ (f.calls A cs).Closes A fd :=
  not_closes (returns_open hcs hfd)

def fileArchive : Archive := { headers := [⟨4096, [97], octal 1⟩], byte := fun _ => 120 }

theorem fileArchive_returns :
    bootUsage.sys.cur.Returns fileArchive [.openTarfs [47, 97] 0 zeros] 3 :=
  ⟨[], [47, 97], 0, zeros, [], rfl, by decide +kernel, by decide +kernel⟩

theorem close_never_closes_one :
    ¬ (bootUsage.sys.cur.calls fileArchive [.openTarfs [47, 97] 0 zeros]).Closes fileArchive 3 :=
  close_never_closes fileArchive bootUsage.sys.cur [.openTarfs [47, 97] 0 zeros]
    (by simp [Call.OpensOrCloses]) 3 fileArchive_returns

/-- The first file that the shell opens can be read after its close. -/
theorem closed_file_reads : ¬ ∀ (A : Archive) (f : Files) (cs : List Call),
    (∀ c ∈ cs, c.OpensOrCloses) → ∀ fd, f.Returns A cs fd → (f.calls A cs).Closes A fd := by
  intro hall
  have hcs : ∀ c ∈ [Call.openTarfs [47, 97] 0 zeros], c.OpensOrCloses := by
    simp [Call.OpensOrCloses]
  exact not_closes (returns_open hcs fileArchive_returns)
    (hall fileArchive bootUsage.sys.cur _ hcs 3 fileArchive_returns)

end X86Kernel.Fs
