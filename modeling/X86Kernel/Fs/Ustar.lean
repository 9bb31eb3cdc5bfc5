import Mathlib.Tactic.Ring
import X86Kernel.Fs.Tarfs

/-!
The index that `init_tarfs` makes of an archive, and `get_file_address` on it.
An archive is a sequence of members, each a header of 512 bytes and a body
padded to whole blocks, and blocks of zeros behind them. The walk takes the
first of these blocks for a header too, with a size that leads out of the
archive.
-/

namespace X86Kernel.Fs

open Lib

def octal (size : Nat) : List UInt8 :=
  (List.range 11).map fun i => UInt8.ofNat (48 + size / 8 ^ (10 - i) % 8)

/-- A member of an archive. `attrs` and `rest` are the parts of the header
behind the name and behind the size. -/
structure Member where
  name : List UInt8
  attrs : List UInt8
  size : Nat
  rest : List UInt8
  body : List UInt8
  pad : List UInt8
  name_ne : name ≠ []
  name_nul : (0 : UInt8) ∉ name
  name_length : name.length ≤ 99
  attrs_length : name.length + 1 + attrs.length = 124
  size_lt : size < 2 ^ 31
  rest_length : rest.length = 377
  body_length : body.length = size
  pad_length : pad.length < 512 ∧ (size + pad.length) % 512 = 0

def Member.header (m : Member) : List UInt8 :=
  (m.name ++ [0]) ++ (m.attrs ++ (octal m.size ++ m.rest))

def Member.bytes (m : Member) : List UInt8 := m.header ++ (m.body ++ m.pad)

/-- The bytes of an archive with `z` zero blocks at its end. -/
def image (ms : List Member) (z : Nat) : List UInt8 :=
  ms.flatMap Member.bytes ++ List.replicate (512 * z) 0

def offset (ms : List Member) (i : Nat) : Nat := ((ms.take i).flatMap Member.bytes).length

section Size

def octalValue (inp : Nat → UInt8) : Nat → Nat
  | 0 => 0
  | j + 1 => 8 * octalValue inp j + ((inp j).toNat - 48)

theorem digit_eq {c : UInt8} (hlo : 48 ≤ c.toNat) (hhi : c.toNat ≤ 55) :
    digit c = ((c.toNat - 48 : Nat) : Int) := by
  have hint : c.toInt8.toInt = c.toNat := by
    have hsmall : 2 * c.toBitVec.toNat < 2 ^ 8 := by
      rw [UInt8.toNat_toBitVec]
      omega
    exact BitVec.toInt_eq_toNat_of_lt hsmall
  unfold digit
  omega

/-- `getsize` adds up the digits with their weights. -/
theorem getsizeLoop_eq {inp : Nat → UInt8} {j : Nat}
    (hd : ∀ i < j, 48 ≤ (inp i).toNat ∧ (inp i).toNat ≤ 55) (size count : Nat) :
    getsizeLoop inp j (BitVec.ofNat 32 size) (BitVec.ofNat 32 count) =
      BitVec.ofNat 32 (size + count * octalValue inp j) := by
  induction j generalizing size count with
  | zero => simp [getsizeLoop, octalValue]
  | succ j ih =>
      obtain ⟨hlo, hhi⟩ := hd j (by omega)
      have hadd : BitVec.ofNat 32 size + BitVec.ofInt 32 (digit (inp j)) * BitVec.ofNat 32 count =
          BitVec.ofNat 32 (size + ((inp j).toNat - 48) * count) := by
        rw [digit_eq hlo hhi, BitVec.ofInt_natCast, ← BitVec.ofNat_mul, ← BitVec.ofNat_add]
      have hcount : BitVec.ofNat 32 count * 8 = BitVec.ofNat 32 (count * 8) := by
        rw [BitVec.ofNat_mul]
        rfl
      rw [getsizeLoop, hadd, hcount, ih (fun i hi => hd i (by omega)), octalValue]
      congr 1
      ring

theorem getsizeLoop_congr {inp inp' : Nat → UInt8} {j : Nat} (h : ∀ i < j, inp i = inp' i)
    (size count : BitVec 32) : getsizeLoop inp j size count = getsizeLoop inp' j size count := by
  induction j generalizing size count with
  | zero => rfl
  | succ j ih =>
      rw [getsizeLoop, getsizeLoop, h j (by omega), ih (fun i hi => h i (by omega))]

theorem octal_getElem? {size i : Nat} (hi : i < 11) :
    (octal size)[i]? = some (UInt8.ofNat (48 + size / 8 ^ (10 - i) % 8)) := by
  simp [octal, hi]

theorem octal_byte {byte : Nat → UInt8} {a size i : Nat} (h : Holds byte a (octal size))
    (hi : i < 11) : (byte (a + i)).toNat = 48 + size / 8 ^ (10 - i) % 8 := by
  rw [h i _ (octal_getElem? hi), UInt8.toNat_ofNat_of_lt']
  have hlt : size / 8 ^ (10 - i) % 8 < 8 := Nat.mod_lt _ (by omega)
  have hsize : UInt8.size = 256 := rfl
  omega

/-- The digits of a size have its value. -/
theorem octalValue_octal {byte : Nat → UInt8} {a size j : Nat} (h : Holds byte a (octal size))
    (hsize : size < 2 ^ 33) (hj : j ≤ 11) :
    octalValue (fun i => byte (a + i)) j = size / 8 ^ (11 - j) := by
  induction j with
  | zero =>
      rw [octalValue]
      symm
      exact Nat.div_eq_of_lt hsize
  | succ j ih =>
      have hpow : 8 ^ (11 - j) = 8 ^ (10 - j) * 8 := by
        rw [show 11 - j = (10 - j) + 1 by omega, Nat.pow_succ]
      rw [octalValue, ih (by omega), octal_byte h (by omega), hpow, ← Nat.div_div_eq_div_mul,
        show 11 - (j + 1) = 10 - j by omega]
      omega

theorem getsize_octal {byte : Nat → UInt8} {a size : Nat} (h : Holds byte a (octal size))
    (hsize : size < 2 ^ 33) : getsize (fun i => byte (a + i)) = BitVec.ofNat 32 size := by
  have hdigits : ∀ i < 11, 48 ≤ (byte (a + i)).toNat ∧ (byte (a + i)).toNat ≤ 55 := by
    intro i hi
    have hlt : size / 8 ^ (10 - i) % 8 < 8 := Nat.mod_lt _ (by omega)
    rw [octal_byte h hi]
    omega
  have hloop := @getsizeLoop_eq (fun i => byte (a + i)) _ hdigits 0 1
  rw [octalValue_octal h hsize (by omega)] at hloop
  simpa [getsize] using hloop

/-- A size field of zeros has a value too, and it leads far away. -/
theorem stride_zeros {byte : Nat → UInt8} {a : Nat} (h : ∀ i < 11, byte (a + i) = 0) :
    stride (getsize fun i => byte (a + i)) = 1227134464 := by
  have hsame : getsize (fun i => byte (a + i)) = getsize fun _ => 0 :=
    @getsizeLoop_congr _ (fun _ => 0) _ h 0 1
  rw [hsame]
  decide

theorem stride_ofNat {size : Nat} (h : size < 2 ^ 31) :
    stride (BitVec.ofNat 32 size) = (size / 512 + 1) * 512 + if size % 512 = 0 then 0 else 512 := by
  have hnat : (BitVec.ofNat 32 size).toNat = size := by
    rw [BitVec.toNat_ofNat]
    omega
  have hdiv : ((BitVec.ofNat 32 size / 512 + 1) * 512).toNat = (size / 512 + 1) * 512 := by
    have h512 : (512 : BitVec 32).toNat = 512 := rfl
    have hone : (1 : BitVec 32).toNat = 1 := rfl
    rw [BitVec.toNat_mul, BitVec.toNat_add, BitVec.toNat_udiv, hnat, h512, hone]
    omega
  have hmod : BitVec.ofNat 32 size % 512 = 0 ↔ size % 512 = 0 := by
    rw [BitVec.toNat_eq, BitVec.toNat_umod, hnat]
    rfl
  unfold stride
  simp only [hdiv, hmod]

end Size

section Index

variable {byte : Nat → UInt8} {start : Nat}

theorem Member.header_length (m : Member) : m.header.length = 512 := by
  have hattrs := m.attrs_length
  have hrest := m.rest_length
  simp only [Member.header, List.length_append, octal, List.length_map, List.length_range,
    List.length_singleton]
  omega

/-- The walk goes from a member to the next. -/
theorem Member.bytes_length (m : Member) :
    m.bytes.length = stride (BitVec.ofNat 32 m.size) := by
  have hbody := m.body_length
  have hpad := m.pad_length
  rw [stride_ofNat m.size_lt, Member.bytes, List.length_append, List.length_append,
    m.header_length]
  split_ifs <;> omega

theorem Member.holds_header {m : Member} (h : Holds byte start m.bytes) :
    Holds byte start m.header ∧ Holds byte (start + 512) m.body := by
  refine ⟨h.left, ?_⟩
  exact (h.right (by rw [m.header_length])).left

/-- What the kernel reads of a header. -/
theorem Member.headerAt_name {m : Member} (h : Holds byte start m.header) :
    (headerAt byte start).name = m.name :=
  Holds.strAt h.left m.name_nul (by have := m.name_length; omega)

theorem Member.stride_eq {m : Member} (h : Holds byte start m.header) :
    stride (getsize fun i => byte (start + 124 + i)) = m.bytes.length := by
  have hattrs := m.attrs_length
  have hsize := m.size_lt
  have hfield : Holds byte (start + 124) (octal m.size) := by
    have htail := h.right (b := start + (m.name.length + 1)) (by simp)
    exact (htail.right (by omega)).left
  rw [getsize_octal hfield (by omega), m.bytes_length]

def addresses (start : Nat) : List Member → List Nat
  | [] => []
  | m :: ms => start :: addresses (start + m.bytes.length) ms

/-- The walk over an archive stores the headers of its members and the first of
the zero blocks behind them. -/
theorem initLoop_image {ms : List Member} {z n : Nat} (hn : ms.length < n) (hz : 1 ≤ z ∧ z ≤ 20)
    (h : Holds byte start (image ms z)) :
    initLoop byte (start + (image ms z).length) n start =
      some (addresses start ms ++ [start + (ms.flatMap Member.bytes).length]) := by
  induction ms generalizing start n with
  | nil =>
      simp only [List.length_nil] at hn
      obtain ⟨n, rfl⟩ : ∃ k, n = k + 1 := ⟨n - 1, by omega⟩
      have hlen : (image [] z).length = 512 * z := by simp [image]
      have hzero : ∀ i < 11, byte (start + 124 + i) = 0 := by
        intro i hi
        rw [Nat.add_assoc]
        refine h (124 + i) 0 ?_
        have hlt : 124 + i < 512 * z := by omega
        simp [image, hlt]
      have hout : ¬ start + 1227134464 < start + 512 * z := by omega
      rw [initLoop, stride_zeros hzero, hlen, if_pos (by omega)]
      cases n with
      | zero => simp [initLoop, hout, addresses]
      | succ n => simp [initLoop, hout, addresses]
  | cons m ms ih =>
      simp only [List.length_cons] at hn
      obtain ⟨n, rfl⟩ : ∃ k, n = k + 1 := ⟨n - 1, by omega⟩
      have hsplit : image (m :: ms) z = m.bytes ++ image ms z := by
        simp [image]
      have hlen : start + (image (m :: ms) z).length =
          start + m.bytes.length + (image ms z).length := by
        rw [hsplit, List.length_append, Nat.add_assoc]
      rw [hsplit] at h
      have htail := ih (n := n) (by omega) (h.right rfl)
      have hpos : 0 < m.bytes.length := by
        rw [Member.bytes, List.length_append, m.header_length]
        omega
      rw [initLoop, Member.stride_eq (Member.holds_header h.left).1, hlen, htail,
        if_pos (by omega)]
      simp [addresses, Nat.add_assoc]

/-- No member has the name. -/
theorem find_absent {ms : List Member} {name : List UInt8}
    (h : Holds byte start (ms.flatMap Member.bytes)) (hno : ∀ m ∈ ms, m.name ≠ name) :
    ((addresses start ms).map (headerAt byte)).find? (fun hd => name = hd.name) = none := by
  induction ms generalizing start with
  | nil => rfl
  | cons m ms ih =>
      rw [List.flatMap_cons] at h
      have hname := Member.headerAt_name (Member.holds_header h.left).1
      have hne : name ≠ m.name := Ne.symm (hno m (by simp))
      rw [addresses, List.map_cons, List.find?_cons_of_neg (by simpa [hname] using hne)]
      exact ih (h.right rfl) (fun m' hm' => hno m' (by simp [hm']))

/-- The first member with the name. -/
theorem find_present {ms : List Member} {name : List UInt8} {i : Nat} {m : Member}
    (h : Holds byte start (ms.flatMap Member.bytes)) (hm : ms[i]? = some m) (hname : m.name = name)
    (hfirst : ∀ j m', j < i → ms[j]? = some m' → m'.name ≠ name) :
    ((addresses start ms).map (headerAt byte)).find? (fun hd => name = hd.name) =
        some (headerAt byte (start + offset ms i)) ∧
      Holds byte (start + offset ms i) m.bytes := by
  induction ms generalizing start i with
  | nil => simp at hm
  | cons m₁ ms ih =>
      rw [List.flatMap_cons] at h
      have hname₁ := Member.headerAt_name (Member.holds_header h.left).1
      cases i with
      | zero =>
          obtain rfl : m₁ = m := by simpa using hm
          refine ⟨?_, by simpa [offset] using h.left⟩
          rw [addresses, List.map_cons, List.find?_cons_of_pos (by simp [hname₁, hname])]
          simp [offset]
      | succ i =>
          have hne : name ≠ m₁.name := Ne.symm (hfirst 0 m₁ (by omega) rfl)
          have hoff : offset (m₁ :: ms) (i + 1) = m₁.bytes.length + offset ms i := by
            simp [offset]
          rw [addresses, List.map_cons, List.find?_cons_of_neg (by simpa [hname₁] using hne), hoff,
            ← Nat.add_assoc]
          exact ih (h.right rfl) (by simpa using hm)
            (fun j m' hj hm' => hfirst (j + 1) m' (by omega) (by simpa using hm'))

theorem offset_le (ms : List Member) (i : Nat) :
    offset ms i ≤ (ms.flatMap Member.bytes).length := by
  have hsplit : ms.flatMap Member.bytes =
      (ms.take i).flatMap Member.bytes ++ (ms.drop i).flatMap Member.bytes := by
    rw [← List.flatMap_append, List.take_append_drop]
  rw [hsplit, List.length_append, offset]
  omega

theorem exists_first {α : Type} {l : List α} {p : α → Prop} (h : ∃ x ∈ l, p x) :
    ∃ (i : Nat) (x : α), l[i]? = some x ∧ p x ∧ ∀ j y, j < i → l[j]? = some y → ¬ p y := by
  classical
  have hex : ∃ i : Nat, ∃ x, l[i]? = some x ∧ p x := by
    obtain ⟨x, hx, hp⟩ := h
    obtain ⟨i, hi⟩ := List.getElem?_of_mem hx
    exact ⟨i, x, hi, hp⟩
  obtain ⟨x, hx, hp⟩ := Nat.find_spec hex
  exact ⟨Nat.find hex, x, hx, hp, fun j y hj hy hpy => Nat.find_min hex hj ⟨y, hy, hpy⟩⟩

/-- The index of an archive. -/
theorem initTarfs_image {ms : List Member} {z : Nat} (hms : ms.length ≤ 199) (hz : 1 ≤ z ∧ z ≤ 20)
    (h : Holds byte start (image ms z)) :
    initTarfs byte start (start + (image ms z).length) =
      some ⟨(addresses start ms).map (headerAt byte) ++
        [headerAt byte (start + (ms.flatMap Member.bytes).length)], byte⟩ := by
  rw [initTarfs, initLoop_image (by omega) hz h]
  simp

/-- A zero block has no name. -/
theorem image_last_name {ms : List Member} {z : Nat} (hz : 1 ≤ z)
    (h : Holds byte start (image ms z)) :
    (headerAt byte (start + (ms.flatMap Member.bytes).length)).name = [] := by
  refine Holds.strAt (s := []) ?_ (by simp) (by simp)
  have hblock := h.right rfl
  rw [show 512 * z = 1 + (512 * z - 1) by omega, List.replicate_add] at hblock
  exact hblock.left

theorem addresses_names {ms : List Member} (h : Holds byte start (ms.flatMap Member.bytes)) :
    ((addresses start ms).map (headerAt byte)).map Header.name = ms.map Member.name := by
  induction ms generalizing start with
  | nil => rfl
  | cons m ms ih =>
      rw [List.flatMap_cons] at h
      simp only [addresses, List.map_cons, ih (h.right rfl),
        Member.headerAt_name (Member.holds_header h.left).1]

/-- A header with another name at the end of the index is not found. -/
theorem getFileAddress_snoc {l : List Header} {hd : Header} {name : List UInt8}
    (h : name ≠ hd.name) :
    getFileAddress ⟨l ++ [hd], byte⟩ name = getFileAddress ⟨l, byte⟩ name := by
  have hlast : [hd].find? (fun hd => name = hd.name) = none := by simp [h]
  simp only [getFileAddress, List.find?_append, hlast, Option.or_none]

end Index

/-- Archive lookup is correct: of an archive that fits into `headers`, the first
member with a name is found with its header and its body behind it, and nothing
is found exactly when no member has the name. -/
theorem getFileAddress_image (ms : List Member) (z start : Nat) (byte : Nat → UInt8)
    (hms : ms.length ≤ 199) (hz : 2 ≤ z ∧ z ≤ 20) (himage : Holds byte start (image ms z))
    (hfin : start + (image ms z).length < 2 ^ 64) :
    ∃ A, initTarfs byte start (start + (image ms z).length) = some A ∧
      ∀ name, name ≠ [] →
        (∀ i m, ms[i]? = some m → m.name = name →
          (∀ j m', j < i → ms[j]? = some m' → m'.name ≠ name) →
          getFileAddress A name = start + offset ms i ∧
            Holds byte (start + offset ms i) m.header ∧
            Holds byte (start + offset ms i + 512) m.body) ∧
        ((∀ m ∈ ms, m.name ≠ name) → getFileAddress A name = 2 ^ 64 - 1) ∧
        ((getFileAddress A name + 512) % 2 ^ 64 < 512 ↔ ∀ m ∈ ms, m.name ≠ name) := by
  have hmembers : Holds byte start (ms.flatMap Member.bytes) := himage.left
  have hlen : (image ms z).length = (ms.flatMap Member.bytes).length + 512 * z := by
    simp [image]
  refine ⟨_, initTarfs_image hms ⟨by omega, hz.2⟩ himage, fun name hname => ?_⟩
  rw [getFileAddress_snoc (by rwa [image_last_name (by omega) himage])]
  have hpresent : ∀ i m, ms[i]? = some m → m.name = name →
      (∀ j m', j < i → ms[j]? = some m' → m'.name ≠ name) →
      getFileAddress ⟨(addresses start ms).map (headerAt byte), byte⟩ name = start + offset ms i ∧
        Holds byte (start + offset ms i) m.bytes := by
    intro i m hm hmn hfirst
    obtain ⟨hsome, hbytes⟩ := find_present hmembers hm hmn hfirst
    rw [getFileAddress, hsome]
    exact ⟨rfl, hbytes⟩
  have habsent : (∀ m ∈ ms, m.name ≠ name) →
      getFileAddress ⟨(addresses start ms).map (headerAt byte), byte⟩ name = 2 ^ 64 - 1 := by
    intro hno
    rw [getFileAddress, find_absent hmembers hno]
  refine ⟨?_, habsent, fun hsmall m hm hmn => ?_, fun hno => ?_⟩
  · intro i m hm hmn hfirst
    obtain ⟨haddr, hbytes⟩ := hpresent i m hm hmn hfirst
    exact ⟨haddr, Member.holds_header hbytes⟩
  · obtain ⟨i, m', hm', hmn', hfirst⟩ :=
      exists_first (p := fun m : Member => m.name = name) ⟨m, hm, hmn⟩
    have hoff := offset_le ms i
    rw [(hpresent i m' hm' hmn' hfirst).1] at hsmall
    omega
  · rw [habsent hno]
    omega

/-- The zeros behind the size field. -/
theorem zeros_length : (List.replicate 377 (0 : UInt8)).length = 377 := List.length_replicate

def emptyFile (name : List UInt8) (hne : name ≠ []) (hnul : (0 : UInt8) ∉ name)
    (hlen : name.length ≤ 99) : Member where
  name := name
  attrs := List.replicate (123 - name.length) 0
  size := 0
  rest := List.replicate 377 0
  body := []
  pad := []
  name_ne := hne
  name_nul := hnul
  name_length := hlen
  attrs_length := by rw [List.length_replicate]; omega
  size_lt := by decide
  rest_length := zeros_length
  body_length := rfl
  pad_length := by decide

theorem Member.bytes_length_empty {m : Member} (h : m.size = 0) : m.bytes.length = 512 := by
  rw [m.bytes_length, h]
  exact (by decide : stride (BitVec.ofNat 32 0) = 512)

/-- A memory with the archive at `start`, and zeros elsewhere. -/
def imageAt (start : Nat) (ms : List Member) (z : Nat) : Nat → UInt8 :=
  fun i => (image ms z).getD (i - start) 0

theorem holds_imageAt (start : Nat) (ms : List Member) (z : Nat) :
    Holds (imageAt start ms z) start (image ms z) := by
  intro i x hx
  simp [imageAt, hx]

/-- An archive with one file, at an address of the kernel. -/
theorem getFileAddress_image_one :
    ∃ (byte : Nat → UInt8) (A : Archive),
      initTarfs byte 0xffffffff80200000 0xffffffff80200600 = some A ∧
      getFileAddress A [97] = 0xffffffff80200000 ∧ getFileAddress A [98] = 2 ^ 64 - 1 := by
  have hlen : (image [emptyFile [97] (by decide) (by decide) (by decide)] 2).length = 1536 := by
    rw [image, List.length_append, List.flatMap_cons, List.flatMap_nil, List.append_nil,
      List.length_replicate, Member.bytes_length_empty rfl]
  obtain ⟨A, hA, hfind⟩ := getFileAddress_image
    [emptyFile [97] (by decide) (by decide) (by decide)] 2 0xffffffff80200000 _ (by simp)
    (by omega) (holds_imageAt _ _ _) (by rw [hlen]; omega)
  rw [hlen] at hA
  have hother : ∀ m ∈ [emptyFile [97] (by decide) (by decide) (by decide)], m.name ≠ [98] := by
    intro m hm
    obtain rfl := List.mem_singleton.mp hm
    exact (by decide : ([97] : List UInt8) ≠ [98])
  refine ⟨_, A, hA, ?_, (hfind [98] (by simp)).2.1 hother⟩
  obtain ⟨haddr, -⟩ := (hfind [97] (by simp)).1 0 _ rfl rfl (by simp)
  simpa [offset] using haddr

end X86Kernel.Fs
