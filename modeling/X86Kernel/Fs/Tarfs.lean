import X86Kernel.Lib.Bytes
import X86Kernel.Proc.Sched

/-!
The archive file system of `tarfs.c`: the index of the members, path
resolution, lookup, and the descriptor table `fd[25]`, `fd_c` of a task. A
string is the list of its bytes before the terminating NUL; the buffer that
`setTruePath` edits in place is a function on integer indices, as its index can
leave the array. So can an index into the descriptor table.
-/

namespace X86Kernel.Fs

open Lib

/-- A member header, as far as it is read: its address, and the fields `name`
and `size` up to their NUL. -/
structure Header where
  address : Nat
  name : List UInt8
  size : List UInt8
  deriving DecidableEq

/-- `headers[0..fc)`, and the bytes of the archive by address. -/
structure Archive where
  headers : List Header
  byte : Nat → UInt8

/-- `c - '0'`, where a `char` is signed. -/
def digit (c : UInt8) : Int := c.toInt8.toInt - 48

/-- The loop of `getsize`, with `j` digits left. -/
def getsizeLoop (inp : Nat → UInt8) : Nat → BitVec 32 → BitVec 32 → BitVec 32
  | 0, size, _ => size
  | j + 1, size, count =>
      getsizeLoop inp j (size + BitVec.ofInt 32 (digit (inp j)) * count) (count * 8)

/-- `getsize`, an `unsigned int` from the eleven bytes at `inp`. -/
def getsize (inp : Nat → UInt8) : BitVec 32 := getsizeLoop inp 11 0 1

/-- The distance from a header to the next, by the `size` of the member. -/
def stride (size : BitVec 32) : Nat :=
  ((size / 512 + 1) * 512).toNat + if size % 512 = 0 then 0 else 512

/-- The loop of `init_tarfs`: the addresses of the headers it stores. There is
room for `n` more of them; to store one more is `none`. -/
def initLoop (byte : Nat → UInt8) (fin : Nat) : Nat → Nat → Option (List Nat)
  | 0, address => if address < fin then none else some []
  | n + 1, address =>
      if address < fin then
        (initLoop byte fin n (address + stride (getsize fun i => byte (address + 124 + i)))).map
          (address :: ·)
      else some []

/-- The header at an address. Its strings end with it at the latest. -/
def headerAt (byte : Nat → UInt8) (address : Nat) : Header where
  address := address
  name := strAt byte 512 address
  size := strAt byte 388 (address + 124)

/-- `init_tarfs` on the archive between `_binary_tarfs_start` and
`_binary_tarfs_end`; `headers` has 200 elements. -/
def initTarfs (byte : Nat → UInt8) (start fin : Nat) : Option Archive :=
  (initLoop byte fin 200 start).map fun l => { headers := l.map (headerAt byte), byte := byte }

/-- `get_file_address`, with -1 as an `uint64_t`. -/
def getFileAddress (A : Archive) (filename : List UInt8) : Nat :=
  match A.headers.find? fun h => filename = h.name with
  | some h => h.address
  | none => 2 ^ 64 - 1

def int32 (x : Int) : Int := (BitVec.ofInt 32 x).toInt

/-- `octal_dict`; the last element is not initialised by the source and so 0. -/
def octalDict : List Int := [0, 1, 10, 11, 100, 101, 111, 0]

/-- What the stack holds around `octal_dict`, by the iterations that are left and the
index: the variables of the loop may be there. -/
abbrev Around := Nat → Int → BitVec 32

def zeros : Around := fun _ _ => 0

def dictAt (around : Around) (n : Nat) (k : Int) : Int :=
  if 0 ≤ k ∧ k < 8 then octalDict.getD k.toNat 0 else (around n k).toInt

/-- The second loop of `octal_to_binary`. -/
def binaryLoop (around : Around) : Nat → Int → Int → Int → Int
  | 0, _, bin, _ => bin
  | n + 1, oct, bin, i =>
      if oct = 0 then bin
      else binaryLoop around n (oct.tdiv 10)
        ((bin + int32 (dictAt around n (oct.tmod 10) * i)) % 2 ^ 64) (int32 (i * 1000))

/-- `octal_to_binary`. An `int` has at most ten decimal digits. -/
def octalToBinary (around : Around) (octal : List UInt8) : Nat :=
  let oct := octal.foldl (fun oct c => int32 (digit c + int32 (oct * 10))) 0
  (binaryLoop around 10 oct 0 1).toNat

/-- `starts_with`: the length of the common beginning, less one. -/
def startsWith : List UInt8 → List UInt8 → Int
  | x :: s, y :: t => if x = y then startsWith s t + 1 else -1
  | _, _ => -1

def substring (s : List UInt8) (index : Int) : List UInt8 := s.drop (index + 1).toNat

/-- The inner loop of `setTruePath`, back to the slash before. -/
def eraseBack : Nat → (Int → UInt8) → Int → (Int → UInt8) × Int
  | 0, abs, a => (abs, a)
  | n + 1, abs, a =>
      if abs a ≠ 47 ∧ 0 ≤ a then eraseBack n (Function.update abs a 0) (a - 1) else (abs, a)

/-- The loop of `setTruePath` over `file_path`. -/
def truePathLoop : List UInt8 → (Int → UInt8) → Int → (Int → UInt8) × Int
  | [], abs, a => (abs, a)
  | 46 :: 46 :: rest, abs, a =>
      let (abs, a) := eraseBack (a + 1).toNat (Function.update abs (a - 1) 0) (a - 1)
      truePathLoop rest abs a
  | x :: rest, abs, a => truePathLoop rest (Function.update abs a x) (a + 1)

/-- The string at an index of a buffer of `n` more bytes. -/
def cstr : Nat → (Int → UInt8) → Int → List UInt8
  | 0, _, _ => []
  | n + 1, buf, j => if buf j = 0 then [] else buf j :: cstr n buf (j + 1)

/-- `setTruePath` on a copy of `path` in a buffer of 100 bytes. -/
def setTruePath (currDir path : List UInt8) : List UInt8 :=
  let filePath := if path.head? = some 47 then path.drop 1 else currDir.drop 1 ++ path
  let (abs, a) := truePathLoop filePath (Function.update (fun j => path.getD j.toNat 0) 0 0) 0
  cstr 100 (Function.update (Function.update abs a 0) (a + 1) 0) 0

def isfileexists (A : Archive) (currDir path : List UInt8) : Option Nat :=
  (A.headers.take 32).findIdx? fun h => h.name = setTruePath currDir path

/-- `h->name[strlen(h->name) - 1]`; for an empty name, the byte in front of the
header. -/
def lastByte (A : Archive) (h : Header) : UInt8 :=
  h.name.getLast?.getD (A.byte (h.address - 1))

def isValidDirectory (A : Archive) (currDir path : List UInt8) : Option Nat :=
  (isfileexists A currDir path).filter fun n => (A.headers[n]?).map (lastByte A) = some 47

/-- `struct file_t`; `inode_num` is never used. -/
structure FileT where
  fd : Int
  fileName : List UInt8
  aval : Int
  offset : Nat
  entry : Int
  flags : Nat
  size : Nat
  address : Nat
  deriving DecidableEq

structure Files where
  currDir : List UInt8
  fd : Int → FileT
  fdC : Int

/-- The file system calls of `isr128`; `around` is for `octal_to_binary`. -/
inductive Call where
  | openTarfs (path : List UInt8) (flags : Int) (around : Around)
  | openDir (path : List UInt8) (around : Around)
  | readTarfs (fd : Int) (count : Int)
  | readdirTarfs (fd : Int)
  | closeTarfs (fp : Int)

structure Result where
  ret : Int
  out : List UInt8
  deriving DecidableEq

/-- The common part of `open_tarfs` and `open_dir`: the next descriptor refers
to the member `h`. -/
def Files.install (f : Files) (h : Header) (flags : Option Int) (around : Around) :
    Result × Files :=
  let fdc := f.fdC + 3
  let t := f.fd fdc
  ({ ret := fdc, out := [] },
   { f with
     fdC := f.fdC + 1
     fd := Function.update f.fd fdc
       { t with
         fileName := h.name
         flags := (flags.map fun x => (x % 2 ^ 64).toNat).getD t.flags
         entry := 0
         aval := 1
         size := octalToBinary around h.size
         address := h.address
         fd := fdc } })

def Files.openTarfs (A : Archive) (f : Files) (path : List UInt8) (flags : Int)
    (around : Around) : Result × Files :=
  match (isfileexists A f.currDir path).bind fun n => A.headers[n]? with
  | none => ({ ret := -1, out := [] }, f)
  | some h => f.install h (some flags) around

/-- `open_dir`. For the root only the name and `entry` are set. -/
def Files.openDir (A : Archive) (f : Files) (path : List UInt8) (around : Around) :
    Result × Files :=
  if path = [47] then
    let fdc := f.fdC + 3
    ({ ret := fdc, out := [] },
     { f with
       fdC := f.fdC + 1
       fd := Function.update f.fd fdc { f.fd fdc with entry := 0, fileName := [47] } })
  else
    match (isValidDirectory A f.currDir path).bind fun n => A.headers[n]? with
    | none => ({ ret := -1, out := [] }, f)
    | some h => f.install h none around

/-- `read_tarfs`. The bytes start behind the header, and `offset` plays no
part; the comparison with `size` is unsigned. -/
def Files.readTarfs (A : Archive) (f : Files) (fd count : Int) : Result × Files :=
  let t := f.fd fd
  if t.aval = 0 then ({ ret := -1, out := [] }, f)
  else if count = 0 then ({ ret := 0, out := [] }, f)
  else
    let count := if (t.size : Int) < count % 2 ^ 64 then int32 t.size else count
    ({ ret := count,
       out := (List.range count.toNat).map (fun i => A.byte (t.address + 512 + i)) ++ [0] }, f)

def readdirLoop (dirName : List UInt8) :
    List Header → Int → Int → Option (List UInt8) × Int
  | [], _, entry => (none, entry)
  | h :: rest, count, entry =>
      let index := startsWith h.name dirName
      if 0 < index ∨ dirName = [47] then
        if count = 0 then
          readdirLoop dirName rest (count + 1) (if entry = 0 then entry + 1 else entry)
        else if count = entry then (some (substring h.name index), entry + 1)
        else readdirLoop dirName rest (count + 1) entry
      else readdirLoop dirName rest count entry

def Files.readdirTarfs (A : Archive) (f : Files) (fd : Int) : Result × Files :=
  let t := f.fd fd
  let (found, entry) := readdirLoop t.fileName (A.headers.take 32) 0 t.entry
  ({ ret := if found.isSome then 1 else 0,
     out := (found.map fun name => name ++ [0]).getD [] },
   { f with fd := Function.update f.fd fd { t with entry := entry } })

/-- `close_tarfs` clears a copy of the descriptor. -/
def Files.closeTarfs (f : Files) (fp : Int) : Result × Files :=
  ({ ret := (f.fd fp).fd, out := [] }, f)

def Files.call (A : Archive) (f : Files) : Call → Result × Files
  | .openTarfs path flags around => f.openTarfs A path flags around
  | .openDir path around => f.openDir A path around
  | .readTarfs fd count => f.readTarfs A fd count
  | .readdirTarfs fd => f.readdirTarfs A fd
  | .closeTarfs fp => f.closeTarfs fp

/-- The call is an open that finds what it looks for. -/
def Files.opens (A : Archive) (f : Files) : Call → Bool
  | .openTarfs path _ _ => ((isfileexists A f.currDir path).bind fun n => A.headers[n]?).isSome
  | .openDir path _ =>
      path = [47] ∨ ((isValidDirectory A f.currDir path).bind fun n => A.headers[n]?).isSome
  | _ => false

def Files.indices (A : Archive) (f : Files) (c : Call) : List Int :=
  match c with
  | .readTarfs fd _ => [fd]
  | .readdirTarfs fd => [fd]
  | .closeTarfs fp => [fp]
  | c => if f.opens A c then [f.fdC + 3] else []

/-- A successful open returns `fd_c + 3` and counts; nothing else does. -/
theorem Files.call_opens {A : Archive} {f : Files} {c : Call} (h : f.opens A c = true) :
    (f.call A c).1.ret = f.fdC + 3 ∧ (f.call A c).2.fdC = f.fdC + 1 := by
  cases c with
  | openTarfs path flags around =>
      obtain ⟨hd, hhd⟩ := Option.isSome_iff_exists.mp h
      simp [Files.call, Files.openTarfs, hhd, Files.install]
  | openDir path around =>
      simp only [Files.call, Files.openDir]
      split_ifs with hroot
      · exact ⟨rfl, rfl⟩
      · have hsome : ((isValidDirectory A f.currDir path).bind fun n => A.headers[n]?).isSome := by
          simpa [Files.opens, hroot] using h
        obtain ⟨hd, hhd⟩ := Option.isSome_iff_exists.mp hsome
        simp [hhd, Files.install]
  | _ => simp [Files.opens] at h

theorem Files.call_not_opens {A : Archive} {f : Files} {c : Call} (h : f.opens A c = false) :
    (f.call A c).2.fdC = f.fdC := by
  cases c with
  | openTarfs path flags around =>
      have hnone : ((isfileexists A f.currDir path).bind fun n => A.headers[n]?) = none := by
        simpa [Files.opens] using h
      simp [Files.call, Files.openTarfs, hnone]
  | openDir path around =>
      obtain ⟨hroot, hnone⟩ : path ≠ [47] ∧
          ((isValidDirectory A f.currDir path).bind fun n => A.headers[n]?) = none := by
        simpa [Files.opens] using h
      simp [Files.call, Files.openDir, hroot, hnone]
  | readTarfs fd count =>
      simp only [Files.call, Files.readTarfs]
      split_ifs <;> rfl
  | readdirTarfs fd => rfl
  | closeTarfs fp => rfl

end X86Kernel.Fs
