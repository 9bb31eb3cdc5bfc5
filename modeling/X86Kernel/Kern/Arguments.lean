import X86Kernel.Kern.Progress

/-!
The arguments of a new image. `execvpe` copies the strings into an array of its
own, writes them to the new stack from the last to the first, and then pushes
their addresses and their number; `_start` in `crt1.c` reads all of it back from
the stack pointer upwards.
-/

namespace X86Kernel.Kern

open Lib Paging Proc

section Encode

variable {L L' : Nat → Option Byte}

def wordBytes (w : Nat) : List Byte := (List.range 8).map fun j => byteAt (BitVec.ofNat 64 w) j

theorem wordBytes_length (w : Nat) : (wordBytes w).length = 8 := by simp [wordBytes]

/-- `*a = b` for a byte. -/
theorem byteWrite_put {a : Nat} {b : Byte}
    (h : Wrote L (a, fun w => setByte w (a % 8) b) L') : Put L a [b] L' := by
  obtain ⟨x, hword, hrest⟩ := h
  refine ⟨?_, ?_⟩
  · rw [List.map_singleton, holds_cons]
    refine ⟨?_, Holds.nil⟩
    rw [(hword a rfl).2, byteAt_setByte (by omega) (by omega), if_pos rfl]
  · intro v hv hout
    simp only [List.length_singleton] at hout
    by_cases hsame : v / 8 = a / 8
    · obtain ⟨hold, hnew⟩ := hword v hsame
      obtain ⟨c, hc⟩ := Option.ne_none_iff_exists'.mp hv
      rw [hnew, hc, hold c hc, byteAt_setByte (by omega) (by omega), if_neg (by omega)]
    · exact hrest v hsame hv

/-- `*a = w` for a word. -/
theorem wordWrite_put {a w : Nat} (ha : a % 8 = 0) (h : Wrote L (wordWrite a w) L') :
    Put L a (wordBytes w) L' := by
  obtain ⟨x, hword, hrest⟩ := h
  simp only [wordWrite] at hword hrest
  refine ⟨?_, ?_⟩
  · intro i y hy
    have hi : i < 8 := by
      have hlt := (List.getElem?_eq_some_iff.mp hy).1
      simpa [wordBytes] using hlt
    obtain rfl : some (byteAt (BitVec.ofNat 64 w) i) = y := by simpa [wordBytes, hi] using hy
    rw [(hword (a + i) (by omega)).2, show (a + i) % 8 = i by omega]
  · intro v hv hout
    rw [wordBytes_length] at hout
    exact hrest v (by omega) hv

/-- `memcpy`, byte by byte from the offset `k` on. -/
theorem bytes_put (bs : List Byte) (a k : Nat)
    (h : WroteAll L ((bs.zipIdx k).map fun r => (a + r.2, fun w => setByte w ((a + r.2) % 8) r.1))
      L') : Put L (a + k) bs L' := by
  induction bs generalizing k L with
  | nil =>
      obtain rfl : L' = L := h
      exact Put.nil _ _
  | cons b bs ih =>
      obtain ⟨L₁, hfirst, hrest⟩ := h
      exact (byteWrite_put hfirst).behind (ih (k + 1) hrest) rfl

theorem stringWrites_put {a : Nat} {s : List Byte} (h : WroteAll L (stringWrites a s) L') :
    Put L a (s ++ [0]) L' := bytes_put (s ++ [0]) a 0 h

theorem pushWords_cons (rsp w : Nat) (ws : List Nat) :
    pushWords rsp (w :: ws) = wordWrite (rsp - 8) w :: pushWords (rsp - 8) ws := by
  unfold pushWords
  rw [List.zipIdx_cons, List.map_cons]
  refine congrArg₂ List.cons (by simp) ?_
  rw [List.zipIdx_succ, List.map_map]
  refine List.map_congr_left ?_
  rintro ⟨x, j⟩ -
  simp only [Function.comp_apply]
  congr 1
  omega

/-- The words pushed below `rsp` stand there in reverse. -/
theorem pushWords_put {rsp : Nat} (ws : List Nat) (hfit : 8 * ws.length ≤ rsp)
    (hrsp : rsp % 8 = 0) (h : WroteAll L (pushWords rsp ws) L') :
    Put L (rsp - 8 * ws.length) (ws.reverse.flatMap wordBytes) L' := by
  induction ws generalizing rsp L with
  | nil =>
      obtain rfl : L' = L := h
      exact Put.nil _ _
  | cons w ws ih =>
      rw [pushWords_cons] at h
      obtain ⟨L₁, hfirst, hrest⟩ := h
      simp only [List.length_cons] at hfit ⊢
      have hput := (wordWrite_put (by omega) hfirst).before (ih (by omega) (by omega) hrest)
        (by simp only [List.length_flatMap, wordBytes_length, List.map_const', List.sum_replicate,
              List.length_reverse, smul_eq_mul]; omega)
      rw [List.reverse_cons, List.flatMap_append, List.flatMap_singleton,
        show rsp - 8 * (ws.length + 1) = rsp - 8 - 8 * ws.length by omega]
      exact hput

/-- Where the strings are: each in its own part of the stack below `rsp`, the
first one lowest. -/
theorem pushStrings_layout (args : List (List Byte)) (rsp : Nat) (hfit : stringsSize args ≤ rsp) :
    (∀ (i a : Nat) (s : List Byte), args[i]? = some s → (pushStrings rsp args).2.1[i]? = some a →
      rsp - stringsSize args ≤ a ∧ a + 8 * (s.length + 1) ≤ rsp) ∧
    ∀ (i j a b : Nat) (s : List Byte), i < j → args[i]? = some s →
      (pushStrings rsp args).2.1[i]? = some a → (pushStrings rsp args).2.1[j]? = some b →
        a + 8 * (s.length + 1) ≤ b := by
  induction args with
  | nil => simp
  | cons t rest ih =>
      have hsize : stringsSize (t :: rest) = 8 * (t.length + 1) + stringsSize rest := by
        simp [stringsSize]
      obtain ⟨hwithin, horder⟩ := ih (by omega)
      obtain ⟨hrsp, htemp, -⟩ := pushStrings_spec rest rsp (by omega)
      simp only [pushStrings, hrsp, hsize]
      refine ⟨?_, ?_⟩
      · intro i a s hs ha
        cases i with
        | zero =>
            obtain rfl : t = s := by simpa using hs
            obtain rfl := Option.some.inj ha
            omega
        | succ i =>
            have := hwithin i a s (by simpa using hs) (by simpa using ha)
            omega
      · intro i j a b s hij hs ha hb
        obtain ⟨j, rfl⟩ : ∃ k, j = k + 1 := ⟨j - 1, by omega⟩
        cases i with
        | zero =>
            obtain rfl : t = s := by simpa using hs
            obtain rfl := Option.some.inj ha
            have hb : (pushStrings rsp rest).2.1[j]? = some b := by simpa using hb
            have hj : j < rest.length := by
              rw [← htemp]
              exact (List.getElem?_eq_some_iff.mp hb).1
            have := hwithin j b rest[j] (List.getElem?_eq_getElem hj) hb
            omega
        | succ i =>
            exact horder i j a b s (by omega) (by simpa using hs) (by simpa using ha)
              (by simpa using hb)

/-- The strings stand at their addresses, and nothing outside of their part of
the stack has changed. -/
theorem pushStrings_put (args : List (List Byte)) {rsp : Nat} (hfit : stringsSize args ≤ rsp)
    (h : WroteAll L (pushStrings rsp args).1 L') :
    (∀ (i a : Nat) (s : List Byte), args[i]? = some s → (pushStrings rsp args).2.1[i]? = some a →
      Holds L' a ((s ++ [0]).map some)) ∧
    ∀ v, L v ≠ none → v < rsp - stringsSize args ∨ rsp ≤ v → L' v = L v := by
  induction args generalizing L' with
  | nil =>
      obtain rfl : L' = L := h
      simp
  | cons t rest ih =>
      have hsize : stringsSize (t :: rest) = 8 * (t.length + 1) + stringsSize rest := by
        simp [stringsSize]
      obtain ⟨hrsp, -, -⟩ := pushStrings_spec rest rsp (by omega)
      simp only [pushStrings, hrsp] at h ⊢
      obtain ⟨L₁, hrest, hfirst⟩ := wroteAll_append.mp h
      obtain ⟨hholds, hkept⟩ := ih (by omega) hrest
      obtain ⟨hwithin, -⟩ := pushStrings_layout rest rsp (by omega)
      have hput := stringWrites_put hfirst
      refine ⟨?_, ?_⟩
      · intro i a s hs ha
        cases i with
        | zero =>
            obtain rfl : t = s := by simpa using hs
            obtain rfl := Option.some.inj ha
            exact hput.holds
        | succ i =>
            have hs : rest[i]? = some s := by simpa using hs
            have ha : (pushStrings rsp rest).2.1[i]? = some a := by simpa using ha
            have := hwithin i a s hs ha
            refine hput.keeps (hholds i a s hs ha) (.inr ?_)
            simp only [List.length_append, List.length_singleton]
            omega
      · intro v hv hout
        rw [hsize] at hout
        have hsame := hkept v hv (by omega)
        rw [hput.rest v (by rw [hsame]; exact hv) ?_, hsame]
        simp only [List.length_append, List.length_singleton]
        omega

end Encode

section Copy

def strcpy (A : Nat → Byte) (d : Nat) (s : List Byte) : Nat → Byte :=
  fun v => if d ≤ v then ((s ++ [0])[v - d]?).getD (A v) else A v

/-- The loop of `execvpe` over `argv`, from the row `k` of `args[10][80]` on. -/
def copyArgs (A : Nat → Byte) (k : Nat) : List (List Byte) → Nat → Byte
  | [] => A
  | s :: argv => copyArgs (strcpy A (80 * k) s) (k + 1) argv

/-- The strings in the first rows of the array, as `strlen` and `memcpy` take
them. -/
def argRows (A : Nat → Byte) (argc : Nat) : List (List Byte) :=
  (List.range argc).map fun i => strAt A 800 (80 * i)

theorem strcpy_holds (A : Nat → Byte) (d : Nat) (s : List Byte) :
    Holds (strcpy A d s) d (s ++ [0]) := by
  intro i x hx
  simp only [strcpy, Nat.le_add_right, if_true, Nat.add_sub_cancel_left, hx, Option.getD_some]

theorem strcpy_of_lt {A : Nat → Byte} {d v : Nat} {s : List Byte} (hv : v < d) :
    strcpy A d s v = A v := if_neg (by omega)

/-- The rows below the first one are not written. -/
theorem copyArgs_below {argv : List (List Byte)} {A : Nat → Byte} {k v : Nat} (hv : v < 80 * k) :
    copyArgs A k argv v = A v := by
  induction argv generalizing A k with
  | nil => rfl
  | cons s argv ih => rw [copyArgs, ih (by omega), strcpy_of_lt hv]

/-- Strings of less than 80 bytes stay in their rows. -/
theorem copyArgs_holds {argv : List (List Byte)} (hlen : ∀ s ∈ argv, s.length < 80)
    (A : Nat → Byte) (k : Nat) {i : Nat} {s : List Byte} (hs : argv[i]? = some s) :
    Holds (copyArgs A k argv) (80 * (k + i)) (s ++ [0]) := by
  induction argv generalizing A k i with
  | nil => simp at hs
  | cons t argv ih =>
      cases i with
      | zero =>
          obtain rfl : t = s := by simpa using hs
          intro j x hx
          have hj := (List.getElem?_eq_some_iff.mp hx).1
          have ht := hlen t (by simp)
          simp only [List.length_append, List.length_singleton] at hj
          rw [copyArgs, copyArgs_below (by omega)]
          exact strcpy_holds A (80 * k) t j x hx
      | succ i =>
          have hrow := ih (fun s hs => hlen s (by simp [hs])) (strcpy A (80 * k) t) (k + 1)
            (by simpa using hs)
          rwa [show k + 1 + i = k + (i + 1) by omega] at hrow

/-- What `execvpe` copies is what it was called with. -/
theorem argRows_copyArgs {argv : List (List Byte)} (hargs : FitsArgs argv)
    (hnul : ∀ s ∈ argv, (0 : Byte) ∉ s) (A : Nat → Byte) :
    argRows (copyArgs A 0 argv) argv.length = argv := by
  apply List.ext_getElem
  · simp [argRows]
  · intro i h₁ h₂
    have hmem := List.getElem_mem h₂
    have hrow := copyArgs_holds hargs.2 A 0 (List.getElem?_eq_getElem h₂)
    have hshort := hargs.2 _ hmem
    simp only [argRows, List.getElem_map, List.getElem_range]
    rw [Nat.zero_add] at hrow
    exact hrow.strAt (hnul _ hmem) (by omega)

end Copy

section Decode

/-- The `n` bytes at `a`, if they can all be read. -/
def loadBytes (L : Nat → Option Byte) : Nat → Nat → Option (List Byte)
  | 0, _ => some []
  | n + 1, a => do
      let b ← L a
      let bs ← loadBytes L n (a + 1)
      some (b :: bs)

def ofBytes (bs : List Byte) : Nat := bs.foldr (fun b n => b.toNat + 256 * n) 0

def loadWord (L : Nat → Option Byte) (a : Nat) : Option Nat := (loadBytes L 8 a).map ofBytes

def loadInt (L : Nat → Option Byte) (a : Nat) : Option Int :=
  (loadBytes L 4 a).map fun bs => (BitVec.ofNat 32 (ofBytes bs)).toInt

def loadWords (L : Nat → Option Byte) : Nat → Nat → Option (List Nat)
  | 0, _ => some []
  | n + 1, a => do
      let w ← loadWord L a
      let ws ← loadWords L n (a + 8)
      some (w :: ws)

def loadEnv (L : Nat → Option Byte) : Nat → Nat → Option (List Nat)
  | 0, _ => none
  | n + 1, a => do
      let w ← loadWord L a
      if w = 0 then some [] else (loadEnv L n (a + 8)).map (w :: ·)

def loadString (L : Nat → Option Byte) : Nat → Nat → Option (List Byte)
  | 0, _ => none
  | n + 1, a => do
      let b ← L a
      if b = 0 then some [] else (loadString L n (a + 1)).map (b :: ·)

/-- `_start`, apart from the eight bytes of its own frame: what it finds at `rsp`
for `argc`, `argv` and `env`. -/
def start (L : Nat → Option Byte) (rsp : Nat) : Option (Int × List Nat × List Nat) := do
  let argc ← loadInt L rsp
  let argv ← loadWords L argc.toNat (rsp + 8)
  let env ← loadEnv L 100 (rsp + 8 + 8 * argc.toNat + 8)
  some (argc, argv, env)

variable {L : Nat → Option Byte} {a : Nat}

theorem loadBytes_of_holds {bs : List Byte} (h : Holds L a (bs.map some)) :
    loadBytes L bs.length a = some bs := by
  induction bs generalizing a with
  | nil => rfl
  | cons b bs ih =>
      obtain ⟨hb, htail⟩ := holds_cons.mp h
      simp [loadBytes, hb, ih htail]

theorem byteAt_toNat (w : Word) (j : Nat) : (byteAt w j).toNat = w.toNat / 2 ^ (8 * j) % 256 := by
  unfold byteAt
  rw [BitVec.extractLsb'_toNat, Nat.shiftRight_eq_div_pow]

theorem ofBytes_wordBytes {w : Nat} (hw : w < 2 ^ 64) : ofBytes (wordBytes w) = w := by
  have hmod : w % 2 ^ 64 = w := Nat.mod_eq_of_lt hw
  simp only [ofBytes, wordBytes, List.range, List.range.loop, List.map_cons, List.map_nil,
    List.foldr_cons, List.foldr_nil, byteAt_toNat, BitVec.toNat_ofNat, hmod]
  omega

theorem ofBytes_take {w : Nat} (hw : w < 2 ^ 64) : ofBytes ((wordBytes w).take 4) = w % 2 ^ 32 := by
  have hmod : w % 2 ^ 64 = w := Nat.mod_eq_of_lt hw
  simp only [ofBytes, wordBytes, List.range, List.range.loop, List.map_cons, List.map_nil,
    List.take_succ_cons, List.take_zero, List.foldr_cons, List.foldr_nil, byteAt_toNat,
    BitVec.toNat_ofNat, hmod]
  omega

theorem loadWord_of_holds {w : Nat} (h : Holds L a ((wordBytes w).map some)) (hw : w < 2 ^ 64) :
    loadWord L a = some w := by
  have hbytes := loadBytes_of_holds h
  rw [wordBytes_length] at hbytes
  rw [loadWord, hbytes, Option.map_some, ofBytes_wordBytes hw]

/-- A small number is read from the lower half of its word. -/
theorem loadInt_of_holds {w : Nat} (h : Holds L a ((wordBytes w).map some)) (hw : w < 2 ^ 31) :
    loadInt L a = some (w : Int) := by
  have hsplit : wordBytes w = (wordBytes w).take 4 ++ (wordBytes w).drop 4 :=
    (List.take_append_drop 4 _).symm
  rw [hsplit, List.map_append] at h
  have hbytes := loadBytes_of_holds h.left
  rw [List.length_take, wordBytes_length] at hbytes
  have hmod : w % 2 ^ 32 = w := Nat.mod_eq_of_lt (by omega)
  have hint : (BitVec.ofNat 32 w).toInt = w := by
    have hnat : (BitVec.ofNat 32 w).toNat = w := by rw [BitVec.toNat_ofNat, hmod]
    rw [BitVec.toInt_eq_toNat_of_lt (by omega), hnat]
  rw [loadInt, show loadBytes L 4 a = _ from hbytes, Option.map_some, ofBytes_take (by omega), hmod,
    hint]

theorem loadWords_of_holds {ws : List Nat} (h : Holds L a ((ws.flatMap wordBytes).map some))
    (hws : ∀ w ∈ ws, w < 2 ^ 64) : loadWords L ws.length a = some ws := by
  induction ws generalizing a with
  | nil => rfl
  | cons w ws ih =>
      rw [List.flatMap_cons, List.map_append] at h
      have hword := loadWord_of_holds h.left (hws w (by simp))
      have htail := h.right (b := a + 8) (by simp [wordBytes_length])
      have hrest := ih htail (fun x hx => hws x (by simp [hx]))
      simp [loadWords, hword, hrest]

theorem loadString_of_holds {s : List Byte} (h : Holds L a ((s ++ [0]).map some))
    (hnul : (0 : Byte) ∉ s) {n : Nat} (hn : s.length < n) : loadString L n a = some s := by
  induction s generalizing a n with
  | nil =>
      obtain ⟨n, rfl⟩ : ∃ k, n = k + 1 := ⟨n - 1, by simp at hn; omega⟩
      have hzero : L a = some 0 := (holds_cons.mp h).1
      simp [loadString, hzero]
  | cons b s ih =>
      simp only [List.length_cons] at hn
      obtain ⟨n, rfl⟩ : ∃ k, n = k + 1 := ⟨n - 1, by omega⟩
      obtain ⟨hb, htail⟩ := holds_cons.mp h
      simp only [List.mem_cons, not_or] at hnul
      have hrest := ih htail hnul.2 (n := n) (by omega)
      rw [loadString, hb, Option.bind_eq_bind, Option.bind_some, if_neg (Ne.symm hnul.1), hrest]
      rfl

/-- `_start` reads back a stack of that shape. -/
theorem start_of_holds {argc : Nat} {temp : List Nat}
    (h : Holds L a (((argc :: temp ++ [0, 0]).flatMap wordBytes).map some))
    (hargc : argc < 2 ^ 31) (hlen : temp.length = argc) (htemp : ∀ w ∈ temp, w < 2 ^ 64) :
    start L a = some ((argc : Int), temp, []) := by
  have hsplit : (argc :: temp ++ [0, 0]).flatMap wordBytes = wordBytes argc ++
      (temp.flatMap wordBytes ++ (wordBytes 0 ++ wordBytes 0)) := by
    simp
  rw [hsplit, List.map_append, List.map_append, List.map_append] at h
  have hsize : (temp.flatMap wordBytes).length = 8 * argc := by
    simp only [List.length_flatMap, wordBytes_length, List.map_const', List.sum_replicate,
      smul_eq_mul]
    omega
  have hcount := loadInt_of_holds h.left hargc
  have htail := h.right (b := a + 8) (by simp [wordBytes_length])
  have hptrs := loadWords_of_holds htail.left htemp
  have hzeros := htail.right (b := a + 8 + 8 * argc) (by simp only [List.length_map, hsize])
  have hnull := loadWord_of_holds (hzeros.right (b := a + 8 + 8 * argc + 8)
    (by simp [wordBytes_length])) (by decide)
  have henv : loadEnv L 100 (a + 8 + 8 * argc + 8) = some [] := by
    rw [loadEnv, hnull]
    rfl
  rw [hlen] at hptrs
  simp [start, hcount, hptrs, henv]

/-- Reading the elements one by one. -/
theorem mapM_eq_some {α β : Type} {f : α → Option β} {l : List α} {l' : List β}
    (hlen : l.length = l'.length)
    (h : ∀ (i : Nat) (x : α) (y : β), l[i]? = some x → l'[i]? = some y → f x = some y) :
    l.mapM f = some l' := by
  induction l generalizing l' with
  | nil =>
      obtain rfl : l' = [] := by simpa using hlen.symm
      rfl
  | cons x l ih =>
      cases l' with
      | nil => simp at hlen
      | cons y l' =>
          have hhead := h 0 x y rfl rfl
          have htail := ih (by simpa using hlen)
            (fun i x y hx hy => h (i + 1) x y (by simpa using hx) (by simpa using hy))
          simp [List.mapM_cons, hhead, htail]

end Decode

/-- `ts->rsp` when `execvpe` enters the new image. -/
def execRsp (args : List (List Byte)) : Nat :=
  (pushStrings initialRsp args).2.2 - 8 * (args.length + 3)

theorem stringsSize_mod (args : List (List Byte)) : stringsSize args % 8 = 0 := by
  induction args with
  | nil => rfl
  | cons s rest ih =>
      have hsize : stringsSize (s :: rest) = 8 * (s.length + 1) + stringsSize rest := by
        simp [stringsSize]
      omega

/-- The words `execvpe` pushes below the strings. -/
theorem execWords_put {args : List (List Byte)} (hargs : FitsArgs args) {L L' : Nat → Option Byte}
    (h : WroteAll L (pushWords (pushStrings initialRsp args).2.2
      ([0, 0] ++ (pushStrings initialRsp args).2.1.reverse ++ [args.length])) L') :
    Put L (execRsp args)
      ((args.length :: (pushStrings initialRsp args).2.1 ++ [0, 0]).flatMap wordBytes) L' := by
  have hsize := hargs.size
  have hcount := hargs.1
  have hmod := stringsSize_mod args
  have hinit : initialRsp = 0x100FFFFF0FF0 := rfl
  obtain ⟨hrsp, htemp, -⟩ := pushStrings_spec args initialRsp (by omega)
  have hput := pushWords_put _ (by simp only [List.length_append, List.length_cons,
    List.length_nil, List.length_reverse, htemp, hrsp]; omega) (by rw [hrsp]; omega) h
  have hrev : ([0, 0] ++ (pushStrings initialRsp args).2.1.reverse ++ [args.length]).reverse =
      args.length :: (pushStrings initialRsp args).2.1 ++ [0, 0] := by
    simp
  have hlen : ([0, 0] ++ (pushStrings initialRsp args).2.1.reverse ++ [args.length]).length =
      args.length + 3 := by
    simp [htemp]
  rwa [hrev, hlen] at hput

/-- The stack `execvpe` builds: from the stack pointer upwards the number of the
strings, their addresses and two zeros, and above these the strings. -/
theorem execWrites_put {args : List (List Byte)} (hargs : FitsArgs args)
    {L L' : Nat → Option Byte} (h : WroteAll L (execWrites args) L') :
    ∃ temp : List Nat, temp.length = args.length ∧
      Holds L' (execRsp args) (((args.length :: temp ++ [0, 0]).flatMap wordBytes).map some) ∧
      (∀ (i a : Nat) (s : List Byte), args[i]? = some s → temp[i]? = some a →
        Holds L' a ((s ++ [0]).map some) ∧ execRsp args + 8 * (args.length + 3) ≤ a ∧
          a + s.length + 1 ≤ initialRsp) ∧
      ∀ (i j a b : Nat) (s : List Byte), i < j → args[i]? = some s → temp[i]? = some a →
        temp[j]? = some b → a + s.length + 1 ≤ b := by
  have hsize := hargs.size
  have hcount := hargs.1
  have hinit : initialRsp = 0x100FFFFF0FF0 := rfl
  obtain ⟨hrsp, htemp, -⟩ := pushStrings_spec args initialRsp (by omega)
  obtain ⟨hwithin, horder⟩ := pushStrings_layout args initialRsp (by omega)
  obtain ⟨L₁, hstrings, hwords⟩ := wroteAll_append.mp h
  obtain ⟨hholds, -⟩ := pushStrings_put args (by omega) hstrings
  have hput := execWords_put hargs hwords
  have hbytes : ((args.length :: (pushStrings initialRsp args).2.1 ++ [0, 0]).flatMap
      wordBytes).length = 8 * (args.length + 3) := by
    simp only [List.length_flatMap, wordBytes_length, List.map_const', List.sum_replicate,
      smul_eq_mul, List.length_append, List.length_cons, List.length_nil, htemp]
    omega
  refine ⟨(pushStrings initialRsp args).2.1, htemp, hput.holds, ?_, ?_⟩
  · intro i a s hs ha
    obtain ⟨hlo, hhi⟩ := hwithin i a s hs ha
    refine ⟨hput.keeps (hholds i a s hs ha) (.inr ?_), ?_, by omega⟩
    · rw [hbytes, execRsp, hrsp]
      omega
    · rw [execRsp, hrsp]
      omega
  · intro i j a b s hij hs ha hb
    have := horder i j a b s hij hs ha hb
    omega

/-- The stack at `rsp` carries `argv`: the words upwards from `rsp` are the number
of the strings, their addresses and two zeros; `_start` reads the number, the
addresses and no environment; and the strings at the addresses are those of `argv`,
apart from each other and above the words. -/
structure Carries (L : Nat → Option Byte) (rsp : Nat) (argv : List (List Byte))
    (temp : List Nat) : Prop where
  words : loadWords L (argv.length + 3) rsp = some (argv.length :: temp ++ [0, 0])
  start : start L rsp = some ((argv.length : Int), temp, [])
  strings : temp.mapM (loadString L 80) = some argv
  above : ∀ (i a : Nat) (s : List Byte), argv[i]? = some s → temp[i]? = some a →
    rsp + 8 * (argv.length + 3) ≤ a
  apart : ∀ (i j a b : Nat) (s : List Byte), i < j → argv[i]? = some s → temp[i]? = some a →
    temp[j]? = some b → a + s.length + 1 ≤ b

/-- The writes of `execvpe` leave such a stack. -/
theorem execWrites_carries {argv : List (List Byte)} (hargs : FitsArgs argv)
    (hnul : ∀ s ∈ argv, (0 : Byte) ∉ s) {L L' : Nat → Option Byte}
    (h : WroteAll L (execWrites argv) L') : ∃ temp, Carries L' (execRsp argv) argv temp := by
  obtain ⟨temp, hlen, hwords, hstrings, horder⟩ := execWrites_put hargs h
  have hinit : initialRsp = 0x100FFFFF0FF0 := rfl
  have hcount := hargs.1
  have hsmall : ∀ w ∈ temp, w < 2 ^ 64 := by
    intro w hw
    obtain ⟨i, hi, rfl⟩ := List.mem_iff_getElem.mp hw
    have hs : i < argv.length := by omega
    have := hstrings i temp[i] argv[i] (List.getElem?_eq_getElem hs) (List.getElem?_eq_getElem hi)
    omega
  refine ⟨temp, ?_, start_of_holds hwords (by omega) hlen hsmall, ?_, ?_, horder⟩
  · have hall : (argv.length :: temp ++ [0, 0]).length = argv.length + 3 := by simp [hlen]
    have hload := loadWords_of_holds hwords ?_
    · rwa [hall] at hload
    · intro w hw
      simp only [List.cons_append, List.mem_cons, List.mem_append, List.not_mem_nil,
        or_false, or_self] at hw
      obtain rfl | hw | rfl := hw
      · omega
      · exact hsmall w hw
      · decide
  · refine mapM_eq_some hlen ?_
    intro i a s ha hs
    have hmem := List.mem_of_getElem? hs
    exact loadString_of_holds (hstrings i a s hs ha).1 (hnul s hmem) (hargs.2 s hmem)
  · intro i a s hs ha
    exact (hstrings i a s hs ha).2.1

/-- `_start` gets what `execvpe` was given, for at most ten strings of less than 80
bytes: every `execvpe` that enters the image leaves a stack that carries them. It
does enter the image once the segments are loaded, with seven frames left and no
segment on the page below the first page of the stack. -/
theorem exec_arguments_decoded (k : System) (h : Reachable System.step Safe BootStart k)
    (img : Image) (hok : img.Ok) (A : Nat → Byte) (argv : List (List Byte))
    (hargs : FitsArgs argv) (hnul : ∀ s ∈ argv, (0 : Byte) ∉ s) :
    (∀ k', k.step (.exec img (argRows (copyArgs A 0 argv) argv.length)) = some k' →
      ∃ temp, Carries (view k'.mem k'.cur.root) (execRsp argv) argv temp) ∧
    (∀ vm₁ m₁, k.inUser → ¬ img.brings (stackPage - 1) →
      img.phdrs.reverse.foldlM (loadSegment img k.cur.root)
        (k.cur.vm, k.mem.deallocPml4 k.cur.root) = some (vm₁, m₁) → Supplied 7 m₁ →
      ∃ k', k.step (.exec img (argRows (copyArgs A 0 argv) argv.length)) = some k') := by
  obtain ⟨m₀, G, -, hgood⟩ := BootStart.good (fun _ _ hsafe => hsafe) h
  rw [argRows_copyArgs hargs hnul]
  refine ⟨?_, ?_⟩
  · intro k' hstep
    cases step_moves hstep with
    | exec huser hrun =>
        rename_i sp m
        obtain ⟨G', hroot, -, -, -, -, L, hwrote⟩ :=
          execvpe_spec hgood.inv hgood.homed (hgood.cur_valid huser) hok hargs hrun
        have hcur : ({ k with space := Function.update k.space k.sched.r sp, mem := m } :
            System).cur = sp := by
          simp [System.cur]
        rw [hcur, hroot]
        exact execWrites_carries hargs hnul hwrote
    | segv _ hact _ => simp at hact
    | stuck _ hact => simp at hact
  · intro vm₁ m₁ huser hbelow hsegs hs
    obtain ⟨r, hrun⟩ := execvpe_ok hgood.inv hgood.homed (hgood.cur_valid huser) hok hargs hbelow
      hsegs hs
    exact ⟨_, by rw [System.step, if_pos huser, hrun]; rfl⟩

/-- The first process of the small machine, and frames for all that it needs when its
old pages go. -/
theorem smallMem_supplied : ∃ k G, System.start smallMem emptyImage [] = some k ∧
    k.inUser = true ∧ Good smallMem k G ∧ Supplied 7 (k.mem.deallocPml4 k.cur.root) := by
  have hrun : ((System.start smallMem emptyImage []).any fun k => k.inUser &&
      ((fun o => o.bind fun f => (k.mem.page f).next)^[6] k.mem.head).isSome) = true := by
    decide +kernel
  obtain ⟨k, hk, hrun⟩ := (Option.any_eq_true _ _).mp hrun
  obtain ⟨huser, hfar⟩ := Bool.and_eq_true_iff.mp hrun
  obtain ⟨G, hgood, -⟩ := smallMem_boot.start emptyImage_ok (by decide) hk
  have hv := hgood.cur_valid huser
  refine ⟨k, G, hk, huser, hgood, ?_⟩
  obtain ⟨l, hl, -⟩ := hgood.inv.pool.chain
  have hlen : 6 < l.length := Chain.lt_length hl (Option.isSome_iff_ne_none.mp hfar)
  -- what is free stays free
  obtain ⟨G₁, hE⟩ := hv.emptied hgood.inv hgood.homed
  exact Supplied.of_roles ⟨l, hl, hlen⟩ hgood.inv hE.inv hE.free

theorem emptyImage_brings : ¬ emptyImage.brings (stackPage - 1) := by
  simp [Image.brings, emptyImage]
  decide

/-- The first process of the small machine replaces itself, with the arguments `a`
and `bc`. -/
theorem exec_arguments_decoded_two :
    ∃ (k' : System) (temp : List Nat), Carries (view k'.mem k'.cur.root)
      (execRsp [[0x61], [0x62, 0x63]]) [[0x61], [0x62, 0x63]] temp := by
  obtain ⟨k, G, hk, huser, -, hsupply⟩ := smallMem_supplied
  obtain ⟨hcarries, hreturns⟩ := exec_arguments_decoded k
    (.start ⟨smallMem, emptyImage, [], smallMem_boot, emptyImage_ok, by decide, hk⟩) emptyImage
    emptyImage_ok (fun _ => 0xAA) [[0x61], [0x62, 0x63]] ⟨by decide, by decide⟩ (by decide)
  obtain ⟨k', hk'⟩ := hreturns _ _ huser emptyImage_brings rfl hsupply
  exact ⟨k', hcarries k' hk'⟩

end X86Kernel.Kern
