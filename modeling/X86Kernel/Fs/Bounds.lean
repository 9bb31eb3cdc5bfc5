import Mathlib.Data.List.DropRight
import X86Kernel.Fs.TruePath

/-!
The indices of `abs_path` that path resolution uses. Going back, it reads the
buffer before it looks whether it is still in it, so that every `..` that finds no
slash in front of the last byte reads, or even writes, in front of the buffer.
-/

namespace X86Kernel.Fs

open Lib

/-- The indices of the inner loop of `setTruePath`. At an index below zero the
buffer is read once more. -/
def eraseBackIndices : Nat → (Int → UInt8) → Int → List Int
  | 0, _, a => [a]
  | n + 1, abs, a =>
      if abs a ≠ 47 ∧ 0 ≤ a then a :: eraseBackIndices n (Function.update abs a 0) (a - 1) else [a]

def truePathIndices : List UInt8 → (Int → UInt8) → Int → List Int
  | [], _, _ => []
  | 46 :: 46 :: rest, abs, a =>
      let r := eraseBack (a + 1).toNat (Function.update abs (a - 1) 0) (a - 1)
      (a - 1) :: (eraseBackIndices (a + 1).toNat (Function.update abs (a - 1) 0) (a - 1) ++
        truePathIndices rest r.1 r.2)
  | x :: rest, abs, a => a :: truePathIndices rest (Function.update abs a x) (a + 1)

/-- The indices of `setTruePath`: the path is copied with its NUL, and two bytes
are written behind the loop. -/
def setTruePathIndices (currDir path : List UInt8) : List Int :=
  let a := (truePathLoop (filePath currDir path) (pathBuffer path) 0).2
  (List.range (path.length + 1)).map Int.ofNat ++
    (truePathIndices (filePath currDir path) (pathBuffer path) 0 ++ [a, a + 1])

/-- What is in front of the last slash of a text, the last byte aside. -/
def parent (text : List UInt8) : Option (List UInt8) :=
  let upTo := text.dropLast.rdropWhile (· ≠ 47)
  if upTo = [] then none else some upTo.dropLast

/-- The condition on the string that is resolved, behind the text that was read of
it: at every `..` the text has a parent, which is the text from there on. -/
def Inside : List UInt8 → List UInt8 → Prop
  | _, [] => True
  | text, 46 :: 46 :: rest => ∃ above ∈ parent text, Inside above rest
  | text, x :: rest => Inside (text ++ [x]) rest

section Parent

variable {t u : List UInt8}

theorem parent_some (h : parent t = some u) :
    ∃ v x, t = u ++ 47 :: (v ++ [x]) ∧ (47 : UInt8) ∉ v := by
  simp only [parent] at h
  split_ifs at h with hnil
  obtain rfl := Option.some.inj h
  have hne : t ≠ [] := by
    rintro rfl
    exact hnil rfl
  have hlast := List.rdropWhile_last_not _ _ hnil
  have hsplit := List.dropLast_append_getLast hnil
  have hwhole : t.dropLast.rdropWhile (fun b => decide (b ≠ 47)) ++
      t.dropLast.rtakeWhile (fun b => decide (b ≠ 47)) = t.dropLast :=
    List.rdropWhile_append_rtakeWhile
  rw [show (t.dropLast.rdropWhile fun b => decide (b ≠ 47)).getLast hnil = 47 by
    simpa using hlast] at hsplit
  refine ⟨t.dropLast.rtakeWhile (fun b : UInt8 => decide (b ≠ 47)), t.getLast hne, ?_, ?_⟩
  · calc t = t.dropLast ++ [t.getLast hne] := (List.dropLast_append_getLast hne).symm
      _ = _ := by
        conv_lhs => rw [← hwhole, ← hsplit]
        simp
  · intro hmem
    simpa using List.mem_rtakeWhile_imp hmem

theorem parent_none (h : parent t = none) : (47 : UInt8) ∉ t.dropLast := by
  simp only [parent] at h
  split_ifs at h with hnil
  intro hmem
  simpa using List.rdropWhile_eq_nil_iff.mp hnil 47 hmem

end Parent

section Loop

variable {abs : Int → UInt8} {a b : Int} {t : List UInt8}

theorem Scan.mem_indices {n : Nat} (h : Scan abs a b) (hn : a ≤ b + n) (j : Int) :
    j ∈ eraseBackIndices n abs a ↔ b ≤ j ∧ j ≤ a := by
  induction n generalizing abs a with
  | zero =>
      have hle := h.le
      obtain rfl : a = b := by omega
      simp only [eraseBackIndices, List.mem_singleton]
      omega
  | succ n ih =>
      obtain rfl | hlt := eq_or_lt_of_le h.le
      · rw [eraseBackIndices, if_neg h.done, List.mem_singleton]
        omega
      · obtain ⟨htest, hnext⟩ := h.next hlt
        rw [eraseBackIndices, if_pos htest, List.mem_cons, ih hnext (by omega)]
        omega

theorem truePathIndices_cons {x : UInt8} {rest : List UInt8} (h : x = 46 → rest.head? ≠ some 46)
    (abs : Int → UInt8) (a : Int) :
    truePathIndices (x :: rest) abs a =
      a :: truePathIndices rest (Function.update abs a x) (a + 1) := by
  rw [truePathIndices]
  rintro rest' rfl rfl
  exact h rfl rfl

theorem inside_cons {x : UInt8} {rest : List UInt8} (h : x = 46 → rest.head? ≠ some 46)
    (text : List UInt8) : Inside text (x :: rest) ↔ Inside (text ++ [x]) rest := by
  rw [Inside]
  rintro rest' rfl rfl
  exact h rfl rfl

theorem Behind.snoc (h : Behind t abs a) (x : UInt8) :
    Behind (t ++ [x]) (Function.update abs a x) (a + 1) := by
  obtain ⟨rfl, hholds⟩ := h
  refine ⟨by simp, holds_append.mpr ⟨fun i y hy => ?_, holds_cons.mpr ⟨by simp, Holds.nil⟩⟩⟩
  have hi : i < t.length := (List.getElem?_eq_some_iff.mp hy).1
  simp only [Nat.zero_add]
  rw [Function.update_of_ne (by omega)]
  simpa using hholds i y hy

/-- As long as every `..` has a parent to go to, the loop stays inside; at the
first that has none it reads in front of the buffer. -/
theorem truePathIndices_inside (rest : List UInt8) (h : Behind t abs a) :
    (Inside t rest → (∀ j ∈ truePathIndices rest abs a, 0 ≤ j ∧ j < t.length + rest.length) ∧
        0 ≤ (truePathLoop rest abs a).2 ∧
        (truePathLoop rest abs a).2 ≤ t.length + rest.length) ∧
      (¬ Inside t rest → -1 ∈ truePathIndices rest abs a) := by
  induction t, rest using Inside.induct generalizing abs a with
  | case1 t =>
      have ha := h.cursor
      refine ⟨fun _ => ⟨by simp [truePathIndices], ?_⟩, fun hno => absurd ?_ hno⟩
      · simp only [truePathLoop, List.length_nil]
        omega
      · simp [Inside]
  | case2 t rest ih =>
      have ha := h.cursor
      rw [Inside, truePathIndices, truePathLoop]
      cases hparent : parent t with
      | none =>
          refine ⟨by simp, fun _ => ?_⟩
          have hscan := h.scan_outer (parent_none hparent)
          have hlow := (hscan.mem_indices (n := (a + 1).toNat) (by omega) (-1)).mpr
            ⟨Int.le_refl _, hscan.le⟩
          simp [hlow]
      | some u =>
          obtain ⟨v, x, rfl, hv⟩ := parent_some hparent
          obtain ⟨hscan, hlt⟩ := h.scan_inner hv
          have hmem := hscan.mem_indices (n := (a + 1).toNat) (by omega)
          obtain ⟨hinside, hout⟩ := ih u (h.eraseBack_inner hv)
          simp only [List.length_append, List.length_cons, List.length_nil] at ha ⊢
          constructor
          · rintro ⟨u', hu', hrest⟩
            obtain rfl : u = u' := by simpa using hu'
            obtain ⟨hin, hlow, hhigh⟩ := hinside hrest
            refine ⟨fun j hj => ?_, by omega, by push_cast; omega⟩
            obtain rfl | hj := List.mem_cons.mp hj
            · omega
            · obtain hj | hj := List.mem_append.mp hj
              · have := (hmem j).mp hj
                omega
              · have := hin j hj
                omega
          · intro hno
            have hrest : ¬ Inside u rest := fun hrest => hno ⟨u, rfl, hrest⟩
            simp [hout hrest]
  | case3 t x rest hx ih =>
      have hx' : x = 46 → rest.head? ≠ some 46 := by
        rintro rfl hhead
        cases rest with
        | nil => simp at hhead
        | cons y rest =>
            obtain rfl : y = 46 := by simpa using hhead
            exact hx rest rfl rfl
      have ha := h.cursor
      obtain ⟨hinside, hout⟩ := ih (h.snoc x)
      rw [inside_cons hx', truePathIndices_cons hx', truePathLoop_cons hx']
      simp only [List.length_append, List.length_cons, List.length_nil] at hinside ⊢
      refine ⟨fun hin => ?_, fun hno => List.mem_cons_of_mem _ (hout hno)⟩
      obtain ⟨hin, hlow, hhigh⟩ := hinside hin
      refine ⟨fun j hj => ?_, hlow, by omega⟩
      obtain rfl | hj := List.mem_cons.mp hj
      · omega
      · have := hin j hj
        omega

end Loop

def Deep : List (List UInt8) → List (List UInt8) → Prop
  | _, [] => True
  | stack, c :: cs => (c = dots → 2 ≤ stack.length) ∧ Deep (enter stack c) cs

section Components

variable {t : List UInt8} {stack : List (List UInt8)}

theorem parent_inner {u v : List UInt8} (hv : (47 : UInt8) ∉ v) (x : UInt8) :
    parent (u ++ 47 :: (v ++ [x])) = some u := by
  have hdrop : (u ++ [47] ++ v).rdropWhile (fun b : UInt8 => decide (b ≠ 47)) = u ++ [47] := by
    induction v using List.reverseRecOn with
    | nil => rw [List.append_nil, List.rdropWhile_concat_neg _ _ _ (by decide)]
    | append_singleton v y ih =>
        simp only [List.mem_append, List.mem_singleton, not_or] at hv
        rw [← List.append_assoc, List.rdropWhile_concat_pos _ _ _ (by simpa using Ne.symm hv.2)]
        exact ih hv.1
  have hfront : (u ++ 47 :: (v ++ [x])).dropLast = u ++ [47] ++ v := by
    rw [← List.cons_append, ← List.append_assoc, List.dropLast_concat]
    simp
  rw [parent, hfront, hdrop]
  simp

theorem parent_outer (ht : (47 : UInt8) ∉ t.dropLast) : parent t = none := by
  cases hparent : parent t with
  | none => rfl
  | some u =>
      obtain ⟨v, x, rfl, -⟩ := parent_some hparent
      refine absurd ?_ ht
      rw [← List.cons_append, ← List.append_assoc, List.dropLast_concat]
      simp

/-- The parent of a directory, two names deep or more. -/
theorem parent_rendered (hstack : ∀ d ∈ stack, IsName d) :
    parent (rendered stack) =
      if 2 ≤ stack.length then some (slashed stack.dropLast false) else none := by
  obtain rfl | ⟨front, d, rfl⟩ := List.eq_nil_or_concat' stack
  · exact parent_outer (by simp)
  · have hd := hstack d (by simp)
    rw [rendered_append, rendered_cons, rendered_nil, List.dropLast_concat]
    obtain rfl | hfront := eq_or_ne front []
    · exact parent_outer (by simpa using hd.2.1)
    · have hpos := List.length_pos_of_ne_nil hfront
      rw [if_pos (by simp; omega), ← slashed_false hfront, List.append_assoc,
        List.singleton_append]
      exact parent_inner hd.2.1 47

/-- A name is read as it stands. -/
theorem inside_append {s rest : List UInt8} (hs : NoDots s) (hrest : rest.head? ≠ some 46)
    (text : List UInt8) : Inside text (s ++ rest) ↔ Inside (text ++ s) rest := by
  induction s generalizing text with
  | nil => simp
  | cons x s ih =>
      have hx : x = 46 → (s ++ rest).head? ≠ some 46 := by
        rintro rfl hhead
        cases s with
        | nil => exact hrest hhead
        | cons y s =>
            obtain rfl : y = 46 := by simpa using hhead
            exact hs ⟨[], s, rfl⟩
      rw [List.cons_append, inside_cons hx, ih hs.tail, List.append_assoc, List.singleton_append]

/-- The step over one component, up to the slash behind it. -/
theorem inside_component {c : List UInt8} (hc : IsComponent c) (hstack : ∀ d ∈ stack, IsName d)
    {rest : List UInt8} (hrest : rest.head? ≠ some 46) :
    Inside (rendered stack) (c ++ rest) ↔
      (c = dots → 2 ≤ stack.length) ∧ Inside (slashed (enter stack c) false) rest := by
  obtain rfl | hname := hc
  · change (∃ above ∈ parent (rendered stack), Inside above rest) ↔ _
    rw [parent_rendered hstack, enter, if_pos rfl]
    split_ifs with hdeep <;> simp [hdeep]
  · have hne : c ≠ dots := by
      rintro rfl
      exact not_isName_dots hname
    rw [inside_append hname.2.2.2 hrest, enter, if_neg hne, ← rendered_slashed (by simp),
      slashed_singleton]
    simp [hne]

/-- For a path of components the condition counts names. -/
theorem inside_components {cs : List (List UInt8)} (hcs : ∀ c ∈ cs, IsComponent c)
    (hstack : ∀ d ∈ stack, IsName d) (final : Bool) :
    Inside (rendered stack) (slashed cs final) ↔ Deep stack cs := by
  induction cs generalizing stack with
  | nil => simp [Inside, Deep]
  | cons c cs ih =>
      have hc := hcs c (by simp)
      obtain rfl | hcs' := eq_or_ne cs []
      · have hend : ∀ text, Inside text (if final then [47] else []) := by
          intro text
          cases final <;> simp [Inside]
        rw [slashed_singleton, inside_component hc hstack (by cases final <;> simp)]
        simp [Deep, hend]
      · rw [slashed_cons c hcs', inside_component hc hstack (by simp), inside_cons (by simp), Deep]
        refine and_congr_right fun hdeep => ?_
        have hne : enter stack c ≠ [] := by
          rw [enter]
          split_ifs with hdots
          · have hlen := hdeep hdots
            intro hnil
            have := congrArg List.length hnil
            rw [List.length_dropLast, List.length_nil] at this
            omega
          · simp
        rw [slashed_false hne]
        exact ih (fun d hd => hcs d (by simp [hd])) (enter_names hc hstack)

end Components

/-- Path resolution stays inside its buffer exactly when every `..` of the string
that it resolves has a parent to go to. -/
theorem setTruePath_inside_iff (currDir path : List UInt8)
    (hlen : currDir.length + path.length < 49) :
    (∀ j ∈ setTruePathIndices currDir path, 0 ≤ j ∧ j ≤ 99) ↔
      Inside [] (filePath currDir path) := by
  have hstart : Behind [] (pathBuffer path) 0 := ⟨rfl, Holds.nil⟩
  have hshort : (filePath currDir path).length ≤ currDir.length + path.length := by
    rw [filePath]
    split_ifs
    · rw [List.length_drop]
      omega
    · rw [List.length_append, List.length_drop]
      omega
  obtain ⟨hinside, hout⟩ := truePathIndices_inside (filePath currDir path) hstart
  constructor
  · intro hall
    by_contra hno
    have hlow := hall (-1) (List.mem_append_right _ (List.mem_append_left _ (hout hno)))
    omega
  · intro hcond
    obtain ⟨hin, hlow, hhigh⟩ := hinside hcond
    simp only [List.length_nil] at hin hhigh
    intro j hj
    simp only [setTruePathIndices, List.mem_append, List.mem_map, List.mem_range, List.mem_cons,
      List.not_mem_nil, or_false] at hj
    obtain ⟨i, hi, rfl⟩ | hj | rfl | rfl := hj
    · simp only [Int.ofNat_eq_natCast]
      omega
    · have := hin j hj
      omega
    · omega
    · omega

/-- From `/a/` to `b/..`. -/
theorem setTruePath_inside_iff_sibling :
    (setTruePathIndices [47, 97, 47] [98, 47, 46, 46]).all (fun j => 0 ≤ j ∧ j ≤ 99) = true := by
  have hinside := (setTruePath_inside_iff [47, 97, 47] [98, 47, 46, 46] (by decide)).mpr
    ⟨[97], by decide, trivial⟩
  exact List.all_eq_true.mpr fun j hj => decide_eq_true (hinside j hj)

/-- `..` in the root. -/
theorem setTruePath_outside : ¬ ∀ (dirs : List (List UInt8)) (path : List UInt8),
    (∀ c ∈ dirs, IsName c) → (47 :: rendered dirs).length + path.length < 49 →
      ∀ j ∈ setTruePathIndices (47 :: rendered dirs) path, 0 ≤ j ∧ j ≤ 99 := by
  intro hall
  have hlow := hall [] [46, 46, 47] (by simp) (by decide) (-1) (by decide)
  exact absurd hlow.1 (by decide)

end X86Kernel.Fs
