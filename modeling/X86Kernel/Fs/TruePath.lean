import X86Kernel.Fs.Lookup

/-!
Path resolution, component by component. `setTruePath` writes the path into its
buffer and goes back to the slash before at every `..`, with nothing but a cursor
to remember where it is. For a path that is made of components the cursor stands
behind the names that are left, as a stack would have them; only at the root does
it stand one byte in front of the buffer.
-/

namespace X86Kernel.Fs

open Lib

def dots : List UInt8 := [46, 46]

/-- A name of a path. -/
def IsName (c : List UInt8) : Prop := c ≠ [] ∧ 47 ∉ c ∧ 0 ∉ c ∧ NoDots c

instance (c : List UInt8) : Decidable (IsName c) := inferInstanceAs (Decidable (_ ∧ _))

def IsComponent (c : List UInt8) : Prop := c = dots ∨ IsName c

instance (c : List UInt8) : Decidable (IsComponent c) := inferInstanceAs (Decidable (_ ∨ _))

/-- Every component with a slash behind it. -/
def rendered (cs : List (List UInt8)) : List UInt8 := cs.flatMap (· ++ [47])

/-- The components with slashes between them, and one behind them if they are to
end in one. -/
def slashed (cs : List (List UInt8)) (final : Bool) : List UInt8 :=
  [47].intercalate cs ++ if final ∧ cs ≠ [] then [47] else []

/-- One component on the way: `..` leaves the directory, and nothing leaves the
root. -/
def enter (stack : List (List UInt8)) (c : List UInt8) : List (List UInt8) :=
  if c = dots then stack.dropLast else stack ++ [c]

def normalise (cs : List (List UInt8)) : List (List UInt8) := cs.foldl enter []

structure PathText where
  absolute : Bool
  components : List (List UInt8)
  final : Bool
  valid : ∀ c ∈ components, IsComponent c

namespace PathText

def text (p : PathText) : List UInt8 :=
  if p.absolute then 47 :: slashed p.components p.final else slashed p.components p.final

/-- The components from the root on, for a process in the directory `dirs`. -/
def fromRoot (dirs : List (List UInt8)) (p : PathText) : List (List UInt8) :=
  if p.absolute then p.components else dirs ++ p.components

def whole (currDir : List UInt8) (p : PathText) : List UInt8 :=
  if p.absolute then p.text else currDir ++ p.text

end PathText

section Text

variable {c : List UInt8} {cs dirs : List (List UInt8)}

theorem not_isName_dots : ¬ IsName dots := by decide

theorem IsComponent.ne_nil (h : IsComponent c) : c ≠ [] := by
  obtain rfl | h := h
  · decide
  · exact h.1

theorem IsComponent.slash (h : IsComponent c) : (47 : UInt8) ∉ c := by
  obtain rfl | h := h
  · decide
  · exact h.2.1

@[simp] theorem rendered_nil : rendered [] = [] := rfl

@[simp] theorem rendered_cons (c : List UInt8) (cs : List (List UInt8)) :
    rendered (c :: cs) = c ++ 47 :: rendered cs := by
  simp [rendered]

@[simp] theorem rendered_append (cs cs' : List (List UInt8)) :
    rendered (cs ++ cs') = rendered cs ++ rendered cs' :=
  List.flatMap_append

@[simp] theorem slashed_nil (final : Bool) : slashed [] final = [] := by
  simp [slashed]

theorem slashed_cons (c : List UInt8) (hcs : cs ≠ []) (final : Bool) :
    slashed (c :: cs) final = c ++ 47 :: slashed cs final := by
  simp [slashed, List.intercalate_cons_of_ne_nil hcs, hcs]

theorem slashed_singleton (c : List UInt8) (final : Bool) :
    slashed [c] final = c ++ if final then [47] else [] := by
  simp [slashed]

/-- With a slash behind the last component there is one behind each. -/
theorem slashed_true (cs : List (List UInt8)) : slashed cs true = rendered cs := by
  induction cs with
  | nil => rfl
  | cons c cs ih =>
      obtain rfl | hcs := eq_or_ne cs []
      · simp [slashed_singleton]
      · rw [slashed_cons c hcs, ih, rendered_cons]

theorem getLast?_rendered (hcs : cs ≠ []) : (rendered cs).getLast? = some 47 := by
  obtain ⟨front, c, rfl⟩ := (List.eq_nil_or_concat' cs).resolve_left hcs
  rw [rendered_append, rendered_cons, rendered_nil, ← List.append_assoc, List.getLast?_concat]

theorem slashed_false (hcs : cs ≠ []) : slashed cs false ++ [47] = rendered cs := by
  rw [← slashed_true]
  simp [slashed, hcs]

theorem rendered_slashed (hcs : cs ≠ []) (dirs : List (List UInt8)) (final : Bool) :
    rendered dirs ++ slashed cs final = slashed (dirs ++ cs) final := by
  induction dirs with
  | nil => rfl
  | cons d dirs ih =>
      rw [List.cons_append, slashed_cons d (by simp [hcs]), ← ih]
      simp

/-- Whether there is a slash at the end can be seen in the text. -/
theorem getLast?_slashed (hcs : ∀ c ∈ cs, IsComponent c) (hne : cs ≠ []) (final : Bool) :
    (slashed cs final).getLast? = some 47 ↔ final = true := by
  obtain ⟨front, c, rfl⟩ : ∃ front c, cs = front ++ [c] :=
    (List.eq_nil_or_concat' cs).resolve_left hne
  have hc := hcs c (by simp)
  rw [← rendered_slashed (by simp), slashed_singleton]
  cases final with
  | true => simp
  | false =>
      have hlast : ¬ c.getLast? = some 47 := fun h => hc.slash (List.mem_of_getLast? h)
      simp [List.getLast?_append, hlast, hc.ne_nil]

/-- A relative path does not begin with a slash. -/
theorem slashed_head (hcs : ∀ c ∈ cs, IsComponent c) (hne : cs ≠ []) (final : Bool) :
    ∃ x s, slashed cs final = x :: s ∧ x ≠ 47 := by
  cases cs with
  | nil => exact absurd rfl hne
  | cons c cs =>
      have hc := hcs c (by simp)
      obtain ⟨x, c', rfl⟩ := List.exists_cons_of_ne_nil hc.ne_nil
      have hx : x ≠ 47 := by
        rintro rfl
        exact hc.slash (by simp)
      obtain rfl | hcs' := eq_or_ne cs []
      · exact ⟨x, _, by rw [slashed_singleton, List.cons_append], hx⟩
      · exact ⟨x, _, by rw [slashed_cons _ hcs', List.cons_append], hx⟩

end Text

section Buffer

variable {abs : Int → UInt8} {a : Int} {stack : List (List UInt8)} {c : List UInt8}

/-- The buffer holds the text, and the cursor stands behind it. -/
structure Behind (text : List UInt8) (abs : Int → UInt8) (a : Int) : Prop where
  cursor : a = text.length
  holds : Holds (fun i : Nat => abs i) 0 text

def AtStart (stack : List (List UInt8)) (abs : Int → UInt8) (a : Int) : Prop :=
  Behind (rendered stack) abs a

structure AtEnd (stack : List (List UInt8)) (abs : Int → UInt8) (a : Int) : Prop where
  cursor : a + 1 = (rendered stack).length
  holds : Holds (fun i : Nat => abs i) 0 (slashed stack false)

/-- Going back from `a` one comes to `b`: to a slash, or in front of the buffer. -/
structure Scan (abs : Int → UInt8) (a b : Int) : Prop where
  low : -1 ≤ b
  le : b ≤ a
  between : ∀ j, b < j → j ≤ a → abs j ≠ 47
  stop : b = -1 ∨ abs b = 47

theorem Scan.done {b : Int} (h : Scan abs b b) : ¬ (abs b ≠ 47 ∧ 0 ≤ b) := by
  rintro ⟨hne, hpos⟩
  obtain rfl | heq := h.stop
  · omega
  · exact hne heq

theorem Scan.next {b : Int} (h : Scan abs a b) (hlt : b < a) :
    (abs a ≠ 47 ∧ 0 ≤ a) ∧ Scan (Function.update abs a 0) (a - 1) b := by
  have hlow := h.low
  have hbefore : ∀ j, j < a → Function.update abs a 0 j = abs j := fun j hj =>
    Function.update_of_ne (by omega) _ _
  refine ⟨⟨h.between a hlt (Int.le_refl _), by omega⟩, hlow, by omega, fun j hj hja => ?_,
    h.stop.imp_right fun heq => by rw [hbefore b hlt, heq]⟩
  rw [hbefore j (by omega)]
  exact h.between j hj (by omega)

/-- The inner loop stops there, and leaves the buffer up to there as it was. -/
theorem Scan.reaches {n : Nat} {b : Int} (h : Scan abs a b) (hn : a ≤ b + n) :
    (eraseBack n abs a).2 = b ∧ ∀ j ≤ b, (eraseBack n abs a).1 j = abs j := by
  induction n generalizing abs a with
  | zero =>
      have hle := h.le
      obtain rfl : a = b := by omega
      exact ⟨rfl, fun _ _ => rfl⟩
  | succ n ih =>
      obtain rfl | hlt := eq_or_lt_of_le h.le
      · rw [eraseBack, if_neg h.done]
        exact ⟨rfl, fun _ _ => rfl⟩
      · obtain ⟨htest, hnext⟩ := h.next hlt
        rw [eraseBack, if_pos htest]
        obtain ⟨hcursor, hkept⟩ := ih hnext (by omega)
        refine ⟨hcursor, fun j hj => ?_⟩
        rw [hkept j hj, Function.update_of_ne (by omega)]

/-- `..` behind a text with a slash in it, the last byte aside. -/
theorem Behind.scan_inner {u v : List UInt8} {x : UInt8} (hv : (47 : UInt8) ∉ v)
    (h : Behind (u ++ 47 :: (v ++ [x])) abs a) :
    Scan (Function.update abs (a - 1) 0) (a - 1) u.length ∧ (u.length : Int) < a - 1 := by
  have ha : a = u.length + v.length + 2 := by
    rw [h.cursor]
    push_cast [List.length_append, List.length_cons, List.length_nil]
    omega
  obtain ⟨hslash, htail⟩ := holds_cons.mp (h.holds.right rfl)
  have hvholds := htail.left
  simp only [Nat.zero_add] at hslash hvholds
  have hkeep : ∀ j, j < a - 1 → Function.update abs (a - 1) 0 j = abs j := fun j hj =>
    Function.update_of_ne (by omega) _ _
  refine ⟨⟨by omega, by omega, fun j hj hja => ?_, .inr ?_⟩, by omega⟩
  · obtain rfl | hlt := eq_or_lt_of_le hja
    · simp
    · obtain ⟨i, rfl⟩ : ∃ i : Nat, j = ((u.length + 1 + i : Nat) : Int) :=
        ⟨(j - u.length - 1).toNat, by omega⟩
      have hi : i < v.length := by omega
      have hat : abs ((u.length + 1 + i : Nat) : Int) = v[i] :=
        hvholds i v[i] (List.getElem?_eq_getElem hi)
      rw [hkeep _ hlt, hat]
      intro heq
      exact hv (heq ▸ List.getElem_mem hi)
  · rw [hkeep _ (by omega)]
    exact hslash

/-- `..` behind a text without a slash, the last byte aside. -/
theorem Behind.scan_outer {t : List UInt8} (ht : (47 : UInt8) ∉ t.dropLast)
    (h : Behind t abs a) : Scan (Function.update abs (a - 1) 0) (a - 1) (-1) := by
  have ha := h.cursor
  refine ⟨Int.le_refl _, by omega, fun j hj hja => ?_, .inl rfl⟩
  obtain rfl | hlt := eq_or_lt_of_le hja
  · simp
  · obtain ⟨i, rfl⟩ : ∃ i : Nat, j = (i : Int) := ⟨j.toNat, by omega⟩
    have hi : i < t.dropLast.length := by
      rw [List.length_dropLast]
      omega
    have hat := h.holds i t[i] (List.getElem?_eq_getElem (by omega))
    simp only [Nat.zero_add] at hat
    rw [Function.update_of_ne (by omega), hat, ← List.getElem_dropLast hi]
    exact fun heq => ht (heq ▸ List.getElem_mem hi)

/-- The cursor comes to the slash. -/
theorem Behind.eraseBack_inner {u v : List UInt8} {x : UInt8} (hv : (47 : UInt8) ∉ v)
    (h : Behind (u ++ 47 :: (v ++ [x])) abs a) :
    let r := eraseBack (a + 1).toNat (Function.update abs (a - 1) 0) (a - 1)
    Behind u r.1 r.2 := by
  obtain ⟨hscan, hlt⟩ := h.scan_inner hv
  obtain ⟨hcursor, hkept⟩ := hscan.reaches (n := (a + 1).toNat) (by omega)
  refine ⟨hcursor, fun i y hy => ?_⟩
  have hi : i < u.length := (List.getElem?_eq_some_iff.mp hy).1
  simp only [Nat.zero_add]
  rw [hkept i (by omega), Function.update_of_ne (by omega)]
  simpa using h.holds.left i y hy

/-- The cursor leaves the buffer. -/
theorem Behind.eraseBack_outer {t : List UInt8} (ht : (47 : UInt8) ∉ t.dropLast)
    (h : Behind t abs a) :
    (eraseBack (a + 1).toNat (Function.update abs (a - 1) 0) (a - 1)).2 = -1 := by
  have ha := h.cursor
  exact ((h.scan_outer ht).reaches (n := (a + 1).toNat) (by omega)).1

/-- A slash. -/
theorem AtEnd.slash (h : AtEnd stack abs a) :
    AtStart stack (Function.update abs a 47) (a + 1) := by
  refine ⟨h.cursor, ?_⟩
  obtain rfl | hne := eq_or_ne stack []
  · exact Holds.nil
  · have hcursor := h.cursor
    have hrendered := slashed_false hne
    rw [← hrendered] at hcursor ⊢
    simp only [List.length_append, List.length_singleton] at hcursor
    refine holds_append.mpr ⟨fun i x hx => ?_, holds_cons.mpr ⟨?_, Holds.nil⟩⟩
    · have hi : i < (slashed stack false).length := (List.getElem?_eq_some_iff.mp hx).1
      simp only [Nat.zero_add]
      rw [Function.update_of_ne (by omega)]
      simpa using h.holds i x hx
    · obtain rfl : a = ((slashed stack false).length : Int) := by omega
      simp

/-- The step over one component, up to the slash behind it. -/
theorem truePathLoop_component (rest : List UInt8) (hc : IsComponent c)
    (hstack : ∀ d ∈ stack, IsName d) (hrest : rest.head? ≠ some 46) (h : AtStart stack abs a) :
    ∃ abs' a', truePathLoop (c ++ rest) abs a = truePathLoop rest abs' a' ∧
      AtEnd (enter stack c) abs' a' := by
  obtain rfl | hname := hc
  · -- back over the last name, to the slash in front of it or out of the buffer
    refine ⟨_, _, rfl, ?_⟩
    rw [enter, if_pos rfl]
    obtain rfl | ⟨front, d, rfl⟩ := List.eq_nil_or_concat' stack
    · have hout := Behind.eraseBack_outer (by simp) h
      exact ⟨by rw [hout]; rfl, Holds.nil⟩
    · have hd := hstack d (by simp)
      rw [AtStart, rendered_append, rendered_cons, rendered_nil] at h
      rw [List.dropLast_concat]
      obtain rfl | hfront := eq_or_ne front []
      · have hout := Behind.eraseBack_outer (by simpa using hd.2.1) h
        exact ⟨by rw [hout]; rfl, Holds.nil⟩
      · rw [← slashed_false hfront, List.append_assoc, List.singleton_append] at h
        obtain ⟨hcursor, hholds⟩ := Behind.eraseBack_inner hd.2.1 h
        refine ⟨?_, hholds⟩
        rw [hcursor, ← slashed_false hfront]
        simp
  · have hcursor := h.cursor
    obtain ⟨abs', hloop, hholds, hbefore⟩ :=
      truePathLoop_append hname.2.2.2 hrest abs (rendered stack).length
    have hne : c ≠ dots := by
      rintro rfl
      exact not_isName_dots hname
    rw [← hcursor] at hloop
    refine ⟨abs', _, hloop, ?_, ?_⟩
    · rw [enter, if_neg hne, rendered_append, rendered_cons, rendered_nil]
      push_cast [List.length_append, List.length_cons, List.length_nil]
      omega
    · rw [enter, if_neg hne, ← rendered_slashed (by simp), slashed_singleton]
      simp only [Bool.false_eq_true, if_false, List.append_nil]
      refine holds_append.mpr ⟨fun i x hx => ?_, by simpa using hholds⟩
      have hi : i < (rendered stack).length := (List.getElem?_eq_some_iff.mp hx).1
      simp only [Nat.zero_add]
      rw [hbefore i hi]
      simpa using h.holds i x hx

/-- Names stay names. -/
theorem enter_names (hc : IsComponent c) (hstack : ∀ d ∈ stack, IsName d) :
    ∀ d ∈ enter stack c, IsName d := by
  intro d hd
  rw [enter] at hd
  split_ifs at hd with hdots
  · exact hstack d (List.dropLast_subset _ hd)
  · obtain hd | hd := List.mem_append.mp hd
    · exact hstack d hd
    · rw [List.mem_singleton.mp hd]
      exact hc.resolve_left hdots

/-- The run over a path that does not end in a slash, and the run over one that
does. -/
theorem truePathLoop_components {cs : List (List UInt8)} (hne : cs ≠ [])
    (hcs : ∀ d ∈ cs, IsComponent d) (hstack : ∀ d ∈ stack, IsName d)
    (h : AtStart stack abs a) :
    (∃ abs' a', truePathLoop (slashed cs false) abs a = (abs', a') ∧
        AtEnd (cs.foldl enter stack) abs' a') ∧
      ∃ abs' a', truePathLoop (slashed cs true) abs a = (abs', a') ∧
        AtStart (cs.foldl enter stack) abs' a' := by
  induction cs generalizing stack abs a with
  | nil => exact absurd rfl hne
  | cons c cs ih =>
      have hc := hcs c (by simp)
      obtain rfl | hcs' := eq_or_ne cs []
      · constructor
        · obtain ⟨abs', a', hloop, hend⟩ := truePathLoop_component [] hc hstack (by simp) h
          exact ⟨abs', a', by simpa [slashed_singleton, truePathLoop] using hloop, hend⟩
        · obtain ⟨abs', a', hloop, hend⟩ :=
            truePathLoop_component [47] hc hstack (by simp) h
          refine ⟨_, _, ?_, hend.slash⟩
          rw [slashed_singleton, if_pos rfl, hloop, truePathLoop_cons (by simp), truePathLoop]
      · -- the component and the slash behind it, and then the others
        have hnames := enter_names hc hstack
        have hstep : ∀ final, ∃ abs' a', truePathLoop (slashed (c :: cs) final) abs a =
            truePathLoop (slashed cs final) abs' a' ∧ AtStart (enter stack c) abs' a' := by
          intro final
          obtain ⟨abs', a', hloop, hend⟩ :=
            truePathLoop_component (47 :: slashed cs final) hc hstack (by simp) h
          refine ⟨_, _, ?_, hend.slash⟩
          rw [slashed_cons c hcs', hloop, truePathLoop_cons (by simp)]
        obtain ⟨abs₁, a₁, hloop₁, hstart₁⟩ := hstep false
        obtain ⟨abs₂, a₂, hloop₂, hstart₂⟩ := hstep true
        rw [hloop₁, hloop₂, List.foldl_cons]
        have hrest := fun d hd => hcs d (List.mem_cons_of_mem _ hd)
        exact ⟨(ih hcs' hrest hnames hstart₁).1, (ih hcs' hrest hnames hstart₂).2⟩

end Buffer

section Resolve

variable {currDir path : List UInt8} {cs dirs : List (List UInt8)}

theorem normalise_names (hcs : ∀ c ∈ cs, IsComponent c) : ∀ d ∈ normalise cs, IsName d := by
  have hrun : ∀ stack : List (List UInt8), (∀ d ∈ stack, IsName d) →
      ∀ d ∈ cs.foldl enter stack, IsName d := by
    induction cs with
    | nil => exact fun _ h => h
    | cons c cs ih =>
        intro stack hstack
        exact ih (fun d hd => hcs d (by simp [hd])) _ (enter_names (hcs c (by simp)) hstack)
  exact hrun [] (by simp)

theorem length_enter_le (stack : List (List UInt8)) (c : List UInt8) :
    (rendered (enter stack c)).length ≤ (rendered stack).length + (rendered [c]).length := by
  rw [enter]
  split_ifs
  · obtain rfl | ⟨front, d, rfl⟩ := List.eq_nil_or_concat' stack
    · simp
    · rw [List.dropLast_concat, rendered_append, List.length_append]
      omega
  · rw [rendered_append, List.length_append]

theorem length_normalise_le (cs : List (List UInt8)) :
    (rendered (normalise cs)).length ≤ (rendered cs).length := by
  have hrun : ∀ stack : List (List UInt8), (rendered (cs.foldl enter stack)).length ≤
      (rendered stack).length + (rendered cs).length := by
    induction cs with
    | nil => simp
    | cons c cs ih =>
        intro stack
        have hstep := length_enter_le stack c
        have hrest := ih (enter stack c)
        rw [List.foldl_cons, ← List.singleton_append, rendered_append, List.length_append]
        omega
  have hall := hrun []
  rwa [rendered_nil, List.length_nil, Nat.zero_add] at hall

theorem zero_not_mem_slashed (hcs : ∀ c ∈ cs, IsName c) (final : Bool) :
    (0 : UInt8) ∉ slashed cs final := by
  induction cs with
  | nil => simp
  | cons c cs ih =>
      have hc := (hcs c (by simp)).2.2.1
      obtain rfl | hne := eq_or_ne cs []
      · cases final <;> simp [slashed_singleton, hc]
      · rw [slashed_cons c hne]
        simp [hc, ih fun d hd => hcs d (by simp [hd])]

theorem length_slashed (hne : cs ≠ []) (final : Bool) :
    (slashed cs final).length + (if final then 0 else 1) = (rendered cs).length := by
  cases final with
  | true => simp [slashed_true]
  | false => simp [← slashed_false hne]

/-- What is left of the components, with a slash at the end if the path has one. -/
theorem setTruePath_components (hcs : ∀ c ∈ cs, IsComponent c) {final : Bool}
    (hpath : filePath currDir path = slashed cs final) (hlen : (slashed cs final).length < 50) :
    setTruePath currDir path = slashed (normalise cs) final := by
  obtain rfl | hne := eq_or_ne cs []
  · have hplain : filePath currDir path = [] := by rw [hpath, slashed_nil]
    rw [setTruePath_plain (by rw [hplain]; decide) (by simp [hplain]) (by simp [hplain]), hplain]
    exact (slashed_nil _).symm
  · have hnames := normalise_names hcs
    have hnul := zero_not_mem_slashed hnames final
    have hshort := length_normalise_le cs
    have hfull := length_slashed hne final
    have hstart : AtStart [] (pathBuffer path) 0 := ⟨rfl, Holds.nil⟩
    obtain ⟨hopen, hclosed⟩ := truePathLoop_components hne hcs (by simp) hstart
    cases final with
    | true =>
        obtain ⟨abs', a', hloop, hbehind⟩ := hclosed
        obtain ⟨rfl, hholds⟩ := hbehind
        rw [setTruePath_eq (by rw [hpath, hloop]), slashed_true]
        rw [slashed_true] at hnul hlen
        exact cstr_behind hholds hnul (by change (rendered (normalise cs)).length < 100; omega)
    | false =>
        obtain ⟨abs', a', hloop, hend⟩ := hopen
        rw [setTruePath_eq (by rw [hpath, hloop])]
        change AtEnd (normalise cs) abs' a' at hend
        obtain ⟨hcursor, hholds⟩ := hend
        obtain hroot | hdeep := eq_or_ne (normalise cs) []
        · -- the cursor stands in front of the buffer
          rw [hroot, slashed_nil]
          rw [hroot] at hcursor
          rw [cstr, hcursor]
          simp
        · have hlast := length_slashed hdeep false
          simp only [Bool.false_eq_true, if_false] at hlast hfull
          obtain rfl : a' = ((slashed (normalise cs) false).length : Int) := by omega
          exact cstr_behind hholds hnul (by omega)

/-- The string that the loop runs over, from the components. -/
theorem PathText.filePath_eq (dirs : List (List UInt8)) (p : PathText) :
    filePath (47 :: rendered dirs) p.text =
      slashed (p.fromRoot dirs) (decide ((p.whole (47 :: rendered dirs)).getLast? = some 47)) := by
  obtain ⟨absolute, cs, final, hcs⟩ := p
  obtain rfl | hne := eq_or_ne cs []
  · cases absolute with
    | true => simp [text, fromRoot, filePath]
    | false =>
        have hlast : (47 :: rendered dirs).getLast? = some 47 := by
          obtain rfl | hdirs := eq_or_ne dirs []
          · rfl
          · rw [List.getLast?_cons, getLast?_rendered hdirs]
            rfl
        simp [text, fromRoot, filePath, whole, hlast, slashed_true]
  · obtain ⟨x, s, hhead, hx⟩ := slashed_head hcs hne final
    have hlast : ∀ l : List UInt8,
        decide ((l ++ slashed cs final).getLast? = some 47) = final := by
      intro l
      have hsame : (l ++ slashed cs final).getLast? = (slashed cs final).getLast? :=
        List.getLast?_append_of_ne_nil _ (by simp [hhead])
      simp only [hsame, getLast?_slashed hcs hne final, Bool.decide_eq_true]
    cases absolute with
    | true =>
        have hwhole := hlast [47]
        rw [List.singleton_append] at hwhole
        simp [text, fromRoot, filePath, whole, hwhole]
    | false =>
        have hrelative : filePath (47 :: rendered dirs) (slashed cs final) =
            slashed (dirs ++ cs) final := by
          rw [filePath, hhead, if_neg (by simpa using hx), ← hhead]
          exact rendered_slashed hne dirs final
        simp only [text, fromRoot, whole, Bool.false_eq_true, if_false, hrelative, hlast]

end Resolve

/-- Path resolution is normalisation: from the components of the directory and
the path, or of an absolute path alone, every `..` takes the component before it
away. There is a slash at the end as there was one in the whole path, unless
nothing is left. -/
theorem setTruePath_normalise (dirs : List (List UInt8)) (hdirs : ∀ c ∈ dirs, IsComponent c)
    (p : PathText) (hfits : (filePath (47 :: rendered dirs) p.text).length < 50) :
    setTruePath (47 :: rendered dirs) p.text = slashed (normalise (p.fromRoot dirs))
      (decide ((p.whole (47 :: rendered dirs)).getLast? = some 47)) := by
  have hvalid : ∀ c ∈ p.fromRoot dirs, IsComponent c := by
    intro c hc
    rw [PathText.fromRoot] at hc
    split_ifs at hc
    · exact p.valid c hc
    · exact (List.mem_append.mp hc).elim (hdirs c) (p.valid c)
  rw [p.filePath_eq dirs] at hfits
  exact setTruePath_components hvalid (p.filePath_eq dirs) hfits

/-- From `/a/b/` to `../../../c/`. -/
theorem setTruePath_normalise_root :
    setTruePath [47, 97, 47, 98, 47] [46, 46, 47, 46, 46, 47, 46, 46, 47, 99, 47] = [99, 47] :=
  setTruePath_normalise [[97], [98]] (by decide)
    ⟨false, [dots, dots, dots, [99]], true, by decide⟩ (by decide)

end X86Kernel.Fs
