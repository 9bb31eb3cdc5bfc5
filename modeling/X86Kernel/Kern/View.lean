import X86Kernel.Lib.Bytes
import X86Kernel.Kern.Fault

/-!
Memory as a process sees it: a byte, or nothing, at every user address. The
kernel builds the stack of a new image with such writes as the process would
make itself; each changes one word and nothing else that could be seen.
-/

namespace X86Kernel.Kern

open Lib Paging

def view (m : Mem) (p v : Nat) : Option Byte :=
  if v / 4096 < userPages then m.load p v else none

/-- What the write `w` makes of a view: the word `x` it falls on becomes `w.2 x`.
The word may have been out of sight before. -/
def Wrote (L : Nat → Option Byte) (w : Write) (L' : Nat → Option Byte) : Prop :=
  ∃ x : Word, (∀ v, v / 8 = w.1 / 8 →
      (∀ b, L v = some b → b = byteAt x (v % 8)) ∧ L' v = some (byteAt (w.2 x) (v % 8))) ∧
    ∀ v, v / 8 ≠ w.1 / 8 → L v ≠ none → L' v = L v

def WroteAll : (Nat → Option Byte) → List Write → (Nat → Option Byte) → Prop
  | L, [], L' => L' = L
  | L, w :: ws, L' => ∃ L₁, Wrote L w L₁ ∧ WroteAll L₁ ws L'

theorem wroteAll_append {L L' : Nat → Option Byte} {ws ws' : List Write} :
    WroteAll L (ws ++ ws') L' ↔ ∃ L₁, WroteAll L ws L₁ ∧ WroteAll L₁ ws' L' := by
  induction ws generalizing L with
  | nil => simp [WroteAll]
  | cons w ws ih =>
      simp only [List.cons_append, WroteAll, ih]
      constructor
      · rintro ⟨L₁, hw, L₂, hws, hws'⟩
        exact ⟨L₂, ⟨L₁, hw, hws⟩, hws'⟩
      · rintro ⟨L₂, ⟨L₁, hw, hws⟩, hws'⟩
        exact ⟨L₁, hw, L₂, hws, hws'⟩

/-- A write to a view that shows more. -/
theorem Wrote.weaken {L L₁ L' : Nat → Option Byte} {w : Write} (h : Wrote L₁ w L')
    (hsub : ∀ v, L v ≠ none → L₁ v = L v) : Wrote L w L' := by
  obtain ⟨x, hword, hrest⟩ := h
  refine ⟨x, ?_, ?_⟩
  · intro v hv
    refine ⟨?_, (hword v hv).2⟩
    intro b hb
    exact (hword v hv).1 b (by rw [hsub v (by simp [hb]), hb])
  · intro v hv hne
    have hsame := hsub v hne
    rw [hrest v hv (by rw [hsame]; exact hne), hsame]

section View

variable {m m' : Mem} {G : Ghost} {p a : Nat} {g : Word → Word}

/-- A store, as the process sees it. -/
theorem store_wrote (h : Inv m G) (hp : G.tab (p, 3, 0) = some p) (ha : a / 4096 < userPages)
    (hrun : m.store p a g = some m') : Wrote (view m p) (a, g) (view m' p) := by
  obtain ⟨e, he, -, rfl, h', -⟩ := h.store hp ha hrun
  refine ⟨m.word e.frame (a % 4096 / 8), ?_, ?_⟩
  · intro v hv
    dsimp only at hv ⊢
    have hpage : v / 4096 = a / 4096 := by omega
    have hidx : v % 4096 / 8 = a % 4096 / 8 := by omega
    have hmapped : G.mapped (p, v / 4096) = some e.frame := by simp [Ghost.mapped, hpage, he]
    unfold view
    rw [if_pos (by rw [hpage]; exact ha), if_pos (by rw [hpage]; exact ha),
      h.load hp (by rw [hpage]; exact ha), h'.load hp (by rw [hpage]; exact ha), hmapped, hidx]
    refine ⟨?_, by simp⟩
    intro b hb
    exact (Option.some.inj hb).symm
  · intro v hv hne
    dsimp only at hv
    unfold view at hne ⊢
    split_ifs at hne ⊢ with huser
    · rw [h.load hp huser, h'.load hp huser]
      cases hm : G.mapped (p, v / 4096) with
      | none => rfl
      | some f =>
          rw [Option.map_some, Option.map_some, Mem.set_word, if_neg]
          rintro ⟨rfl, hidx⟩
          -- the same word of the same frame, hence of the same page
          obtain ⟨e', he', hframe⟩ := Option.map_eq_some_iff.mp hm
          have hpage := h.refs.inj p _ _ e' e he' he hframe
          omega
    · exact absurd rfl hne

/-- After a repaired fault the process sees what it saw before. -/
theorem Repaired.view {n v : Nat} {G' : Ghost} (hR : Repaired p n m G m' G') (h : Inv m G)
    (hp : G.tab (p, 3, 0) = some p) (hsome : view m p v ≠ none) : view m' p v = view m p v := by
  unfold Kern.view at hsome ⊢
  split_ifs at hsome ⊢ with huser
  · refine hR.load h hp huser ?_
    intro hpage hnone
    rw [h.load hp huser] at hsome
    exact hsome (by simp [Ghost.mapped, hpage, hnone])
  · exact absurd rfl hsome

/-- A write of the process, after a fault or at once. -/
theorem write_wrote {sp : Space} (h : Inv m G) (hv : Valid m G sp) (ha : a / 4096 < userPages)
    (hpte : G.tab (sp.root, 0, a / 4096 / 512) ≠ none ∨ ∀ i, m.word 0 i = 0)
    (hrun : write m sp a g = some (.resume m')) :
    Wrote (view m sp.root) (a, g) (view m' sp.root) := by
  obtain hs | ⟨m₁, G₁, hR, -, hs⟩ := write_cases h hv ha hpte hrun
  · exact store_wrote h hv.root ha hs
  · exact (store_wrote hR.inv (hR.valid h hv).1.root ha hs).weaken
      fun v hne => hR.view h hv.root hne

end View

end X86Kernel.Kern
