import Mathlib.Data.List.Induction
import Mathlib.Logic.Relation

/-!
Runs of a labelled transition function. `step s e` is `none` when the event
`e` cannot happen in `s`; `ok s e` is a side condition on the state before the
step. A reachable state is the end of a run from an initial state, and the
invariant rule below is the only induction over runs the development needs.
-/

namespace X86Kernel.Lib

variable {σ ε : Type*}

/-- `Run step ok s es t`: from `s` the events `es`, oldest first, lead to `t`
and every one of them met the side condition. -/
inductive Run (step : σ → ε → Option σ) (ok : σ → ε → Prop) (s : σ) :
    List ε → σ → Prop
  | nil : Run step ok s [] s
  | snoc {es : List ε} {t u : σ} {e : ε} : Run step ok s es t → ok t e →
      step t e = some u → Run step ok s (es ++ [e]) u

def Reachable (step : σ → ε → Option σ) (ok : σ → ε → Prop)
    (init : σ → Prop) (t : σ) : Prop :=
  ∃ s es, init s ∧ Run step ok s es t

variable {step : σ → ε → Option σ} {ok : σ → ε → Prop} {init : σ → Prop}

theorem Run.invariant {P : σ → Prop} {s t : σ} {es : List ε}
    (hrun : Run step ok s es t) (hinit : P s)
    (hstep : ∀ a e b, P a → ok a e → step a e = some b → P b) : P t := by
  induction hrun with
  | nil => exact hinit
  | snoc _ hok hnext ih => exact hstep _ _ _ ih hok hnext

theorem Reachable.invariant {P : σ → Prop} {t : σ}
    (h : Reachable step ok init t) (hinit : ∀ s, init s → P s)
    (hstep : ∀ a e b, P a → ok a e → step a e = some b → P b) : P t := by
  obtain ⟨s, es, hs, hrun⟩ := h
  exact hrun.invariant (hinit s hs) hstep

theorem Reachable.start {s : σ} (h : init s) : Reachable step ok init s :=
  ⟨s, [], h, .nil⟩

theorem Reachable.next {s t : σ} {e : ε} (h : Reachable step ok init s)
    (hok : ok s e) (hstep : step s e = some t) : Reachable step ok init t := by
  obtain ⟨s₀, es, hs, hrun⟩ := h
  exact ⟨s₀, es ++ [e], hs, hrun.snoc hok hstep⟩

def exec (step : σ → ε → Option σ) (s : σ) (es : List ε) : Option σ :=
  es.foldlM step s

theorem Reachable.exec {s t : σ} {es : List ε} (h : Reachable step ok init s)
    (hok : ∀ a e, e ∈ es → ok a e) (hrun : exec step s es = some t) :
    Reachable step ok init t := by
  induction es generalizing s with
  | nil =>
      obtain rfl : s = t := by simpa [Lib.exec] using hrun
      exact h
  | cons e rest ih =>
      simp only [Lib.exec, List.foldlM_cons, Option.bind_eq_bind, Option.bind_eq_some_iff]
        at hrun
      obtain ⟨u, hu, hrest⟩ := hrun
      exact ih (h.next (hok s e (by simp)) hu)
        (fun a e' he => hok a e' (by simp [he])) hrest

/-- An execution is a run. -/
theorem Run.exec {s t : σ} {es : List ε} (hrun : Lib.exec step s es = some t)
    (hok : ∀ a e, e ∈ es → ok a e) : Run step ok s es t := by
  induction es using List.reverseRecOn generalizing t with
  | nil =>
      obtain rfl : s = t := by simpa [Lib.exec] using hrun
      exact .nil
  | append_singleton es e ih =>
      simp only [Lib.exec, List.foldlM_append, List.foldlM_cons, List.foldlM_nil,
        Option.bind_eq_bind, Option.bind_eq_some_iff, Option.pure_def, Option.some.injEq] at hrun
      obtain ⟨u, hu, v, hv, rfl⟩ := hrun
      exact (ih hu fun a d hd => hok a d (by simp [hd])).snoc (hok u e (by simp)) hv

/-- The steps that meet the side condition. -/
def guarded (step : σ → ε → Option σ) (ok : σ → ε → Prop) [∀ s e, Decidable (ok s e)]
    (s : σ) (e : ε) : Option σ :=
  if ok s e then step s e else none

/-- An execution whose side condition is checked at every step is a run. -/
theorem Run.guarded [∀ s e, Decidable (ok s e)] {s t : σ} {es : List ε}
    (hrun : Lib.exec (guarded step ok) s es = some t) : Run step ok s es t := by
  induction es using List.reverseRecOn generalizing t with
  | nil =>
      obtain rfl : s = t := by simpa [Lib.exec] using hrun
      exact .nil
  | append_singleton es e ih =>
      simp only [Lib.exec, List.foldlM_append, List.foldlM_cons, List.foldlM_nil,
        Option.bind_eq_bind, Option.bind_eq_some_iff, Option.pure_def, Option.some.injEq] at hrun
      obtain ⟨u, hu, v, hv, rfl⟩ := hrun
      unfold Lib.guarded at hv
      split_ifs at hv with hok
      exact (ih hu).snoc hok hv

/-- A concrete run that ends in a state with a decidable property, with the side
condition checked at every step. -/
theorem reachable_of_guarded (step : σ → ε → Option σ) (ok : σ → ε → Prop)
    [∀ s e, Decidable (ok s e)] (s : σ) (es : List ε) (p : σ → Bool)
    (hrun : (exec (guarded step ok) s es).any p = true) :
    ∃ t, Reachable step ok (· = s) t ∧ p t = true := by
  obtain ⟨t, ht, hp⟩ := Option.any_eq_true _ _ |>.mp hrun
  exact ⟨t, ⟨s, es, rfl, .guarded ht⟩, hp⟩

/-- Where every step is matched by a step of another system, so is every run. -/
theorem Run.simulated {σ' ε' : Type*} {step' : σ' → ε' → Option σ'} {R : σ → σ' → Prop}
    {f : ε → ε'} {s t : σ} {es : List ε} (hrun : Run step ok s es t) {s' : σ'} (hR : R s s')
    (hstep : ∀ a e b a', R a a' → ok a e → step a e = some b →
      ∃ b', step' a' (f e) = some b' ∧ R b b') :
    ∃ t', Lib.exec step' s' (es.map f) = some t' ∧ R t t' := by
  induction hrun with
  | nil => exact ⟨s', rfl, hR⟩
  | snoc _ hok hnext ih =>
      obtain ⟨t', ht', hR'⟩ := ih
      obtain ⟨u', hu', hR''⟩ := hstep _ _ _ _ hR' hok hnext
      refine ⟨u', ?_, hR''⟩
      rw [Lib.exec] at ht' ⊢
      simp [List.foldlM_append, ht', hu']

/-- A concrete run that ends in a state with a decidable property. -/
theorem reachable_of_exec (step : σ → ε → Option σ) (ok : σ → ε → Prop) (s : σ)
    (es : List ε) (p : σ → Bool) (hok : ∀ a e, e ∈ es → ok a e)
    (hrun : (exec step s es).any p = true) :
    ∃ t, Reachable step ok (· = s) t ∧ p t = true := by
  obtain ⟨t, ht, hp⟩ := Option.any_eq_true _ _ |>.mp hrun
  have hstart : Reachable step ok (· = s) s := Reachable.start rfl
  exact ⟨t, hstart.exec hok ht, hp⟩

end X86Kernel.Lib
