/-
# SystemsLabs.Theory.Runs -- runs of a labelled transition system

`Run step s es s'` is a run from `s` to `s'` whose steps carry the labels `es`.  A claim
about every reachable state is proved with `Run.invariant`, one about a second machine that
follows the first with `Run.simulates` or `Run.follows`; a run that is computed, by a partial step function,
is obtained with `Run.of_foldlM`.
-/
import Mathlib.Tactic.Common

namespace SystemsLabs.Theory.Runs

set_option autoImplicit false

universe u v w

variable {σ : Type u} {ε : Type v}

/-- A run from one state to another, with the labels of its steps. -/
inductive Run (step : σ → ε → σ → Prop) : σ → List ε → σ → Prop
  | nil (s : σ) : Run step s [] s
  | cons {s s' s'' : σ} {e : ε} {es : List ε} :
      step s e s' → Run step s' es s'' → Run step s (e :: es) s''

variable {step : σ → ε → σ → Prop} {s s' : σ} {es : List ε}

/-- What holds at the start and is preserved by every step holds at the end. -/
theorem Run.invariant (run : Run step s es s') (inv : σ → Prop) (start : inv s)
    (keeps : ∀ s e s', inv s → step s e s' → inv s') : inv s' := by
  induction run with
  | nil => exact start
  | cons first _ ih => exact ih (keeps _ _ _ start first)

theorem Run.trans {s'' : σ} {es' : List ε} (first : Run step s es s') (rest : Run step s' es' s'') :
    Run step s (es ++ es') s'' := by
  induction first with
  | nil => exact rest
  | cons step _ ih => exact Run.cons step (ih rest)

theorem Run.split {before after : List ε} (run : Run step s (before ++ after) s') :
    ∃ mid, Run step s before mid ∧ Run step mid after s' := by
  induction before generalizing s with
  | nil => exact ⟨s, Run.nil s, run⟩
  | cons e before ih =>
      cases run with
      | cons first rest =>
          obtain ⟨mid, past, future⟩ := ih rest
          exact ⟨mid, Run.cons first past, future⟩

/-- The labels determine a run where they determine its steps. -/
theorem Run.unique {s₁ s₂ : σ} (functional : ∀ s e s₁ s₂, step s e s₁ → step s e s₂ → s₁ = s₂)
    (first : Run step s es s₁) (second : Run step s es s₂) : s₁ = s₂ := by
  induction first with
  | nil => cases second with | nil => rfl
  | cons step _ ih =>
      cases second with
      | cons step' rest =>
          cases functional _ _ _ _ step step'
          exact ih rest

/-- An invariant that may speak of the run so far. -/
theorem Run.history (run : Run step s es s') (inv : List ε → σ → Prop) (start : inv [] s)
    (keeps : ∀ es s₁ e s₂, Run step s es s₁ → inv es s₁ → step s₁ e s₂ → inv (es ++ [e]) s₂) : inv es s' := by
  have extend : ∀ (before : List ε) (s₁ : σ), Run step s before s₁ → inv before s₁ →
      ∀ (after : List ε) (s₂ : σ), Run step s₁ after s₂ → inv (before ++ after) s₂ := by
    intro before s₁ past holds after s₂ future
    induction future generalizing before with
    | nil => rwa [List.append_nil]
    | @cons s₁ s₂ s₃ e es first _ ih =>
        have reached := past.trans (Run.cons first (Run.nil s₂))
        have next := ih (before ++ [e]) reached (keeps _ _ _ _ past holds first)
        rwa [List.append_assoc] at next
  exact extend [] s (Run.nil s) start es s' run

/-- A run is a run of every relation that its steps satisfy. -/
theorem Run.mono {step' : σ → ε → σ → Prop} (run : Run step s es s')
    (weaker : ∀ s e s', step s e s' → step' s e s') : Run step' s es s' := by
  induction run with
  | nil => exact Run.nil _
  | cons first _ ih => exact Run.cons (weaker _ _ _ first) ih

/-- A run is followed by a machine that takes one step for each label. -/
theorem Run.simulates {τ : Type w} {abs : τ → ε → τ} {t : τ} (run : Run step s es s')
    (rel : σ → τ → Prop) (start : rel s t)
    (follows : ∀ s t e s', rel s t → step s e s' → rel s' (abs t e)) : rel s' (es.foldl abs t) := by
  induction run generalizing t with
  | nil => exact start
  | cons first _ ih => exact ih (follows _ _ _ _ start first)

/-- A forward simulation: an abstract machine answers each step of a run with one of its own. -/
theorem Run.follows {τ : Type w} {step' : τ → ε → τ → Prop} {t : τ} (run : Run step s es s')
    (rel : σ → τ → Prop) (start : rel s t)
    (answers : ∀ s t e s', rel s t → step s e s' → ∃ t', step' t e t' ∧ rel s' t') :
    ∃ t', Run step' t es t' ∧ rel s' t' := by
  induction run generalizing t with
  | nil => exact ⟨t, Run.nil t, start⟩
  | cons first _ ih =>
      obtain ⟨t', taken, related⟩ := answers _ _ _ _ start first
      obtain ⟨t'', rest, last⟩ := ih related
      exact ⟨t'', Run.cons taken rest, last⟩

/-- Runs of a partial step function are computed by folding it. -/
theorem Run.of_foldlM {f : σ → ε → Option σ} (computed : es.foldlM f s = some s') :
    Run (fun s e s' => f s e = some s') s es s' := by
  induction es generalizing s with
  | nil =>
      obtain rfl : s = s' := by simpa using computed
      exact Run.nil s
  | cons e es ih =>
      rw [List.foldlM_cons, Option.bind_eq_bind, Option.bind_eq_some_iff] at computed
      obtain ⟨mid, first, rest⟩ := computed
      exact Run.cons first (ih rest)

/-- The same where every step also has to meet a condition. -/
theorem Run.of_guarded {f : σ → ε → Option σ} {p : σ → ε → Prop} [∀ s e, Decidable (p s e)]
    (computed : es.foldlM (fun s e => if p s e then f s e else none) s = some s') :
    Run (fun s e s' => p s e ∧ f s e = some s') s es s' := by
  apply (Run.of_foldlM computed).mono
  intro s e s' step
  by_cases met : p s e
  · exact ⟨met, by rwa [if_pos met] at step⟩
  · rw [if_neg met] at step
    cases step

end SystemsLabs.Theory.Runs
