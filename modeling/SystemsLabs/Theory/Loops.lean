/-
# SystemsLabs.Theory.Loops -- counting loops over a partial state

`walk l body` runs a body for each element of a list, one after the other; a body that fails
ends the run.  `forRange lo hi body` is the loop `for (i = lo; i < hi; i++)`, a walk over the
numbers from `lo` to `hi`.

* `walk_flatMap` and `forRange_forRange`: a nest of loops is one walk over the tuples of its
  counters, in the order the nest visits them;
* `walk_invariant`: the rule of the loop.  Its invariant may speak of what was visited, and
  each step has to succeed.
-/
import Mathlib.Data.List.ProdSigma
import Mathlib.Tactic.Common

namespace SystemsLabs.Theory.Loops

set_option autoImplicit false

universe u v w

variable {σ : Type u} {κ : Type v} {ι : Type w}

/-- The body for each element, in order. -/
def walk : List κ → (κ → σ → Option σ) → σ → Option σ
  | [], _, s => some s
  | x :: l, body, s => (body x s).bind (walk l body)

/-- `for (i = lo; i < hi; i++) body` -/
def forRange (lo hi : Nat) (body : Nat → σ → Option σ) : σ → Option σ :=
  walk (List.range' lo (hi - lo)) body

@[simp] theorem walk_nil (body : κ → σ → Option σ) (s : σ) : walk [] body s = some s := rfl

@[simp] theorem walk_cons (x : κ) (l : List κ) (body : κ → σ → Option σ) (s : σ) :
    walk (x :: l) body s = (body x s).bind (walk l body) := rfl

/-- The loop tests its counter before each run of the body. -/
theorem forRange_eq (lo hi : Nat) (body : Nat → σ → Option σ) (s : σ) :
    forRange lo hi body s = if lo < hi then (body lo s).bind (forRange (lo + 1) hi body) else some s := by
  unfold forRange
  by_cases test : lo < hi
  · obtain ⟨n, count⟩ : ∃ n, hi - lo = n + 1 := ⟨hi - lo - 1, by omega⟩
    have rest : hi - (lo + 1) = n := by omega
    rw [if_pos test, count, rest, List.range'_succ, walk_cons]
  · rw [if_neg test, Nat.sub_eq_zero_of_le (Nat.not_lt.mp test), List.range'_zero, walk_nil]

theorem walk_append (l₁ l₂ : List κ) (body : κ → σ → Option σ) (s : σ) :
    walk (l₁ ++ l₂) body s = (walk l₁ body s).bind (walk l₂ body) := by
  induction l₁ generalizing s with
  | nil => rfl
  | cons x l₁ ih =>
      rw [List.cons_append, walk_cons, walk_cons, Option.bind_assoc]
      exact congrArg _ (funext ih)

/-- A walk inside a walk is one walk. -/
theorem walk_flatMap (l : List ι) (inner : ι → List κ) (body : κ → σ → Option σ) :
    walk (l.flatMap inner) body = walk l fun i => walk (inner i) body := by
  induction l with
  | nil => rfl
  | cons i l ih =>
      funext s
      rw [List.flatMap_cons, walk_append, ih, walk_cons]

theorem walk_map (l : List ι) (f : ι → κ) (body : κ → σ → Option σ) :
    walk (l.map f) body = walk l fun i => body (f i) := by
  induction l with
  | nil => rfl
  | cons i l ih =>
      funext s
      rw [List.map_cons, walk_cons, walk_cons, ih]

/-- Two nested loops visit the pairs of their counters. -/
theorem forRange_forRange (lo hi lo' hi' : Nat) (body : Nat → Nat → σ → Option σ) :
    forRange lo hi (fun i => forRange lo' hi' (body i)) =
      walk (List.range' lo (hi - lo) ×ˢ List.range' lo' (hi' - lo')) fun x => body x.1 x.2 := by
  show _ = walk ((List.range' lo (hi - lo)).flatMap fun i => (List.range' lo' (hi' - lo')).map fun j => (i, j)) _
  rw [walk_flatMap]
  refine congrArg _ (funext fun i => ?_)
  rw [walk_map]
  rfl

/-- **The rule of a loop**: what holds at the start, and after each step of what was visited
before and the step itself, holds at the end, and the loop gets there. -/
theorem walk_invariant {l : List κ} {body : κ → σ → Option σ} (inv : List κ → σ → Prop) {s : σ}
    (start : inv [] s)
    (step : ∀ done x rest s, l = done ++ x :: rest → inv done s →
      ∃ s', body x s = some s' ∧ inv (done ++ [x]) s') :
    ∃ s', walk l body s = some s' ∧ inv l s' := by
  have goesOn : ∀ rest done s, l = done ++ rest → inv done s → ∃ s', walk rest body s = some s' ∧ inv l s' := by
    intro rest
    induction rest with
    | nil =>
        intro done s split holds
        rw [List.append_nil] at split
        exact ⟨s, rfl, split ▸ holds⟩
    | cons x rest ih =>
        intro done s split holds
        obtain ⟨s₁, first, holds₁⟩ := step done x rest s split holds
        obtain ⟨s', run, atEnd⟩ := ih (done ++ [x]) s₁ (by simp [split]) holds₁
        exact ⟨s', by rw [walk_cons, first]; exact run, atEnd⟩
  exact goesOn l [] s rfl start

end SystemsLabs.Theory.Loops
