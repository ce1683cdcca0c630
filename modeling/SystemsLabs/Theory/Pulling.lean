/-
# SystemsLabs.Theory.Pulling -- reading a stream piece by piece

A stream is a list of items, each an element or a failure.  `pull more` takes elements as long as
`more` of those it has got; it stops early where the stream ends or fails.  What is read in one
piece or in several is the same (`pull_append`), and what is read and what is left are the stream
(`pull_elems`).
-/
import Mathlib.Tactic.Common

namespace SystemsLabs.Theory.Pulling

set_option autoImplicit false

universe u v

/-- What comes next in a stream. -/
inductive Item (α : Type u) (ε : Type v) where
  | elem (a : α)
  | fail (e : ε)
deriving DecidableEq, Repr

/-- Why a reader stopped: it has what it wants, or the stream ended or failed. -/
inductive Outcome (ε : Type v) where
  | done
  | ended
  | failed (e : ε)
deriving DecidableEq, Repr

/-- What a reader got, and what it left. -/
structure Pulled (α : Type u) (ε : Type v) where
  outcome : Outcome ε
  got : List α
  rest : List (Item α ε)

variable {α : Type u} {ε : Type v} {more : List α → Bool} {got as : List α} {items : List (Item α ε)}

/-- A read that has got `got` already. -/
def pull (more : List α → Bool) (got : List α) : List (Item α ε) → Pulled α ε
  | [] => ⟨if more got then .ended else .done, got, []⟩
  | .elem a :: items => if more got then pull more (got ++ [a]) items else ⟨.done, got, .elem a :: items⟩
  | .fail e :: items => if more got then ⟨.failed e, got, items⟩ else ⟨.done, got, .fail e :: items⟩

theorem pull_done (enough : more got = false) : pull more got items = ⟨.done, got, items⟩ := by
  cases items with
  | nil => simp [pull, enough]
  | cons item items => cases item <;> simp [pull, enough]

theorem pull_ended (wants : more got = true) : pull more got ([] : List (Item α ε)) = ⟨.ended, got, []⟩ := by
  rw [pull, if_pos wants]

theorem pull_failed {e : ε} (wants : more got = true) : pull more got (.fail e :: items) = ⟨.failed e, got, items⟩ := by
  rw [pull, if_pos wants]

/-- Where no failure is read, what is got and what is left are as long as the stream. -/
theorem length_pull (more : List α → Bool) (got : List α) (items : List (Item α ε)) :
    (pull more got items).rest.length + (pull more got items).got.length = items.length + got.length ∨
      ∃ e, (pull more got items).outcome = .failed e := by
  induction items generalizing got with
  | nil => exact Or.inl rfl
  | cons item items ih =>
      cases wants : more got with
      | false =>
          rw [pull_done wants]
          exact Or.inl rfl
      | true =>
          cases item with
          | elem a =>
              rw [pull, if_pos wants]
              refine (ih (got ++ [a])).imp_left fun same => ?_
              simp only [List.length_append, List.length_cons, List.length_nil] at same ⊢
              omega
          | fail e =>
              rw [pull_failed wants]
              exact Or.inr ⟨e, rfl⟩

/-- A piece may be read at once if none of its beginnings is enough. -/
theorem pull_append (wants : ∀ front, front <+: as → front ≠ as → more (got ++ front) = true) :
    pull more got (as.map .elem ++ items) = pull more (got ++ as) items := by
  induction as generalizing got with
  | nil => rw [List.map_nil, List.nil_append, List.append_nil]
  | cons a as ih =>
      have first : more got = true := by
        have := wants [] List.nil_prefix (by simp)
        rwa [List.append_nil] at this
      rw [List.map_cons, List.cons_append, pull, if_pos first, ih, List.append_assoc, List.singleton_append]
      intro front isPrefix proper
      rw [List.append_assoc, List.singleton_append]
      exact wants (a :: front) (List.cons_prefix_cons.mpr ⟨rfl, isPrefix⟩) fun same => proper (List.cons.inj same).2

/-- What is read of a stream without failures, and what is left: the shortest beginning that is
enough, or all of it. -/
theorem pull_elems (more : List α → Bool) (got stream : List α) :
    ∃ as rest, stream = as ++ rest ∧ (more (got ++ as) = true → rest = []) ∧
      (∀ front, front <+: as → front ≠ as → more (got ++ front) = true) ∧
      pull more got (stream.map .elem : List (Item α ε)) =
        ⟨if more (got ++ as) then .ended else .done, got ++ as, rest.map .elem⟩ := by
  induction stream generalizing got with
  | nil =>
      refine ⟨[], [], rfl, fun _ => rfl, fun front isPrefix proper => absurd (List.prefix_nil.mp isPrefix) proper, ?_⟩
      rw [List.map_nil, pull, List.append_nil]
  | cons a stream ih =>
      cases wants : more got with
      | false =>
          refine ⟨[], a :: stream, rfl, fun still => ?_, fun front isPrefix proper => ?_, ?_⟩
          · rw [List.append_nil, wants] at still
            cases still
          · exact absurd (List.prefix_nil.mp isPrefix) proper
          · rw [pull_done wants, List.append_nil, wants]
            rfl
      | true =>
          obtain ⟨as, rest, split, ends, proper, pulled⟩ := ih (got ++ [a])
          rw [List.append_assoc, List.singleton_append] at ends pulled
          refine ⟨a :: as, rest, by rw [split, List.cons_append], ends, fun front isPrefix other => ?_, ?_⟩
          · cases front with
            | nil => rwa [List.append_nil]
            | cons b front =>
                obtain ⟨rfl, inner⟩ := List.cons_prefix_cons.mp isPrefix
                have := proper front inner fun same => other (congrArg (b :: ·) same)
                rwa [List.append_assoc, List.singleton_append] at this
          · rw [List.map_cons, pull, if_pos wants, pulled]

end SystemsLabs.Theory.Pulling
