/-
# SystemsLabs.Theory.Coalescing -- merging adjacent free segments

A row of segments, some of them free, has a normal form in which no two neighbours are
free: `coalesce` joins every run of free segments into one.  Freeing a segment of a
normal form and normalising again is what an allocator with immediate coalescing does.

* `coalesce_eq_self`: a row without free neighbours is a normal form;
* `coalesce_map_coalesce`: normalising first changes nothing for an operation that
  leaves free segments alone, so segments may be freed one at a time, in any order;
* `coalesce_append`: a row splits at a segment in use;
* `coalesce_of_free`: a row of free segments becomes one segment.
-/
import Mathlib.Data.List.Chain
import Mathlib.Tactic.Common

namespace SystemsLabs.Theory.Coalescing

set_option autoImplicit false

universe u

variable {α : Type u} (free : α → Bool) (join : α → α → α)

/-- A segment put before a normal form, joined to its first segment if both are free. -/
def absorb (x : α) : List α → List α
  | [] => [x]
  | y :: rest => if free x && free y then join x y :: rest else x :: y :: rest

/-- The row with every run of free segments joined. -/
def coalesce : List α → List α
  | [] => []
  | x :: rest => absorb free join x (coalesce rest)

/-- What joining two free segments has to satisfy. -/
structure Joins : Prop where
  free_join : ∀ x y, free x = true → free y = true → free (join x y) = true
  assoc : ∀ x y z, join (join x y) z = join x (join y z)

/-- No two neighbours are free. -/
def Separated (xs : List α) : Prop := xs.IsChain fun x y => free x = false ∨ free y = false

variable {free join} {f : α → α} {x y : α} {xs ys : List α}

@[simp] theorem coalesce_cons :
    coalesce free join (x :: xs) = absorb free join x (coalesce free join xs) := rfl

theorem absorb_used (used : free x = false) : absorb free join x xs = x :: xs := by
  cases xs with
  | nil => rfl
  | cons y rest => simp [absorb, used]

theorem absorb_free (freeX : free x = true) (freeY : free y = true) :
    absorb free join x (y :: xs) = join x y :: xs := by
  simp [absorb, freeX, freeY]

theorem absorb_separated (separated : Separated free (x :: xs)) : absorb free join x xs = x :: xs := by
  cases xs with
  | nil => rfl
  | cons y rest =>
      rcases (List.isChain_cons_cons.mp separated).1 with used | used
      · exact absorb_used used
      · simp [absorb, used]

/-- Two free segments may be absorbed one after the other or as one. -/
theorem absorb_absorb (joins : Joins free join) (freeX : free x = true) (freeY : free y = true) :
    absorb free join x (absorb free join y xs) = absorb free join (join x y) xs := by
  have freeXY := joins.free_join x y freeX freeY
  cases xs with
  | nil => exact absorb_free freeX freeY
  | cons z rest =>
      cases status : free z with
      | true =>
          have freeYZ := joins.free_join y z freeY status
          rw [absorb_free freeY status, absorb_free freeX freeYZ, absorb_free freeXY status, joins.assoc]
      | false => simp [absorb, freeX, freeY, status]

/-! ## Normal forms -/

/-- A row without free neighbours is a normal form. -/
theorem coalesce_eq_self (separated : Separated free xs) : coalesce free join xs = xs := by
  induction xs with
  | nil => rfl
  | cons x xs ih =>
      rw [coalesce_cons, ih (List.IsChain.tail separated), absorb_separated separated]

/-! ## Freeing segments of a normal form -/

/-- **Normalising first changes nothing** for an operation that leaves free segments alone. -/
theorem coalesce_map_coalesce (joins : Joins free join) (fixed : ∀ x, free x = true → f x = x)
    (xs : List α) :
    coalesce free join ((coalesce free join xs).map f) = coalesce free join (xs.map f) := by
  induction xs with
  | nil => rfl
  | cons x xs ih =>
      rw [coalesce_cons, List.map_cons, coalesce_cons, ← ih]
      cases shape : coalesce free join xs with
      | nil => rfl
      | cons y rest =>
          by_cases both : free x = true ∧ free y = true
          · have joined := fixed (join x y) (joins.free_join x y both.1 both.2)
            rw [absorb_free both.1 both.2, List.map_cons, coalesce_cons, joined, List.map_cons,
              coalesce_cons, fixed x both.1, fixed y both.2, absorb_absorb joins both.1 both.2]
          · have apart : absorb free join x (y :: rest) = x :: y :: rest := by
              cases statusX : free x <;> cases statusY : free y <;> simp_all [absorb]
            rw [apart, List.map_cons, coalesce_cons]

/-- A row may be coalesced on the two sides of a segment in use. -/
theorem coalesce_append (separated : Separated free xs)
    (used : ∀ x, xs.getLast? = some x → free x = false) :
    coalesce free join (xs ++ ys) = xs ++ coalesce free join ys := by
  induction xs with
  | nil => rfl
  | cons x xs ih =>
      rw [List.cons_append, coalesce_cons]
      cases xs with
      | nil => rw [List.nil_append, absorb_used (used x rfl)]; rfl
      | cons y rest =>
          rw [ih (List.IsChain.tail separated) fun z last => used z (by simpa using last)]
          rcases (List.isChain_cons_cons.mp separated).1 with status | status
          · exact absorb_used status
          · simp [absorb, status]

/-- A row of free segments becomes one free segment. -/
theorem coalesce_of_free (joins : Joins free join) (all : ∀ x ∈ xs, free x = true)
    (nonempty : xs ≠ []) : ∃ m, coalesce free join xs = [m] ∧ free m = true := by
  induction xs with
  | nil => exact absurd rfl nonempty
  | cons x xs ih =>
      have freeX := all x (List.mem_cons_self ..)
      by_cases last : xs = []
      · subst last
        exact ⟨x, rfl, freeX⟩
      · obtain ⟨m, rest, freeM⟩ := ih (fun y member => all y (List.mem_cons_of_mem _ member)) last
        refine ⟨join x m, ?_, joins.free_join x m freeX freeM⟩
        rw [coalesce_cons, rest, absorb_free freeX freeM]

end SystemsLabs.Theory.Coalescing
