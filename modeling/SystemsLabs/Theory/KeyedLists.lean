/-
# SystemsLabs.Theory.KeyedLists -- a map from the keys of a list

A table is kept over a list of entries: it leads from the key of each entry to its value (`Keyed`).
An entry that joins the list with a key of its own is written at its key, and one that leaves is
erased there; the keys and values of the others may be given by other functions that agree on them.
-/
import Mathlib.Logic.Function.Basic
import Mathlib.Tactic.Common

namespace SystemsLabs.Theory.KeyedLists

set_option autoImplicit false

universe u v w

variable {α : Type u} {κ : Type v} {δ : Type w} {key key' : α → κ} {val val' : α → δ} {l pre post : List α} {p : α}
  {m : κ → Option δ}

/-- The table leads from the key of each entry of the list to its value, and from nothing else. -/
def Keyed (key : α → κ) (val : α → δ) (l : List α) (m : κ → Option δ) : Prop :=
  ∀ k v, m k = some v ↔ ∃ q ∈ l, key q = k ∧ val q = v

theorem mem_middle {q : α} : q ∈ pre ++ p :: post ↔ q = p ∨ q ∈ pre ++ post := by
  simp only [List.mem_append, List.mem_cons]
  tauto

namespace Keyed

/-- There is nothing at a key that no entry has. -/
theorem eq_none (keyed : Keyed key val l m) {k : κ} (absent : ∀ q ∈ l, key q ≠ k) : m k = none := by
  by_contra present
  obtain ⟨v, isValue⟩ := Option.ne_none_iff_exists'.mp present
  obtain ⟨q, member, isKey, -⟩ := (keyed k v).mp isValue
  exact absent q member isKey

variable [DecidableEq κ]

/-- An entry joins the list. -/
theorem insert (keyed : Keyed key val (pre ++ post) m) (keys : ∀ q ∈ pre ++ post, key' q = key q)
    (vals : ∀ q ∈ pre ++ post, val' q = val q) (fresh : ∀ q ∈ pre ++ post, key q ≠ key' p) :
    Keyed key' val' (pre ++ p :: post) (Function.update m (key' p) (some (val' p))) := by
  intro k v
  simp only [mem_middle, or_and_right, exists_or, exists_eq_left]
  by_cases here : k = key' p
  · subst here
    rw [Function.update_self, Option.some_inj]
    constructor
    · exact fun same => .inl ⟨rfl, same⟩
    · rintro (⟨-, same⟩ | ⟨q, member, isKey, -⟩)
      · exact same
      · rw [keys q member] at isKey
        exact absurd isKey (fresh q member)
  · rw [Function.update_of_ne here, keyed]
    constructor
    · rintro ⟨q, member, same⟩
      exact .inr ⟨q, member, by rwa [keys q member, vals q member]⟩
    · rintro (⟨same, -⟩ | ⟨q, member, same⟩)
      · exact absurd same.symm here
      · rw [keys q member, vals q member] at same
        exact ⟨q, member, same⟩

/-- An entry leaves the list. -/
theorem erase (keyed : Keyed key val (pre ++ p :: post) m) (keys : ∀ q ∈ pre ++ post, key' q = key q)
    (vals : ∀ q ∈ pre ++ post, val' q = val q) (apart : ∀ q ∈ pre ++ post, key q ≠ key p) :
    Keyed key' val' (pre ++ post) (Function.update m (key p) none) := by
  intro k v
  by_cases here : k = key p
  · subst here
    rw [Function.update_self]
    constructor
    · intro impossible
      cases impossible
    · rintro ⟨q, member, isKey, -⟩
      rw [keys q member] at isKey
      exact absurd isKey (apart q member)
  · rw [Function.update_of_ne here, keyed]
    constructor
    · rintro ⟨q, member, isKey, isValue⟩
      have stays := (mem_middle.mp member).resolve_left (by rintro rfl; exact here isKey.symm)
      exact ⟨q, stays, by rwa [keys q stays], by rwa [vals q stays]⟩
    · rintro ⟨q, member, same⟩
      rw [keys q member, vals q member] at same
      exact ⟨q, mem_middle.mpr (.inr member), same⟩

end Keyed

end SystemsLabs.Theory.KeyedLists
