/-
# SystemsLabs.Theory.Buffers -- a buffer of fixed size

Stores and loads are checked against the size.  Where a buffer is known as what stands before an
index, the element there and what stands after it, a store replaces the element (`store_append`).
-/
import Mathlib.Data.List.Basic

namespace SystemsLabs.Theory.Buffers

set_option autoImplicit false

variable {α : Type} {before after : List α} {i : Nat} {old x : α}

/-- A store; `none` outside the buffer. -/
def store (buf : List α) (i : Nat) (x : α) : Option (List α) := if i < buf.length then some (buf.set i x) else none

@[simp] theorem store_append (before after : List α) (old x : α) :
    store (before ++ old :: after) before.length x = some (before ++ x :: after) := by
  simp [store]

theorem store_at (before : List α) (place : before.length = i) : store (before ++ old :: after) i x = some (before ++ x :: after) := by
  rw [← place, store_append]

theorem load_at (before : List α) (place : before.length = i) : (before ++ old :: after)[i]? = some old := by
  simp [← place]

end SystemsLabs.Theory.Buffers
