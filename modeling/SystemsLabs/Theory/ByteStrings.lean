/-
# SystemsLabs.Theory.ByteStrings -- byte strings in a byte memory

`Stored m a bytes` says that a memory holds a string from an address on.  What keeps its bytes keeps
the string (`Stored.congr`), a write into it is a write into the string (`Stored.write`), and a copy of
a part of it gives two strings that agree as far as both go (`Copied`).
-/
import SystemsLabs.Theory.ByteMemory
import Mathlib.Logic.Function.Basic

namespace SystemsLabs.Theory.ByteMemory

set_option autoImplicit false

variable {m m' : Mem} {a b n i : Nat} {bytes old new : List UInt8}

def Stored (m : Mem) (a : Nat) (bytes : List UInt8) : Prop := ∀ i < bytes.length, bytes[i]? = some (m (a + i))

/-- The string that is in memory. -/
def loaded (m : Mem) (a n : Nat) : List UInt8 := (List.range n).map fun i => m (a + i)

@[simp] theorem length_loaded : (loaded m a n).length = n := by
  rw [loaded, List.length_map, List.length_range]

theorem stored_loaded (m : Mem) (a n : Nat) : Stored m a (loaded m a n) := by
  intro i below
  rw [length_loaded] at below
  rw [loaded, List.getElem?_map, List.getElem?_range below, Option.map_some]

theorem Stored.congr (stored : Stored m a bytes) (same : ∀ x, a ≤ x → x < a + bytes.length → m' x = m x) :
    Stored m' a bytes := by
  intro i below
  rw [stored i below, same (a + i) (by omega) (by omega)]

theorem Stored.write (stored : Stored m a bytes) (below : i < bytes.length) (v : UInt8) :
    Stored (Function.update m (a + i) v) a (bytes.set i v) := by
  intro j belowJ
  rw [List.length_set] at belowJ
  by_cases here : j = i
  · subst here
    rw [List.getElem?_set_self below, Function.update_self]
  · rw [List.getElem?_set_ne (Ne.symm here), stored j belowJ, Function.update_of_ne (by omega)]

/-- A string after another one was copied into it, as far as it goes. -/
def Copied (old new : List UInt8) : Prop := ∀ i < min old.length new.length, new[i]? = old[i]?

theorem Stored.copied (stored : Stored m a old) (stored' : Stored m' b new)
    (same : ∀ i < min old.length new.length, m' (b + i) = m (a + i)) : Copied old new := by
  intro i below
  rw [stored i (by omega), stored' i (by omega), same i below]

end SystemsLabs.Theory.ByteMemory
