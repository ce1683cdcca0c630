/-
# SystemsLabs.Theory.RwLock -- a readers-writer lock and its holders

A `Lock` knows how many hold it, not who does.  `Holders l R W` says that `R` are the ones
who hold it for reading and `W` the ones who hold it for writing; each operation of a holder
keeps that, and `Holders.alone` is what the lock is for.
-/
import Mathlib.Data.Finset.Card

namespace SystemsLabs.Theory.RwLock

set_option autoImplicit false

universe u

/-- Free, held by one reader and `more` others, or by one writer. -/
inductive Lock where
  | free
  | readers (more : Nat)
  | writer
deriving DecidableEq, Repr

namespace Lock

/-- `none` is a call that blocks. -/
def rdlock : Lock → Option Lock
  | .free => some (.readers 0)
  | .readers more => some (.readers (more + 1))
  | .writer => none

/-- `none` is a call that blocks. -/
def wrlock : Lock → Option Lock
  | .free => some .writer
  | _ => none

/-- It is undefined to unlock a free lock. -/
def unlock : Lock → Option Lock
  | .free => none
  | .readers 0 => some .free
  | .readers (more + 1) => some (.readers more)
  | .writer => some .free

def readCount : Lock → Nat
  | .readers more => more + 1
  | _ => 0

def writeCount : Lock → Nat
  | .writer => 1
  | _ => 0

end Lock

variable {τ : Type u} {l l' : Lock} {R W : Finset τ} {t : τ}

/-- Those in `R` hold the lock for reading and those in `W` for writing. -/
structure Holders (l : Lock) (R W : Finset τ) : Prop where
  reading : R.card = l.readCount
  writing : W.card = l.writeCount

theorem Holders.free : Holders Lock.free (∅ : Finset τ) ∅ := ⟨rfl, rfl⟩

theorem Holders.of_free (holders : Holders .free R W) : R = ∅ ∧ W = ∅ :=
  ⟨Finset.card_eq_zero.mp holders.reading, Finset.card_eq_zero.mp holders.writing⟩

/-- A writer is the only holder. -/
theorem Holders.alone (holders : Holders l R W) (member : t ∈ W) : R = ∅ ∧ W = {t} := by
  obtain ⟨reading, writing⟩ := holders
  cases l with
  | free =>
      obtain rfl := Finset.card_eq_zero.mp writing
      exact absurd member (Finset.notMem_empty t)
  | readers more =>
      obtain rfl := Finset.card_eq_zero.mp writing
      exact absurd member (Finset.notMem_empty t)
  | writer =>
      obtain ⟨u, rfl⟩ := Finset.card_eq_one.mp writing
      obtain rfl := Finset.mem_singleton.mp member
      exact ⟨Finset.card_eq_zero.mp reading, rfl⟩

variable [DecidableEq τ]

theorem Holders.rdlock (holders : Holders l R W) (new : t ∉ R) (taken : l.rdlock = some l') :
    Holders l' (insert t R) W := by
  obtain ⟨reading, writing⟩ := holders
  cases l with
  | free =>
      obtain rfl := Option.some.inj taken
      exact ⟨by rw [Finset.card_insert_of_notMem new, reading]; rfl, writing⟩
  | readers more =>
      obtain rfl := Option.some.inj taken
      exact ⟨by rw [Finset.card_insert_of_notMem new, reading]; rfl, writing⟩
  | writer => cases taken

theorem Holders.wrlock (holders : Holders l R W) (new : t ∉ W) (taken : l.wrlock = some l') :
    Holders l' R (insert t W) := by
  obtain ⟨reading, writing⟩ := holders
  cases l with
  | free =>
      obtain rfl := Option.some.inj taken
      exact ⟨reading, by rw [Finset.card_insert_of_notMem new, writing]; rfl⟩
  | readers more => cases taken
  | writer => cases taken

theorem Holders.unlock_reader (holders : Holders l R W) (member : t ∈ R) (released : l.unlock = some l') :
    Holders l' (R.erase t) W := by
  obtain ⟨reading, writing⟩ := holders
  have positive : 0 < R.card := Finset.card_pos.mpr ⟨t, member⟩
  cases l with
  | free => cases released
  | readers more =>
      cases more with
      | zero =>
          obtain rfl := Option.some.inj released
          exact ⟨by rw [Finset.card_erase_of_mem member, reading]; rfl, writing⟩
      | succ more =>
          obtain rfl := Option.some.inj released
          exact ⟨by rw [Finset.card_erase_of_mem member, reading]; rfl, writing⟩
  | writer =>
      rw [reading] at positive
      cases positive

theorem Holders.unlock_writer (holders : Holders l R W) (member : t ∈ W) (released : l.unlock = some l') :
    Holders l' R (W.erase t) := by
  obtain ⟨reading, writing⟩ := holders
  have positive : 0 < W.card := Finset.card_pos.mpr ⟨t, member⟩
  cases l with
  | free => cases released
  | readers more =>
      rw [writing] at positive
      cases positive
  | writer =>
      obtain rfl := Option.some.inj released
      exact ⟨reading, by rw [Finset.card_erase_of_mem member, writing]; rfl⟩

end SystemsLabs.Theory.RwLock
