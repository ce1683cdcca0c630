/-
# SystemsLabs.Driver.Contract -- what a `malloc` package is for

The abstract model is the payloads in use, each with its contents (`Payloads`).  A package keeps it
(`Contract`): `malloc` adds a payload of the size asked for, in the heap, aligned and apart from all
others; `free` takes one out; `realloc` moves one and keeps the contents that fit; and none of them
touches another payload.  An allocation fails only where the memory does not grow (`Refuses`).

`Contract.Safe` is the condition under which the package is known to do so, and `Contract.limit` the
largest request; a package that is right in all states has no such condition.  A trace is `WellFormed`
where it uses the identifiers of its payloads as its reader expects.
-/
import SystemsLabs.Driver.Evaluate
import SystemsLabs.Theory.ByteStrings

namespace SystemsLabs.Driver

set_option autoImplicit false

open Theory.ByteMemory (Copied)

/-- The contents of each payload. -/
abbrev Payloads := Addr → Option (List UInt8)

inductive MmCall where
  | malloc (size : UInt64)
  | free (p : Addr)
  | realloc (p : Addr) (size : UInt64)
deriving DecidableEq, Repr

variable {σ ω : Type}

/-- A payload that lies in the heap at an aligned address. -/
structure Placed (pkg : Package σ ω) (memory : σ) (p : Addr) (bytes : List UInt8) : Prop where
  nonempty : bytes ≠ []
  real : p ≠ 0
  aligned : p % alignment = 0
  lower : pkg.memHeapLo memory ≤ p
  upper : p.toNat + bytes.length ≤ (pkg.memHeapHi memory).toNat + 1

/-- The end of the heap from the address of its last byte, as `mem_heap_hi` gives it. -/
theorem toNat_heapHi {brk : Nat} (positive : 0 < brk) (fits : brk < 2 ^ 64) : (UInt64.ofNat brk - 1).toNat + 1 = brk := by
  have isBrk : (UInt64.ofNat brk).toNat = brk := UInt64.toNat_ofNat_of_lt' fits
  have one_le : (1 : UInt64) ≤ UInt64.ofNat brk := by
    rw [UInt64.le_iff_toNat_le, isBrk, UInt64.toNat_one]
    omega
  rw [UInt64.toNat_sub_of_le _ _ one_le, isBrk, UInt64.toNat_one]
  omega

/-- The address of a byte of a payload. -/
theorem toNat_byteAt {p : Addr} {i : Nat} (fits : p.toNat + i < 2 ^ 64) : (p + UInt64.ofNat i).toNat = p.toNat + i := by
  have small : i < UInt64.size := Nat.lt_of_le_of_lt (Nat.le_add_left _ _) fits
  rw [UInt64.toNat_add, UInt64.toNat_ofNat_of_lt' small]
  exact Nat.mod_eq_of_lt fits

theorem Placed.of_toNat {pkg : Package σ ω} {memory : σ} {p : Addr} {bytes : List UInt8} {lo brk : Nat}
    (isLo : pkg.memHeapLo memory = UInt64.ofNat lo) (isHi : pkg.memHeapHi memory = UInt64.ofNat brk - 1) (fits : brk < 2 ^ 64)
    (start : 0 < lo) (nonempty : bytes ≠ []) (aligned : p.toNat % 16 = 0) (lower : lo ≤ p.toNat)
    (upper : p.toNat + bytes.length ≤ brk) : Placed pkg memory p bytes := by
  refine ⟨nonempty, ?_, ?_, ?_, ?_⟩
  · rintro rfl
    rw [UInt64.toNat_zero] at lower
    omega
  · apply UInt64.toNat_inj.mp
    rw [UInt64.toNat_mod]
    exact aligned
  · rw [isLo, UInt64.le_iff_toNat_le, UInt64.toNat_ofNat_of_lt' (Nat.lt_of_le_of_lt (by omega) fits)]
    exact lower
  · rw [isHi, toNat_heapHi (by omega) fits]
    exact upper

/-- What a package does for the payloads in use. -/
structure Contract (pkg : Package σ ω) where
  /-- the heap segment of the process is there -/
  Mapped : σ → Prop
  /-- the package keeps these payloads -/
  Holds : σ → Payloads → Prop
  Safe : σ → ω → MmCall → Prop
  limit : UInt64
  /-- the memory does not grow at the start -/
  RefusesInit : σ → ω → Prop
  /-- the memory does not grow for a request of this size -/
  Refuses : σ → ω → UInt64 → Prop
  init : ∀ memory os, Mapped memory → ∃ ok memory', pkg.mmInit (pkg.memResetBrk memory) os = some (ok, memory') ∧
    (ok = true → Holds memory' fun _ => none)
  mapped : ∀ {memory A}, Holds memory A → Mapped memory
  user : ∀ {memory A}, Holds memory A → (pkg.memHeapHi memory).toNat < 2 ^ 63
  placed : ∀ {memory A p bytes}, Holds memory A → A p = some bytes → Placed pkg memory p bytes
  apart : ∀ {memory A p bytes q bytes'}, Holds memory A → A p = some bytes → A q = some bytes' → p ≠ q →
    p.toNat + bytes.length ≤ q.toNat ∨ q.toNat + bytes'.length ≤ p.toNat
  read : ∀ {memory A p bytes}, Holds memory A → A p = some bytes → ∀ i < bytes.length,
    bytes[i]? = some (pkg.memRead memory (p + UInt64.ofNat i))
  write : ∀ {memory A p bytes}, Holds memory A → A p = some bytes → ∀ i < bytes.length, ∀ v,
    Holds (pkg.memWrite memory (p + UInt64.ofNat i) v) (Function.update A p (some (bytes.set i v)))
  malloc : ∀ {memory A}, Holds memory A → ∀ os size, size ≠ 0 → size ≤ limit → Safe memory os (.malloc size) →
    ∃ p memory', pkg.mmMalloc memory os size = some (p, memory') ∧ (p ≠ 0 → A p = none ∧
      ∃ bytes, bytes.length = size.toNat ∧ Holds memory' (Function.update A p (some bytes)))
  free : ∀ {memory A}, Holds memory A → ∀ os p, (p = 0 ∨ A p ≠ none) → Safe memory os (.free p) →
    ∃ memory', pkg.mmFree memory p = some memory' ∧ Holds memory' (Function.update A p none)
  reallocZero : ∀ {memory A}, Holds memory A → ∀ os p, (p = 0 ∨ A p ≠ none) → Safe memory os (.realloc p 0) →
    ∃ memory', pkg.mmRealloc memory os p 0 = some (0, memory') ∧ Holds memory' (Function.update A p none)
  realloc : ∀ {memory A}, Holds memory A → ∀ os p size, (p = 0 ∨ A p ≠ none) → size ≠ 0 → size ≤ limit →
    Safe memory os (.realloc p size) →
    ∃ q memory', pkg.mmRealloc memory os p size = some (q, memory') ∧ (q ≠ 0 → Function.update A p none q = none ∧
      ∃ bytes, bytes.length = size.toNat ∧ (∀ old, A p = some old → Copied old bytes) ∧
        Holds memory' (Function.update (Function.update A p none) q (some bytes)))
  checkheap : ∀ {memory A}, Holds memory A → ∃ ok, pkg.mmCheckheap memory = some ok
  init_refused : ∀ {memory memory' os}, Mapped memory → pkg.mmInit (pkg.memResetBrk memory) os = some (false, memory') →
    RefusesInit memory os
  malloc_refused : ∀ {memory memory' A os size}, Holds memory A → size ≠ 0 → size ≤ limit →
    pkg.mmMalloc memory os size = some (0, memory') → Refuses memory os size
  realloc_refused : ∀ {memory memory' A os p size}, Holds memory A → (p = 0 ∨ A p ≠ none) → size ≠ 0 → size ≤ limit →
    pkg.mmRealloc memory os p size = some (0, memory') → Refuses memory os size

namespace Contract

variable {pkg : Package σ ω} {memory : σ} {A : Payloads} {p : Addr} {bytes : List UInt8}

/-- Nothing is kept at the null pointer. -/
theorem null (c : Contract pkg) (holds : c.Holds memory A) : A 0 = none := by
  by_contra nonempty
  obtain ⟨bytes, payload⟩ := Option.ne_none_iff_exists'.mp nonempty
  exact (c.placed holds payload).real rfl

theorem update_null (c : Contract pkg) (holds : c.Holds memory A) : Function.update A 0 none = A :=
  Function.update_eq_self_iff.mpr (c.null holds).symm

end Contract

/-! ## Traces -/

/-- What the reader of a trace knows of the payload of an identifier. -/
inductive Use where
  | unused
  | live
  /-- freed, and its address still in `blocks` -/
  | stale
deriving DecidableEq, Repr

namespace TraceOp

/-- A request on an identifier of the trace: it allocates with a size that is not 0, and it frees or
reallocates a payload that is in use, or one that never was. -/
def Allowed (limit : UInt64) (numIds : Nat) (use : Nat → Use) (op : TraceOp) : Prop :=
  match op.type with
  | .alloc => 0 ≤ op.index ∧ op.index.toNat < numIds ∧ use op.index.toNat ≠ .live ∧ op.size ≠ 0 ∧ op.size ≤ limit
  | .realloc => 0 ≤ op.index ∧ op.index.toNat < numIds ∧ use op.index.toNat ≠ .stale ∧ op.size ≤ limit
  | .free => op.index = -1 ∨ 0 ≤ op.index ∧ op.index.toNat < numIds ∧ use op.index.toNat ≠ .stale

def after (use : Nat → Use) (op : TraceOp) : Nat → Use :=
  match op.type with
  | .alloc => Function.update use op.index.toNat .live
  | .realloc => Function.update use op.index.toNat (if op.size = 0 then .unused else .live)
  | .free => if op.index < 0 then use
      else Function.update use op.index.toNat (if use op.index.toNat = .live then .stale else .unused)

instance (limit : UInt64) (numIds : Nat) (use : Nat → Use) : (op : TraceOp) → Decidable (op.Allowed limit numIds use)
  | ⟨.alloc, index, size⟩ => inferInstanceAs (Decidable (0 ≤ index ∧ index.toNat < numIds ∧ use index.toNat ≠ .live ∧
      size ≠ 0 ∧ size ≤ limit))
  | ⟨.realloc, index, size⟩ => inferInstanceAs (Decidable (0 ≤ index ∧ index.toNat < numIds ∧ use index.toNat ≠ .stale ∧
      size ≤ limit))
  | ⟨.free, index, _⟩ => inferInstanceAs (Decidable (index = -1 ∨ 0 ≤ index ∧ index.toNat < numIds ∧
      use index.toNat ≠ .stale))

end TraceOp

def WellFormed (limit : UInt64) (numIds : Nat) : (Nat → Use) → List TraceOp → Prop
  | _, [] => True
  | use, op :: ops => op.Allowed limit numIds use ∧ WellFormed limit numIds (op.after use) ops

def Trace.WellFormed (limit : UInt64) (trace : Trace) : Prop :=
  Driver.WellFormed limit trace.slots.length (fun _ => .unused) trace.ops

instance (limit : UInt64) (numIds : Nat) : (use : Nat → Use) → (ops : List TraceOp) →
    Decidable (WellFormed limit numIds use ops)
  | _, [] => isTrue trivial
  | use, op :: ops =>
      have := instDecidableWellFormed limit numIds (op.after use) ops
      inferInstanceAs (Decidable (_ ∧ _))

instance (limit : UInt64) (trace : Trace) : Decidable (trace.WellFormed limit) :=
  inferInstanceAs (Decidable (WellFormed _ _ _ _))

end SystemsLabs.Driver
