/-
# SystemsLabs.Driver.SlotTable -- the arrays of a trace against the payloads in use

`Tracked` is what both evaluations rely on: the slot of an identifier in use has the address and the
size of its payload, no two identifiers share one, and there are no other payloads.  A request
releases the payload of a slot, assigns a new one, or both (`Tracked.release`, `Tracked.assign`,
`Tracked.clear`).  What the driver writes into a payload changes its contents only
(`Tracked.rewrite`).
-/
import SystemsLabs.Driver.Contract
import SystemsLabs.Driver.RangeChains

namespace SystemsLabs.Driver

set_option autoImplicit false

open RangeSet (Owners)

/-- The slots of a trace, the payloads in use, and the size and the identifier of each. -/
structure Tracked (numIds : Nat) (use : Nat → Use) (slots : List Slot) (A : Payloads) (owners : Owners) : Prop where
  null : A 0 = none
  count : slots.length = numIds
  unused : ∀ i slot, slots[i]? = some slot → use i = .unused → slot.block = 0 ∧ slot.blockSize = 0
  live : ∀ i slot, slots[i]? = some slot → use i = .live → owners slot.block = some (slot.blockSize, (i : Int))
  owner : ∀ p size index, owners p = some (size, index) →
    ∃ i : Nat, ∃ slot, index = i ∧ slots[i]? = some slot ∧ use i = .live ∧ slot.block = p ∧ slot.blockSize = size
  sizes : ∀ p, (A p).map List.length = (owners p).map fun o => o.1.toNat

variable {numIds i j : Nat} {use : Nat → Use} {slots : List Slot} {slot slot' : Slot} {A A' : Payloads} {owners : Owners}
  {p : Addr} {size : UInt64} {bytes : List UInt8}

theorem tracked_start (slots : List Slot) :
    Tracked slots.length (fun _ => .unused) (reinitTrace slots) (fun _ => none) fun _ => none where
  null := rfl
  count := List.length_map _
  unused i slot found _ := by
    obtain ⟨old, -, rfl⟩ := List.getElem?_map .. ▸ found |> Option.map_eq_some_iff.mp
    exact ⟨rfl, rfl⟩
  live i slot _ isLive := by cases isLive
  owner p size index impossible := by cases impossible
  sizes p := rfl

namespace Tracked

/-- A payload and its owner. -/
theorem payload (tracked : Tracked numIds use slots A owners) (found : slots[i]? = some slot)
    (isLive : use i = .live) : ∃ bytes, A slot.block = some bytes ∧ bytes.length = slot.blockSize.toNat := by
  have sizes := tracked.sizes slot.block
  rw [tracked.live i slot found isLive] at sizes
  exact Option.map_eq_some_iff.mp sizes

theorem unowned (tracked : Tracked numIds use slots A owners) (free : A p = none) : owners p = none := by
  have sizes := tracked.sizes p
  rw [free] at sizes
  exact Option.map_eq_none_iff.mp sizes.symm

/-- Two identifiers in use have two payloads. -/
theorem distinct (tracked : Tracked numIds use slots A owners) (found : slots[i]? = some slot)
    (isLive : use i = .live) (found' : slots[j]? = some slot') (isLive' : use j = .live)
    (same : slot.block = slot'.block) : i = j := by
  have owner := tracked.live i slot found isLive
  rw [same, tracked.live j slot' found' isLive', Option.some_inj, Prod.mk.injEq] at owner
  exact Int.ofNat.inj owner.2.symm

/-- The block of an identifier that is not stale is a payload or null. -/
theorem freeable (tracked : Tracked numIds use slots A owners) (found : slots[i]? = some slot)
    (notStale : use i ≠ .stale) : slot.block = 0 ∨ A slot.block ≠ none := by
  cases isUse : use i with
  | unused => exact .inl (tracked.unused i slot found isUse).1
  | stale => exact absurd isUse notStale
  | live =>
      obtain ⟨bytes, payload, -⟩ := tracked.payload found isUse
      exact .inr (payload ▸ Option.some_ne_none bytes)

theorem found (tracked : Tracked numIds use slots A owners) (inside : i < numIds) :
    ∃ slot, slots[i]? = some slot :=
  ⟨_, List.getElem?_eq_getElem (tracked.count ▸ inside)⟩

/-- New contents in a payload. -/
theorem rewrite (tracked : Tracked numIds use slots A owners) (payload : A p = some bytes) {bytes' : List UInt8}
    (length : bytes'.length = bytes.length) : Tracked numIds use slots (Function.update A p (some bytes')) owners := by
  refine { tracked with null := ?_, sizes := fun q => ?_ }
  · rw [Function.update_of_ne, tracked.null]
    rintro rfl
    rw [tracked.null] at payload
    cases payload
  · rw [← tracked.sizes]
    by_cases here : q = p
    · subst here
      rw [Function.update_self, payload, Option.map_some, Option.map_some, length]
    · rw [Function.update_of_ne here]

/-- The base of the random data is the driver's own. -/
theorem rebase (tracked : Tracked numIds use slots A owners) (found : slots[i]? = some slot)
    (same : slot'.block = slot.block ∧ slot'.blockSize = slot.blockSize) :
    Tracked numIds use (slots.set i slot') A owners := by
  have inside : i < slots.length := (List.getElem?_eq_some_iff.mp found).1
  have old : ∀ (j : Nat) (other : Slot), (slots.set i slot')[j]? = some other →
      ∃ old : Slot, slots[j]? = some old ∧ other.block = old.block ∧ other.blockSize = old.blockSize := by
    intro j other found'
    by_cases here : j = i
    · subst here
      rw [List.getElem?_set_self inside] at found'
      exact ⟨slot, found, Option.some.inj found' ▸ same⟩
    · rw [List.getElem?_set_ne (Ne.symm here)] at found'
      exact ⟨other, found', rfl, rfl⟩
  refine ⟨tracked.null, by rw [List.length_set, tracked.count], ?_, ?_, ?_, tracked.sizes⟩
  · intro j other found' isUnused
    obtain ⟨before, found, block, blockSize⟩ := old j other found'
    rw [block, blockSize]
    exact tracked.unused j before found isUnused
  · intro j other found' isLive
    obtain ⟨before, found, block, blockSize⟩ := old j other found'
    rw [block, blockSize]
    exact tracked.live j before found isLive
  · intro p size index owned
    obtain ⟨j, before, isIndex, found', isLive, isBlock, isSize⟩ := tracked.owner p size index owned
    by_cases here : j = i
    · subst here
      obtain rfl := Option.some.inj (found'.symm.trans found)
      exact ⟨j, slot', isIndex, List.getElem?_set_self inside, isLive, same.1.trans isBlock, same.2.trans isSize⟩
    · refine ⟨j, before, isIndex, ?_, isLive, isBlock, isSize⟩
      rw [List.getElem?_set_ne (Ne.symm here), found']

/-- **The payload of a slot is given back**, and its address stays in the slot. -/
theorem release (tracked : Tracked numIds use slots A owners) (found : slots[i]? = some slot)
    (notStale : use i ≠ .stale) :
    Tracked numIds (Function.update use i .stale) slots (Function.update A slot.block none)
      (Function.update owners slot.block none) where
  null := by
    rw [Function.update_apply, tracked.null, ite_self]
  count := tracked.count
  unused j slot' found' isUnused := by
    have other : j ≠ i := by
      rintro rfl
      rw [Function.update_self] at isUnused
      cases isUnused
    rw [Function.update_of_ne other] at isUnused
    exact tracked.unused j slot' found' isUnused
  live j slot' found' isLive := by
    have other : j ≠ i := by
      rintro rfl
      rw [Function.update_self] at isLive
      cases isLive
    rw [Function.update_of_ne other] at isLive
    have owner := tracked.live j slot' found' isLive
    rw [Function.update_of_ne, owner]
    intro same
    cases isUse : use i with
    | stale => exact notStale isUse
    | live => exact other (tracked.distinct found' isLive found isUse same)
    | unused =>
        rw [same, (tracked.unused i slot found isUse).1] at owner
        have absent := tracked.unowned tracked.null
        rw [owner] at absent
        cases absent
  owner p size index owned := by
    have notHere : p ≠ slot.block := by
      rintro rfl
      rw [Function.update_self] at owned
      cases owned
    rw [Function.update_of_ne notHere] at owned
    obtain ⟨j, slot', isIndex, found', isLive, isBlock, isSize⟩ := tracked.owner p size index owned
    refine ⟨j, slot', isIndex, found', ?_, isBlock, isSize⟩
    rw [Function.update_of_ne, isLive]
    rintro rfl
    obtain rfl := Option.some.inj (found'.symm.trans found)
    exact notHere isBlock.symm
  sizes p := by
    by_cases here : p = slot.block
    · subst here
      rw [Function.update_self, Function.update_self]
      rfl
    · rw [Function.update_of_ne here, Function.update_of_ne here, tracked.sizes]

/-- `free` of the block of a slot, which may have none. -/
theorem freed (tracked : Tracked numIds use slots A owners) (found : slots[i]? = some slot) (notStale : use i ≠ .stale) :
    Tracked numIds (Function.update use i (if use i = .live then .stale else .unused)) slots
      (Function.update A slot.block none) (Function.update owners slot.block none) := by
  cases isUse : use i with
  | stale => exact absurd isUse notStale
  | live => exact tracked.release found notStale
  | unused =>
      have block := (tracked.unused i slot found isUse).1
      have kept : Function.update A 0 none = A := Function.update_eq_self_iff.mpr tracked.null.symm
      have unowned : Function.update owners 0 none = owners :=
        Function.update_eq_self_iff.mpr (tracked.unowned tracked.null).symm
      have same : Function.update use i (if Use.unused = .live then .stale else .unused) = use :=
        Function.update_eq_self_iff.mpr isUse.symm
      rw [block, kept, unowned, same]
      exact tracked

/-- **A new payload** is entered in a slot that has none. -/
theorem assign (tracked : Tracked numIds use slots A owners) (inside : i < numIds) (notLive : use i ≠ .live)
    (isSlot : slot.block = p ∧ slot.blockSize = size) (real : p ≠ 0) (free : A p = none) (length : bytes.length = size.toNat) :
    Tracked numIds (Function.update use i .live) (slots.set i slot) (Function.update A p (some bytes))
      (Function.update owners p (some (size, (i : Int)))) where
  null := by rw [Function.update_of_ne real.symm, tracked.null]
  count := by rw [List.length_set, tracked.count]
  unused j slot' found' isUnused := by
    have other : j ≠ i := by
      rintro rfl
      rw [Function.update_self] at isUnused
      cases isUnused
    rw [Function.update_of_ne other] at isUnused
    rw [List.getElem?_set_ne other.symm] at found'
    exact tracked.unused j slot' found' isUnused
  live j slot' found' isLive := by
    by_cases here : j = i
    · subst here
      rw [List.getElem?_set_self (tracked.count ▸ inside)] at found'
      obtain rfl := Option.some.inj found'
      rw [isSlot.1, isSlot.2, Function.update_self]
    · rw [Function.update_of_ne here] at isLive
      rw [List.getElem?_set_ne (Ne.symm here)] at found'
      have owner := tracked.live j slot' found' isLive
      rw [Function.update_of_ne, owner]
      intro same
      rw [same, tracked.unowned free] at owner
      cases owner
  owner q size' index owned := by
    by_cases here : q = p
    · subst here
      rw [Function.update_self, Option.some_inj, Prod.mk.injEq] at owned
      obtain ⟨rfl, rfl⟩ := owned
      exact ⟨i, slot, rfl, List.getElem?_set_self (tracked.count ▸ inside), Function.update_self .., isSlot.1, isSlot.2⟩
    · rw [Function.update_of_ne here] at owned
      obtain ⟨j, slot', isIndex, found', isLive, rest⟩ := tracked.owner q size' index owned
      have other : j ≠ i := by
        rintro rfl
        exact notLive isLive
      refine ⟨j, slot', isIndex, ?_, ?_, rest⟩
      · rw [List.getElem?_set_ne other.symm, found']
      · rw [Function.update_of_ne other, isLive]
  sizes q := by
    by_cases here : q = p
    · subst here
      rw [Function.update_self, Function.update_self, Option.map_some, Option.map_some, length]
    · rw [Function.update_of_ne here, Function.update_of_ne here, tracked.sizes]

/-- A slot without a payload is cleared. -/
theorem clear (tracked : Tracked numIds use slots A owners) (inside : i < numIds) (notLive : use i ≠ .live)
    (isSlot : slot.block = 0 ∧ slot.blockSize = 0) :
    Tracked numIds (Function.update use i .unused) (slots.set i slot) A owners where
  null := tracked.null
  count := by rw [List.length_set, tracked.count]
  unused j slot' found' isUnused := by
    by_cases here : j = i
    · subst here
      rw [List.getElem?_set_self (tracked.count ▸ inside)] at found'
      obtain rfl := Option.some.inj found'
      exact isSlot
    · rw [Function.update_of_ne here] at isUnused
      rw [List.getElem?_set_ne (Ne.symm here)] at found'
      exact tracked.unused j slot' found' isUnused
  live j slot' found' isLive := by
    have other : j ≠ i := by
      rintro rfl
      rw [Function.update_self] at isLive
      cases isLive
    rw [Function.update_of_ne other] at isLive
    rw [List.getElem?_set_ne other.symm] at found'
    exact tracked.live j slot' found' isLive
  owner q size index owned := by
    obtain ⟨j, slot', isIndex, found', isLive, rest⟩ := tracked.owner q size index owned
    have other : j ≠ i := by
      rintro rfl
      exact notLive isLive
    refine ⟨j, slot', isIndex, ?_, ?_, rest⟩
    · rw [List.getElem?_set_ne other.symm, found']
    · rw [Function.update_of_ne other, isLive]
  sizes := tracked.sizes

end Tracked

end SystemsLabs.Driver
