/-
# SystemsLabs.Driver.Verdict -- a package that keeps its contract is accepted

`Running` is the invariant of `eval_mm_valid` on a package that keeps its contract: the slots are
those of the payloads in use, these hold the random data that they were filled with, and the set of
ranges records them.  Then no check of the driver fails, in any debug mode.  What remains is that at
some request the memory does not grow, or that the package rejects its own heap (`Refusal`).

The condition on the surroundings is stated along the evaluation (`Granted`): the driver's own
`malloc` answers new addresses, and the calls are ones that the contract covers.
-/
import SystemsLabs.Driver.SlotTable

namespace SystemsLabs.Driver

set_option autoImplicit false

open RangeSet (Owners)

open Theory.ByteMemory (Copied)

open Theory.PointerPath Theory.SeveredList

variable {σ ω : Type} {pkg : Package σ ω}

/-- The call of the package that a request makes. -/
def TraceOp.call (slots : List Slot) (op : TraceOp) : Option MmCall :=
  match op.type with
  | .alloc => some (.malloc op.size)
  | .realloc => (slots[op.index.toNat]?).map fun slot => .realloc slot.block op.size
  | .free => if op.index < 0 then some (.free 0) else (slots[op.index.toNat]?).map fun slot => .free slot.block

/-- What the set of ranges is told: nothing, without debugging. -/
def Settings.recorded (cfg : Settings) (owners : Owners) : Owners :=
  if cfg.debugMode = .none then fun _ => none else owners

/-- What the evaluation may stop for at request number `opnum`: the memory does not grow, or the
package rejects its own heap. -/
def Refusal (c : Contract pkg) (cfg : Settings) (a : Answers ω) (opnum : Nat) (op : TraceOp) (s : Evaluation σ)
    (complaint : Complaint) : Prop :=
  complaint = .checkheapFailed opnum ∧ cfg.debugMode = .expensive ∧ pkg.mmCheckheap s.memory = some false ∨
  complaint = .mallocFailed opnum ∧ op.type = .alloc ∧ c.Refuses s.memory a.os op.size ∨
  complaint = .reallocFailed opnum ∧ op.type = .realloc ∧ c.Refuses s.memory a.os op.size

/-- New addresses for a range and a node. -/
structure Fresh (ranges : RangeSet) (range node : Addr) : Prop where
  realRange : range ≠ 0
  range : range ∉ ranges.ranges
  realNode : node ≠ 0
  node : node ∉ ranges.loTree.nodes

namespace Evaluation

/-- The addresses are new when a request asks for them, which `realloc` does after it removed a range. -/
def FreshFor (s : Evaluation σ) (a : Answers ω) (op : TraceOp) : Prop :=
  match op.type with
  | .alloc => Fresh s.ranges a.range a.node
  | .realloc => ∀ slot, s.slot op.index = some slot → ∀ ranges, s.ranges.removeRange slot.block = some ranges →
      Fresh ranges a.range a.node
  | .free => True

/-- Along the evaluation the addresses are new and the calls are safe. -/
def Granted (c : Contract pkg) (cfg : Settings) (answers : Nat → Answers ω) : Nat → List TraceOp → Evaluation σ → Prop
  | _, [], _ => True
  | i, op :: ops, s => s.FreshFor (answers i) op ∧
      (∀ call, op.call s.slots = some call → c.Safe s.memory (answers i).os call) ∧
      ∀ s', s.evalOp pkg cfg (answers i) i op = some (true, s') → Granted c cfg answers (i + 1) ops s'

instance (ranges : RangeSet) (range node : Addr) : Decidable (Fresh ranges range node) :=
  decidable_of_iff (range ≠ 0 ∧ range ∉ ranges.ranges ∧ node ≠ 0 ∧ node ∉ ranges.loTree.nodes)
    ⟨fun ⟨a, b, c, d⟩ => ⟨a, b, c, d⟩, fun ⟨a, b, c, d⟩ => ⟨a, b, c, d⟩⟩

/-! What holds of the answer of a call, if it returns. -/

instance decidableAnswer {α : Type} {P : α → Prop} [∀ a, Decidable (P a)] :
    (answer : Option α) → Decidable (∀ a, answer = some a → P a)
  | none => isTrue fun _ impossible => nomatch impossible
  | some a => decidable_of_iff (P a) ⟨fun holds _ isAnswer => Option.some.inj isAnswer ▸ holds, fun holds => holds a rfl⟩

instance decidableTrue {α : Type} {P : α → Prop} [∀ a, Decidable (P a)] :
    (answer : Option (Bool × α)) → Decidable (∀ a, answer = some (true, a) → P a)
  | none => isTrue fun _ impossible => nomatch impossible
  | some (false, _) => isTrue fun _ impossible => nomatch impossible
  | some (true, a) => decidable_of_iff (P a)
      ⟨fun holds _ isAnswer => (Prod.mk.inj (Option.some.inj isAnswer)).2 ▸ holds, fun holds => holds a rfl⟩

instance (s : Evaluation σ) (a : Answers ω) : (op : TraceOp) → Decidable (s.FreshFor a op)
  | ⟨.alloc, _, _⟩ => inferInstanceAs (Decidable (Fresh s.ranges a.range a.node))
  | ⟨.realloc, index, _⟩ => inferInstanceAs (Decidable (∀ slot, s.slot index = some slot →
      ∀ ranges, s.ranges.removeRange slot.block = some ranges → Fresh ranges a.range a.node))
  | ⟨.free, _, _⟩ => isTrue trivial

instance decidableGranted (c : Contract pkg) (cfg : Settings) (answers : Nat → Answers ω) [∀ memory os call, Decidable (c.Safe memory os call)] :
    (i : Nat) → (ops : List TraceOp) → (s : Evaluation σ) → Decidable (Granted c cfg answers i ops s)
  | _, [], _ => isTrue trivial
  | i, _ :: ops, _ =>
      have (s' : Evaluation σ) : Decidable (Granted c cfg answers (i + 1) ops s') :=
        decidableGranted c cfg answers (i + 1) ops s'
      inferInstanceAs (Decidable (_ ∧ _ ∧ _))

/-- The payloads hold what they were filled with. -/
def Filled (cfg : Settings) (use : Nat → Use) (slots : List Slot) (A : Payloads) : Prop :=
  ∀ i slot bytes, slots[i]? = some slot → use i = .live → A slot.block = some bytes →
    ∀ k < cfg.fsize slot.blockSize, bytes[k]? = some (cfg.expected slot.blockRandBase k)

/-- The invariant. -/
structure Running (c : Contract pkg) (cfg : Settings) (numIds : Nat) (use : Nat → Use) (s : Evaluation σ) (A : Payloads)
    (owners : Owners) : Prop where
  holds : c.Holds s.memory A
  tracked : Tracked numIds use s.slots A owners
  filled : cfg.debugMode ≠ .none → Filled cfg use s.slots A
  ranges : ∃ l, s.ranges.Kept (cfg.recorded owners) l
  allCheck : s.allCheck = true
  complaints : s.complaints = []

variable {c : Contract pkg} {cfg : Settings} {numIds i opnum : Nat} {use : Nat → Use} {s s' : Evaluation σ}
  {slot : Slot} {memory : σ} {A : Payloads} {owners : Owners} {bytes : List UInt8} {index : Int} {p : Addr} {size : UInt64}

/-! ## The contents of blocks -/

theorem fsize_eq (cfg : Settings) (size : UInt64) : cfg.fsize size = min size.toNat cfg.maxfill.toNat := by
  have isMin : min size cfg.maxfill = if size ≤ cfg.maxfill then size else cfg.maxfill := rfl
  rw [Settings.fsize, isMin]
  split
  · next le =>
    rw [UInt64.le_iff_toNat_le] at le
    omega
  · next above =>
    rw [UInt64.le_iff_toNat_le] at above
    omega

theorem fsize_le (cfg : Settings) (size : UInt64) : cfg.fsize size ≤ size.toNat := by
  rw [fsize_eq]
  exact Nat.min_le_left _ _

theorem garbledBytes_nil (holds : c.Holds memory A) (payload : A slot.block = some bytes)
    (short : cfg.fsize slot.blockSize ≤ bytes.length)
    (filled : ∀ k < cfg.fsize slot.blockSize, bytes[k]? = some (cfg.expected slot.blockRandBase k)) :
    garbledBytes pkg cfg memory slot = [] := by
  refine List.filter_eq_nil_iff.mpr fun k member => ?_
  have below := List.mem_range.mp member
  have read := c.read holds payload k (by omega)
  rw [filled k below] at read
  simpa using (Option.some.inj read).symm

theorem garbledBytes_empty (empty : slot.blockSize = 0) : garbledBytes pkg cfg memory slot = [] := by
  have zero : cfg.fsize slot.blockSize = 0 := by
    have le := fsize_le cfg slot.blockSize
    rw [empty, UInt64.toNat_zero] at le
    rw [empty]
    omega
  rw [garbledBytes, zero]
  rfl

theorem slot_natCast : s.slot (i : Int) = s.slots[i]? := by
  rw [Evaluation.slot, if_neg (by omega), Int.toNat_natCast]

/-- A block that is as it should be is not reported. -/
theorem recheck_clean (found : s.slots[i]? = some slot)
    (clean : cfg.debugMode ≠ .none → garbledBytes pkg cfg s.memory slot = []) : s.recheck pkg cfg opnum i = some s := by
  have checked : s.checkIndex pkg cfg opnum i = some (true, s) := by
    rw [checkIndex, if_neg (by omega)]
    split
    · rfl
    · next debugging =>
      rw [slot_natCast, found, Option.bind_eq_bind, Option.bind_some, clean debugging]
  rw [recheck, checked]
  rfl

theorem recheck_null (negative : index < 0) : s.recheck pkg cfg opnum index = some s := by
  rw [recheck, checkIndex, if_pos negative]
  rfl

/-- The block of an identifier that is not stale is as it should be. -/
theorem Running.clean (running : s.Running c cfg numIds use A owners) (found : s.slots[i]? = some slot)
    (notStale : use i ≠ .stale) : cfg.debugMode ≠ .none → garbledBytes pkg cfg s.memory slot = [] := by
  intro debugging
  cases isUse : use i with
  | stale => exact absurd isUse notStale
  | unused => exact garbledBytes_empty (running.tracked.unused i slot found isUse).2
  | live =>
      obtain ⟨bytes, payload, length⟩ := running.tracked.payload found isUse
      refine garbledBytes_nil running.holds payload ?_ (running.filled debugging i slot bytes found isUse payload)
      rw [length]
      exact fsize_le cfg slot.blockSize

/-- **Filling a block** changes its contents only. -/
theorem fill_spec (holds : c.Holds memory A) (payload : A slot.block = some bytes)
    (length : bytes.length = slot.blockSize.toNat) :
    ∃ bytes', bytes'.length = bytes.length ∧
      c.Holds (fill pkg cfg slot memory) (Function.update A slot.block (some bytes')) ∧
      ∀ k < cfg.fsize slot.blockSize, bytes'[k]? = some (cfg.expected slot.blockRandBase k) := by
  have short : cfg.fsize slot.blockSize ≤ bytes.length := length ▸ fsize_le cfg slot.blockSize
  unfold fill
  generalize cfg.fsize slot.blockSize = n at short
  induction n with
  | zero => exact ⟨bytes, rfl, by rw [Function.update_eq_self_iff.mpr payload.symm]; exact holds, by simp⟩
  | succ n ih =>
      obtain ⟨written, same, holds', upTo⟩ := ih (by omega)
      have here : Function.update A slot.block (some written) slot.block = some written := Function.update_self ..
      have next := c.write holds' here n (by omega) (cfg.expected slot.blockRandBase n)
      rw [Function.update_idem] at next
      refine ⟨written.set n (cfg.expected slot.blockRandBase n), by rw [List.length_set, same], ?_, fun k below => ?_⟩
      · rw [List.range_succ, List.foldl_append]
        exact next
      · rcases Nat.lt_succ_iff_lt_or_eq.mp below with less | rfl
        · rw [List.getElem?_set_ne (by omega), upTo k less]
        · rw [List.getElem?_set_self (by omega)]

/-- **A block that was assigned is filled.** -/
theorem randomizeBlock_running (holds : c.Holds s.memory A) (tracked : Tracked numIds use s.slots A owners)
    (found : s.slots[i]? = some slot) (notStale : use i ≠ .stale)
    (others : cfg.debugMode ≠ .none → ∀ j slot bytes, j ≠ i → s.slots[j]? = some slot → use j = .live →
      A slot.block = some bytes → ∀ k < cfg.fsize slot.blockSize, bytes[k]? = some (cfg.expected slot.blockRandBase k))
    (ranges : ∃ l, s.ranges.Kept (cfg.recorded owners) l) (allCheck : s.allCheck = true) (complaints : s.complaints = [])
    (random : UInt64) :
    ∃ s' A', s.randomizeBlock pkg cfg random i = some s' ∧ s'.Running c cfg numIds use A' owners := by
  rw [randomizeBlock]
  split
  · next quiet => exact ⟨s, A, rfl, holds, tracked, fun debugging => absurd quiet debugging, ranges, allCheck, complaints⟩
  · rw [slot_natCast, found, Option.bind_eq_bind, Option.bind_some]
    obtain ⟨slot', isSlot⟩ : ∃ slot' : Slot, slot' = { slot with blockRandBase := random } := ⟨_, rfl⟩
    rw [← isSlot]
    have same : slot'.block = slot.block ∧ slot'.blockSize = slot.blockSize := by rw [isSlot]; exact ⟨rfl, rfl⟩
    have inside : i < s.slots.length := (List.getElem?_eq_some_iff.mp found).1
    have based := tracked.rebase found same
    have isUpdate : (s.setSlot i slot').slots = s.slots.set i slot' := rfl
    cases isUse : use i with
    | stale => exact absurd isUse notStale
    | unused =>
        -- there is nothing to fill
        have empty : slot'.blockSize = 0 := same.2.trans (tracked.unused i slot found isUse).2
        have zero : cfg.fsize slot'.blockSize = 0 := by
          have le := fsize_le cfg slot'.blockSize
          rw [empty, UInt64.toNat_zero] at le
          rw [empty]
          omega
        have filled : fill pkg cfg slot' s.memory = s.memory := by
          rw [fill, zero]
          rfl
        refine ⟨_, A, rfl, filled.symm ▸ holds, based, fun debugging j slot'' bytes found' isLive payload => ?_, ranges,
          allCheck, complaints⟩
        have other : j ≠ i := by
          rintro rfl
          rw [isUse] at isLive
          cases isLive
        rw [isUpdate, List.getElem?_set_ne other.symm] at found'
        exact others debugging j slot'' bytes other found' isLive payload
    | live =>
        obtain ⟨bytes, payload, length⟩ := tracked.payload found isUse
        rw [← same.1] at payload
        rw [← same.2] at length
        obtain ⟨bytes', length', holds', filled⟩ := fill_spec holds payload length
        refine ⟨_, _, rfl, holds', based.rewrite payload length', fun debugging j slot'' written found' isLive payload' => ?_,
          ranges, allCheck, complaints⟩
        rw [isUpdate] at found'
        by_cases here : j = i
        · subst here
          rw [List.getElem?_set_self inside] at found'
          obtain rfl := Option.some.inj found'
          rw [Function.update_self] at payload'
          obtain rfl := Option.some.inj payload'
          exact filled
        · rw [List.getElem?_set_ne (Ne.symm here)] at found'
          rw [Function.update_of_ne] at payload'
          · exact others debugging j slot'' written here found' isLive payload'
          · exact fun equal => here (tracked.distinct found' isLive found isUse (equal.trans same.1))

/-! ## The ranges -/

theorem extent_eq (user : (pkg.memHeapHi memory).toNat < 2 ^ 63) :
    extent pkg memory = some ⟨pkg.memHeapLo memory, pkg.memHeapHi memory, user⟩ := dif_pos user

theorem recorded_update (cfg : Settings) (owners : Owners) (p : Addr) (owner : Option (UInt64 × Int))
    (debugging : cfg.debugMode ≠ .none) :
    cfg.recorded (Function.update owners p owner) = Function.update (cfg.recorded owners) p owner := by
  rw [Settings.recorded, Settings.recorded, if_neg debugging, if_neg debugging]

/-- **A payload of the package is recorded.** -/
theorem addRange_accepts {l : List Addr} (kept : s.ranges.Kept (cfg.recorded owners) l)
    (user : (pkg.memHeapHi s.memory).toNat < 2 ^ 63) (placed : Placed pkg s.memory p bytes)
    (length : bytes.length = size.toNat)
    (apart : ∀ q size' index', owners q = some (size', index') →
      p.toNat + size.toNat ≤ q.toNat ∨ q.toNat + size'.toNat ≤ p.toNat) (a : Answers ω)
    (fresh : Fresh s.ranges a.range a.node) (opnum : Nat) (index : Int) :
    ∃ ranges l', s.addRange pkg cfg a opnum p size index = some (true, { s with ranges := ranges }) ∧
      ranges.Kept (cfg.recorded (Function.update owners p (some (size, index)))) l' := by
  have lower := placed.lower
  have upper := placed.upper
  rw [length] at upper
  have positive : size ≠ 0 := by
    rintro rfl
    exact placed.nonempty (List.length_eq_zero_iff.mp length)
  have fit : p.toNat + size.toNat ≤ 2 ^ 64 := by omega
  rw [addRange, extent_eq user, Option.bind_eq_bind, Option.bind_some]
  have inHeap : RangeSet.InHeap ⟨pkg.memHeapLo s.memory, pkg.memHeapHi s.memory, user⟩ p size := ⟨lower, upper⟩
  by_cases quiet : cfg.debugMode = .none
  · have answered : s.ranges.addRange cfg.debugMode ⟨pkg.memHeapLo s.memory, pkg.memHeapHi s.memory, user⟩ p size index
        a.range a.node = some (.ok (), s.ranges) := by
      rw [RangeSet.addRange, if_neg positive, if_neg (not_not_intro placed.aligned),
        if_neg fun outside => (RangeSet.outside_iff positive fit).mp outside inHeap, if_pos quiet]
    refine ⟨s.ranges, l, by rw [answered]; rfl, ?_⟩
    rw [Settings.recorded, if_pos quiet] at kept ⊢
    exact kept
  · obtain ⟨answer, ranges, l', step, truthful, kept'⟩ := kept.add quiet
      ⟨pkg.memHeapLo s.memory, pkg.memHeapHi s.memory, user⟩ positive fit fresh.realRange fresh.range fresh.realNode fresh.node index
    have ok : answer = .ok () := truthful.accepts placed.aligned inHeap fun q size' index' recorded => by
      rw [Settings.recorded, if_neg quiet] at recorded
      exact apart q size' index' recorded
    subst ok
    rw [step]
    refine ⟨ranges, l', rfl, ?_⟩
    rw [recorded_update cfg owners p _ quiet]
    exact kept'

theorem removeRange_spec {l : List Addr} (kept : s.ranges.Kept (cfg.recorded owners) l) (lo : Addr) :
    ∃ ranges l', s.ranges.removeRange lo = some ranges ∧ s.removeRange lo = some { s with ranges := ranges } ∧
      ranges.Kept (cfg.recorded (Function.update owners lo none)) l' := by
  obtain ⟨ranges, l', removed, kept'⟩ := kept.remove lo
  refine ⟨ranges, l', removed, by rw [removeRange, removed]; rfl, ?_⟩
  by_cases quiet : cfg.debugMode = .none
  · rw [Settings.recorded, if_pos quiet] at kept' ⊢
    rw [Function.update_eq_self_iff.mpr rfl] at kept'
    exact kept'
  · rw [recorded_update cfg owners lo _ quiet]
    exact kept'

/-- A slot gets a new payload, which is then filled. -/
theorem assign_running (slot : Slot) (holds : c.Holds s.memory (Function.update A p (some bytes)))
    (tracked : Tracked numIds use s.slots A owners) (filled : cfg.debugMode ≠ .none → Filled cfg use s.slots A)
    (inside : i < numIds) (notLive : use i ≠ .live) (isSlot : slot.block = p ∧ slot.blockSize = size) (real : p ≠ 0)
    (free : A p = none) (length : bytes.length = size.toNat)
    (ranges : ∃ l, s.ranges.Kept (cfg.recorded (Function.update owners p (some (size, (i : Int))))) l)
    (allCheck : s.allCheck = true) (complaints : s.complaints = []) (random : UInt64) :
    ∃ s' A', (s.setSlot i slot).randomizeBlock pkg cfg random i = some s' ∧
      s'.Running c cfg numIds (Function.update use i .live) A' (Function.update owners p (some (size, (i : Int)))) := by
  have slots : (s.setSlot i slot).slots = s.slots.set i slot := rfl
  have found : (s.setSlot i slot).slots[i]? = some slot := by
    rw [slots, List.getElem?_set_self (tracked.count ▸ inside)]
  have notStale : Function.update use i Use.live i ≠ .stale := by
    rw [Function.update_self]
    exact fun impossible => (by cases impossible)
  have tracked' : Tracked numIds (Function.update use i .live) (s.setSlot i slot).slots (Function.update A p (some bytes))
      (Function.update owners p (some (size, (i : Int)))) := tracked.assign inside notLive isSlot real free length
  refine randomizeBlock_running (s := s.setSlot i slot) holds tracked' found notStale ?_ ranges allCheck complaints random
  intro debugging j slot' written other found' isLive payload
  rw [slots, List.getElem?_set_ne other.symm] at found'
  rw [Function.update_of_ne other] at isLive
  rw [Function.update_of_ne] at payload
  · exact filled debugging j slot' written found' isLive payload
  · intro same
    have owner := tracked.live j slot' found' isLive
    rw [same, tracked.unowned free] at owner
    cases owner

/-- A slot without a payload is cleared. -/
theorem clear_running (slot : Slot) (holds : c.Holds s.memory A) (tracked : Tracked numIds use s.slots A owners)
    (filled : cfg.debugMode ≠ .none → Filled cfg use s.slots A) (inside : i < numIds) (notLive : use i ≠ .live)
    (isSlot : slot.block = 0 ∧ slot.blockSize = 0) (ranges : ∃ l, s.ranges.Kept (cfg.recorded owners) l)
    (allCheck : s.allCheck = true) (complaints : s.complaints = []) (random : UInt64) :
    ∃ s' A', (s.setSlot i slot).randomizeBlock pkg cfg random i = some s' ∧
      s'.Running c cfg numIds (Function.update use i .unused) A' owners := by
  have slots : (s.setSlot i slot).slots = s.slots.set i slot := rfl
  have found : (s.setSlot i slot).slots[i]? = some slot := by
    rw [slots, List.getElem?_set_self (tracked.count ▸ inside)]
  have notStale : Function.update use i Use.unused i ≠ .stale := by
    rw [Function.update_self]
    exact fun impossible => (by cases impossible)
  have tracked' : Tracked numIds (Function.update use i .unused) (s.setSlot i slot).slots A owners :=
    tracked.clear inside notLive isSlot
  refine randomizeBlock_running (s := s.setSlot i slot) holds tracked' found notStale ?_ ranges allCheck complaints random
  intro debugging j slot' written other found' isLive payload
  rw [slots, List.getElem?_set_ne other.symm] at found'
  rw [Function.update_of_ne other] at isLive
  exact filled debugging j slot' written found' isLive payload

/-- A payload that is new is apart from those that have owners. -/
theorem apart_owners (holds : c.Holds memory (Function.update A p (some bytes))) {slots : List Slot}
    (tracked : Tracked numIds use slots A owners) (free : A p = none) (length : bytes.length = size.toNat) (q : Addr)
    (size' : UInt64) (index' : Int) (owner : owners q = some (size', index')) :
    p.toNat + size.toNat ≤ q.toNat ∨ q.toNat + size'.toNat ≤ p.toNat := by
  have other : q ≠ p := by
    rintro rfl
    rw [tracked.unowned free] at owner
    cases owner
  obtain ⟨bytes', payload, length'⟩ : ∃ bytes', A q = some bytes' ∧ bytes'.length = size'.toNat := by
    have sizes := tracked.sizes q
    rw [owner] at sizes
    exact Option.map_eq_some_iff.mp sizes
  have here : Function.update A p (some bytes) p = some bytes := Function.update_self ..
  have there : Function.update A p (some bytes) q = some bytes' := by rw [Function.update_of_ne other, payload]
  have apart := c.apart holds here there other.symm
  rw [length, length'] at apart
  exact apart

/-! ## One request -/

/-- The evaluation goes on in the invariant, or it ends with a complaint of this kind. -/
def Continues (c : Contract pkg) (cfg : Settings) (numIds : Nat) (use : Nat → Use) (kind : Complaint → Prop)
    (outcome : Option (Bool × Evaluation σ)) : Prop :=
  ∃ ok s', outcome = some (ok, s') ∧ (ok = true ∧ (∃ A owners, s'.Running c cfg numIds use A owners) ∨
    ok = false ∧ ∃ complaint, kind complaint ∧ s'.complaints = [complaint])

theorem refused {kind : Complaint → Prop} {complaint : Complaint} (refusal : kind complaint)
    (complaints : s.complaints = []) : Continues c cfg numIds use kind (some (false, s.complain complaint)) :=
  ⟨false, _, rfl, .inr ⟨rfl, complaint, refusal, by rw [complain, complaints]; rfl⟩⟩

/-- **A request to allocate.** -/
theorem evalAlloc_continues (running : s.Running c cfg numIds use A owners) (a : Answers ω) (inside : i < numIds)
    (notLive : use i ≠ .live) (positive : size ≠ 0) (le : size ≤ c.limit) (fresh : Fresh s.ranges a.range a.node)
    (safe : c.Safe s.memory a.os (.malloc size)) :
    Continues c cfg numIds (Function.update use i .live) (Refusal c cfg a opnum ⟨.alloc, i, size⟩ s)
      (s.evalAlloc pkg cfg a opnum i size) := by
  obtain ⟨p, memory, step, gives⟩ := c.malloc running.holds a.os size positive le safe
  rw [evalAlloc, step, Option.bind_eq_bind, Option.bind_some]
  dsimp only
  by_cases null : p = 0
  · subst null
    rw [if_pos rfl]
    exact refused (.inr (.inl ⟨rfl, rfl, c.malloc_refused running.holds positive le step⟩)) running.complaints
  · rw [if_neg null]
    obtain ⟨free, bytes, length, holds⟩ := gives null
    obtain ⟨l, kept⟩ := running.ranges
    have here : Function.update A p (some bytes) p = some bytes := Function.update_self ..
    obtain ⟨ranges, l', added, kept'⟩ := addRange_accepts (s := { s with memory := memory }) kept (c.user holds)
      (c.placed holds here) length (apart_owners holds running.tracked free length) a fresh opnum i
    obtain ⟨slot, found⟩ := running.tracked.found inside
    have found' : Evaluation.slot { s with memory := memory, ranges := ranges } i = some slot := by
      exact slot_natCast.trans found
    obtain ⟨s', A', filled, running'⟩ := assign_running (s := { s with memory := memory, ranges := ranges })
      { slot with block := p, blockSize := size } holds running.tracked running.filled inside notLive ⟨rfl, rfl⟩ null free
      length ⟨l', kept'⟩ running.allCheck running.complaints a.random
    refine ⟨true, s', ?_, .inl ⟨rfl, A', _, running'⟩⟩
    simp only [added, found', filled, Option.bind_eq_bind, Option.bind_some, Bool.not_true, Bool.false_eq_true, if_false]

theorem Filled.release {slots : List Slot} (filled : Filled cfg use slots A) (i : Nat) (p : Addr) :
    Filled cfg (Function.update use i .stale) slots (Function.update A p none) := by
  intro j slot bytes found isLive payload
  have other : j ≠ i := by
    rintro rfl
    rw [Function.update_self] at isLive
    cases isLive
  have elsewhere : slot.block ≠ p := by
    intro same
    rw [same, Function.update_self] at payload
    cases payload
  rw [Function.update_of_ne other] at isLive
  rw [Function.update_of_ne elsewhere] at payload
  exact filled j slot bytes found isLive payload

theorem setSlot_setSlot (s : Evaluation σ) (index : Int) (slot slot' : Slot) :
    (s.setSlot index slot).setSlot index slot' = s.setSlot index slot' := by
  simp only [setSlot, List.set_set]

/-- The size in which both blocks are compared. -/
theorem common_toNat (size old : UInt64) : (if size < old then size else old).toNat = min old.toNat size.toNat := by
  split
  · next less =>
    rw [UInt64.lt_iff_toNat_lt] at less
    omega
  · next notLess =>
    rw [UInt64.lt_iff_toNat_lt] at notLess
    omega

/-- **What `realloc` copied** is as the old block was. -/
theorem copied_clean (running : s.Running c cfg numIds use A owners) (found : s.slots[i]? = some slot)
    (notStale : use i ≠ .stale) {q : Addr} {A' : Payloads} (holds : c.Holds memory A') (payload : A' q = some bytes)
    (length : bytes.length = size.toNat) (copied : ∀ old, A slot.block = some old → Copied old bytes)
    (debugging : cfg.debugMode ≠ .none) :
    garbledBytes pkg cfg memory
      { slot with block := q, blockSize := if size < slot.blockSize then size else slot.blockSize } = [] := by
  have common := common_toNat size slot.blockSize
  cases isUse : use i with
  | stale => exact absurd isUse notStale
  | unused =>
      refine garbledBytes_empty (UInt64.toNat_inj.mp ?_)
      dsimp only
      rw [common, (running.tracked.unused i slot found isUse).2]
      simp
  | live =>
      obtain ⟨old, oldPayload, oldLength⟩ := running.tracked.payload found isUse
      have short := fsize_le cfg (if size < slot.blockSize then size else slot.blockSize)
      rw [common] at short
      refine garbledBytes_nil holds payload (by dsimp only; omega) fun k below => ?_
      dsimp only at below ⊢
      rw [copied old oldPayload k (by omega)]
      refine running.filled debugging i slot old found isUse oldPayload k (Nat.lt_of_lt_of_le below ?_)
      -- no more bytes are compared than were filled
      rw [fsize_eq, fsize_eq, common]
      omega

/-- **A request to reallocate.** -/
theorem evalRealloc_continues (running : s.Running c cfg numIds use A owners) (a : Answers ω) (inside : i < numIds)
    (notStale : use i ≠ .stale) (le : size ≤ c.limit)
    (fresh : ∀ slot, s.slots[i]? = some slot → ∀ ranges, s.ranges.removeRange slot.block = some ranges →
      Fresh ranges a.range a.node)
    (safe : ∀ slot, s.slots[i]? = some slot → c.Safe s.memory a.os (.realloc slot.block size)) :
    Continues c cfg numIds (Function.update use i (if size = 0 then .unused else .live))
      (Refusal c cfg a opnum ⟨.realloc, i, size⟩ s) (s.evalRealloc pkg cfg a opnum i size) := by
  obtain ⟨slot, found⟩ := running.tracked.found inside
  have checked : s.recheck pkg cfg opnum i = some s := recheck_clean found (running.clean found notStale)
  have isSlot : s.slot i = some slot := slot_natCast.trans found
  have freeable := running.tracked.freeable found notStale
  obtain ⟨l, kept⟩ := running.ranges
  have tracked := running.tracked.release found notStale
  have staleHere : Function.update use i Use.stale i = .stale := Function.update_self ..
  have inSlots : i < s.slots.length := running.tracked.count ▸ inside
  rw [evalRealloc]
  have notLive : Function.update use i Use.stale i ≠ .live := by
    rw [staleHere]
    exact fun impossible => (by cases impossible)
  by_cases zero : size = 0
  · subst zero
    obtain ⟨memory, step, holds⟩ := c.reallocZero running.holds a.os slot.block freeable (safe slot found)
    obtain ⟨ranges, l', -, removed, kept'⟩ := removeRange_spec (s := { s with memory := memory }) kept slot.block
    obtain ⟨slot', isCommon⟩ : ∃ slot' : Slot, slot' =
        { slot with block := 0, blockSize := if 0 < slot.blockSize then 0 else slot.blockSize } := ⟨_, rfl⟩
    have empty : slot'.blockSize = 0 := by
      rw [isCommon]
      refine UInt64.toNat_inj.mp ?_
      dsimp only
      rw [common_toNat]
      simp
    have found₁ : (setSlot { s with memory := memory, ranges := ranges } i slot').slots[i]? = some slot' :=
      List.getElem?_set_self inSlots
    have checked₁ : (setSlot { s with memory := memory, ranges := ranges } i slot').recheck pkg cfg opnum i = some _ :=
      recheck_clean found₁ fun _ => garbledBytes_empty empty
    obtain ⟨s', A', filled, running'⟩ := clear_running (s := { s with memory := memory, ranges := ranges })
      ⟨0, 0, slot.blockRandBase⟩ holds tracked (fun debugging => (running.filled debugging).release i slot.block)
      inside notLive ⟨rfl, rfl⟩ ⟨l', kept'⟩ running.allCheck running.complaints a.random
    rw [Function.update_idem] at running'
    refine ⟨true, s', ?_, .inl ⟨rfl, A', _, by rw [if_pos rfl]; exact running'⟩⟩
    have notPositive : ¬ (0 : UInt64) > 0 := by decide
    simp only [checked, isSlot, step, Option.bind_eq_bind, Option.bind_some, ne_eq, not_true_eq_false, and_false, and_true,
      if_false, removed, if_neg notPositive, Bool.not_true, Bool.false_eq_true, ← isCommon, checked₁, setSlot_setSlot, filled]
  · obtain ⟨q, memory, step, gives⟩ := c.realloc running.holds a.os slot.block size freeable zero le (safe slot found)
    rw [if_neg zero]
    by_cases null : q = 0
    · subst null
      simp only [checked, isSlot, step, Option.bind_eq_bind, Option.bind_some, ne_eq, zero, not_false_eq_true, and_self,
        if_true]
      exact refused (.inr (.inr ⟨rfl, rfl, c.realloc_refused running.holds freeable zero le step⟩)) running.complaints
    · obtain ⟨free, bytes, length, copied, holds⟩ := gives null
      have here : Function.update (Function.update A slot.block none) q (some bytes) q = some bytes := Function.update_self ..
      obtain ⟨ranges, l', removed, removedHere, kept'⟩ := removeRange_spec (s := { s with memory := memory }) kept slot.block
      obtain ⟨ranges', l'', added, kept''⟩ := addRange_accepts (s := { s with memory := memory, ranges := ranges }) kept'
        (c.user holds) (c.placed holds here) length (apart_owners holds tracked free length) a
        (fresh slot found ranges removed) opnum i
      obtain ⟨slot', isCommon⟩ : ∃ slot' : Slot, slot' =
          { slot with block := q, blockSize := if size < slot.blockSize then size else slot.blockSize } := ⟨_, rfl⟩
      have found₁ : (setSlot { s with memory := memory, ranges := ranges' } i slot').slots[i]? = some slot' :=
        List.getElem?_set_self inSlots
      have checked₁ : (setSlot { s with memory := memory, ranges := ranges' } i slot').recheck pkg cfg opnum i = some _ :=
        recheck_clean found₁ fun debugging => by
          rw [isCommon]
          exact copied_clean running found notStale holds here length copied debugging
      obtain ⟨s', A', filled, running'⟩ := assign_running (s := { s with memory := memory, ranges := ranges' })
        ⟨q, size, slot.blockRandBase⟩ holds tracked (fun debugging => (running.filled debugging).release i slot.block)
        inside notLive ⟨rfl, rfl⟩ null free length ⟨l'', kept''⟩ running.allCheck running.complaints a.random
      rw [Function.update_idem] at running'
      refine ⟨true, s', ?_, .inl ⟨rfl, A', _, running'⟩⟩
      have positive : size > 0 := UInt64.pos_iff_ne_zero.mpr zero
      simp only [checked, isSlot, step, Option.bind_eq_bind, Option.bind_some, ne_eq, null, zero, not_false_eq_true,
        false_and, and_false, if_false, removedHere, if_pos positive, added, Bool.not_true, Bool.false_eq_true, ← isCommon,
        checked₁, setSlot_setSlot, filled]

/-- **A request to free.** -/
theorem evalFree_continues (running : s.Running c cfg numIds use A owners) (os : ω) (inside : i < numIds)
    (notStale : use i ≠ .stale) (safe : ∀ slot, s.slots[i]? = some slot → c.Safe s.memory os (.free slot.block))
    (kind : Complaint → Prop) :
    Continues c cfg numIds (Function.update use i (if use i = .live then .stale else .unused)) kind
      (s.evalFree pkg cfg opnum i) := by
  obtain ⟨slot, found⟩ := running.tracked.found inside
  have checked : s.recheck pkg cfg opnum i = some s := recheck_clean found (running.clean found notStale)
  have isSlot : s.slot i = some slot := slot_natCast.trans found
  obtain ⟨memory, step, holds⟩ := c.free running.holds os slot.block (running.tracked.freeable found notStale) (safe slot found)
  obtain ⟨l, kept⟩ := running.ranges
  obtain ⟨ranges, l', -, removed, kept'⟩ := removeRange_spec kept slot.block
  have notNull : (i : Int) ≠ -1 := by omega
  refine ⟨true, { s with memory := memory, ranges := ranges }, ?_, .inl ⟨rfl, Function.update A slot.block none,
    Function.update owners slot.block none, ⟨holds, ?_, fun debugging => ?_, ⟨l', kept'⟩, running.allCheck, running.complaints⟩⟩⟩
  · rw [evalFree]
    simp only [checked, notNull, if_false, isSlot, removed, step, Option.bind_eq_bind, Option.bind_some]
  · exact running.tracked.freed found notStale
  · have released := (running.filled debugging).release i slot.block
    intro j slot' bytes found' isLive payload
    refine released j slot' bytes found' ?_ payload
    by_cases here : j = i
    · subst here
      rw [Function.update_self] at isLive
      split at isLive <;> cases isLive
    · rw [Function.update_of_ne here] at isLive ⊢
      exact isLive

theorem evalFree_null (running : s.Running c cfg numIds use A owners) (os : ω) (safe : c.Safe s.memory os (.free 0))
    (kind : Complaint → Prop) : Continues c cfg numIds use kind (s.evalFree pkg cfg opnum (-1)) := by
  obtain ⟨memory, step, holds⟩ := c.free running.holds os 0 (.inl rfl) safe
  rw [c.update_null running.holds] at holds
  refine ⟨true, { s with memory := memory }, ?_, .inl ⟨rfl, A, owners, holds, running.tracked, running.filled,
    running.ranges, running.allCheck, running.complaints⟩⟩
  rw [evalFree, recheck_null (by decide)]
  simp only [Option.bind_eq_bind, Option.bind_some, if_true, step]

/-! ## The checks before a request -/

theorem length_le_entries {l : List Addr} {m : Owners} {ranges : RangeSet} (kept : ranges.Kept m l) :
    l.length ≤ ranges.ranges.entries.length := by
  have subset : l ⊆ ranges.ranges.keys := fun p member => (kept.live p).mpr member
  have le := (List.subperm_of_subset kept.nodup subset).length_le
  rwa [AList.keys, List.keys, List.length_map] at le

/-- The walk finds every block as it should be. -/
theorem checkRanges_clean (running : s.Running c cfg numIds use A owners) (debugging : cfg.debugMode ≠ .none) {l : List Addr}
    (kept : s.ranges.Kept (cfg.recorded owners) l) {part : List Addr} {r : Addr} {fuel : Nat}
    (path : Path s.ranges.nextAt r part 0) (inList : ∀ q ∈ part, q ∈ l) (enough : part.length < fuel) :
    s.checkRanges pkg cfg opnum fuel r = some s := by
  induction part generalizing r fuel with
  | nil =>
      obtain rfl : r = 0 := path
      obtain ⟨fuel, rfl⟩ := Nat.exists_eq_succ_of_ne_zero (Nat.pos_iff_ne_zero.mp enough)
      rw [checkRanges, if_pos rfl]
  | cons q part ih =>
      obtain ⟨rfl, path⟩ := path
      obtain ⟨fuel, rfl⟩ := Nat.exists_eq_succ_of_ne_zero (Nat.pos_iff_ne_zero.mp (Nat.zero_lt_of_lt enough))
      have member := inList r (List.mem_cons_self ..)
      have real : r ≠ 0 := by
        rintro rfl
        exact kept.real member
      have owner := (kept.owner member).1
      rw [Settings.recorded, if_neg debugging] at owner
      obtain ⟨i, slot, isIndex, found, isLive, -⟩ := running.tracked.owner _ _ _ owner
      have checked : s.recheck pkg cfg opnum i = some s :=
        recheck_clean found (running.clean found (by rw [isLive]; exact fun impossible => (by cases impossible)))
      have index : (s.ranges.rangeAt r).index = i := isIndex
      rw [checkRanges, if_neg real, RangeSet.lookup_eq ((kept.live r).mpr member), Option.bind_eq_bind, Option.bind_some, index,
        checked, Option.bind_eq_bind, Option.bind_some]
      exact ih path (fun u inPart => inList u (List.mem_cons_of_mem _ inPart)) (Nat.lt_of_succ_lt_succ enough)

theorem checkAll_continues (running : s.Running c cfg numIds use A owners) (opnum : Nat) :
    s.checkAll pkg cfg opnum = some (true, s) ∨
      (cfg.debugMode = .expensive ∧ pkg.mmCheckheap s.memory = some false) ∧
        s.checkAll pkg cfg opnum = some (false, s.complain (.checkheapFailed opnum)) := by
  rw [checkAll]
  split
  · next expensive =>
    have debugging : cfg.debugMode ≠ .none := by
      rw [expensive]
      decide
    obtain ⟨ok, verdict⟩ := c.checkheap running.holds
    rw [verdict, Option.bind_eq_bind, Option.bind_some]
    cases ok with
    | false => exact .inr ⟨⟨expensive, rfl⟩, rfl⟩
    | true =>
        left
        obtain ⟨l, kept⟩ := running.ranges
        have walked : s.checkRanges pkg cfg opnum (s.ranges.ranges.entries.length + 1) s.ranges.list = some s := by
          have room := length_le_entries kept
          rcases kept.head with zero | ⟨member, -⟩
          · have path : Path s.ranges.nextAt s.ranges.list [] 0 := zero
            exact checkRanges_clean running debugging kept path (by simp) (Nat.succ_pos _)
          · obtain ⟨pre, post, isSplit⟩ := List.append_of_mem member
            have links := kept.links
            have shape : (0 : Addr) :: (pre ++ s.ranges.list :: post ++ [0]) = (0 :: pre) ++ s.ranges.list :: (post ++ [0]) := by
              simp
            rw [isSplit, shape] at links
            have rest : Seamed s.ranges.nextAt s.ranges.prevAt 0 (s.ranges.list :: (post ++ [0])) := links.right_of_append
            have real : 0 ∉ s.ranges.list :: post := fun inRest => kept.real (isSplit ▸ List.mem_append_right _ inRest)
            obtain ⟨part, path, isPrefix⟩ := rest.path (fun zero => real (zero ▸ List.mem_cons_self ..))
              fun inPost => real (List.mem_cons_of_mem _ inPost)
            refine checkRanges_clean running debugging kept path (fun q inPart => ?_) ?_
            · rw [isSplit]
              exact List.mem_append_right _ (isPrefix.subset inPart)
            · have short := isPrefix.length_le
              rw [isSplit, List.length_append] at room
              omega
        simp only [Bool.not_true, Bool.false_eq_true, if_false, walked, Option.bind_eq_bind, Option.bind_some]
  · exact .inl rfl

/-! ## The verdict -/

/-- **One request** keeps the invariant, or ends with the package's refusal. -/
theorem evalOp_continues (running : s.Running c cfg numIds use A owners) (opnum : Nat) (a : Answers ω) {op : TraceOp}
    (allowed : op.Allowed c.limit numIds use) (fresh : s.FreshFor a op)
    (safe : ∀ call, op.call s.slots = some call → c.Safe s.memory a.os call) :
    Continues c cfg numIds (op.after use) (Refusal c cfg a opnum op s) (s.evalOp pkg cfg a opnum op) := by
  rw [evalOp]
  rcases checkAll_continues running opnum with passed | ⟨refusal, rejected⟩
  · rw [passed, Option.bind_eq_bind, Option.bind_some]
    simp only [Bool.not_true, Bool.false_eq_true, if_false]
    obtain ⟨type, index, size⟩ := op
    cases type with
    | alloc =>
        obtain ⟨nonneg, inside, notLive, positive, le⟩ := allowed
        obtain ⟨i, rfl⟩ := Int.eq_ofNat_of_zero_le nonneg
        exact evalAlloc_continues running a inside notLive positive le fresh (safe _ rfl)
    | realloc =>
        obtain ⟨nonneg, inside, notStale, le⟩ := allowed
        obtain ⟨i, rfl⟩ := Int.eq_ofNat_of_zero_le nonneg
        refine evalRealloc_continues running a inside notStale le (fun slot found ranges removed => ?_) fun slot found => ?_
        · exact fresh slot (slot_natCast.trans found) ranges removed
        · exact safe _ (congrArg (Option.map _) found)
    | free =>
        rcases allowed with null | ⟨nonneg, inside, notStale⟩
        · obtain rfl : index = -1 := null
          exact evalFree_null running a.os (safe _ rfl) _
        · have nonneg : 0 ≤ index := nonneg
          obtain ⟨i, rfl⟩ := Int.eq_ofNat_of_zero_le nonneg
          have notNegative : ¬ (i : Int) < 0 := by omega
          have after : TraceOp.after use ⟨.free, i, size⟩ =
              Function.update use i (if use i = .live then .stale else .unused) := by
            simp only [TraceOp.after, notNegative, if_false, Int.toNat_natCast]
          have isSafe : ∀ slot, s.slots[i]? = some slot → c.Safe s.memory a.os (.free slot.block) := by
            intro slot found
            refine safe _ ?_
            simp only [TraceOp.call, notNegative, if_false, Int.toNat_natCast, found, Option.map_some]
          rw [after]
          exact evalFree_continues running a.os inside notStale isSafe _
  · rw [rejected]
    exact refused (.inl ⟨rfl, refusal⟩) running.complaints

/-- The requests from number `i` on are all served. -/
def Passes (pkg : Package σ ω) (cfg : Settings) (answers : Nat → Answers ω) :
    Nat → List TraceOp → Evaluation σ → Evaluation σ → Prop
  | _, [], s, s' => s = s'
  | i, op :: ops, s, s' => ∃ s₁, s.evalOp pkg cfg (answers i) i op = some (true, s₁) ∧ Passes pkg cfg answers (i + 1) ops s₁ s'

/-- The requests up to some point are served, and there the evaluation stops. -/
def Stops (c : Contract pkg) (cfg : Settings) (answers : Nat → Answers ω) (i : Nat) (ops : List TraceOp)
    (s : Evaluation σ) (complaint : Complaint) : Prop :=
  ∃ before op after s₁, ops = before ++ op :: after ∧ Passes pkg cfg answers i before s s₁ ∧
    Refusal c cfg (answers (i + before.length)) (i + before.length) op s₁ complaint

theorem Stops.later {answers : Nat → Answers ω} {op : TraceOp} {ops : List TraceOp} {complaint : Complaint}
    (step : s.evalOp pkg cfg (answers i) i op = some (true, s')) (stops : Stops c cfg answers (i + 1) ops s' complaint) :
    Stops c cfg answers i (op :: ops) s complaint := by
  obtain ⟨before, last, after, s₁, rfl, passes, refusal⟩ := stops
  refine ⟨op :: before, last, after, s₁, rfl, ⟨s', step, passes⟩, ?_⟩
  rw [List.length_cons, ← Nat.add_assoc, Nat.add_right_comm]
  exact refusal

/-- **All requests**: the verdict is true, or some request stops the evaluation. -/
theorem evalOps_continues {answers : Nat → Answers ω} {ops : List TraceOp} (running : s.Running c cfg numIds use A owners)
    (wellFormed : WellFormed c.limit numIds use ops) (granted : Granted c cfg answers i ops s) :
    ∃ verdict s', s.evalOps pkg cfg answers i ops = some (verdict, s') ∧ (verdict = true ∧ s'.complaints = [] ∨
      verdict = false ∧ ∃ complaint, Stops c cfg answers i ops s complaint ∧ s'.complaints = [complaint]) := by
  induction ops generalizing i s use A owners with
  | nil => exact ⟨_, s, rfl, .inl ⟨running.allCheck, running.complaints⟩⟩
  | cons op ops ih =>
      obtain ⟨allowed, rest⟩ := wellFormed
      obtain ⟨fresh, safe, later⟩ := granted
      obtain ⟨ok, s₁, step, ⟨rfl, A', owners', running'⟩ | ⟨rfl, complaint, refusal, complains⟩⟩ :=
        evalOp_continues running i (answers i) allowed fresh safe
      · obtain ⟨verdict, s', returns, accepted | ⟨rejected, complaint, stops, complains⟩⟩ :=
          ih running' rest (later s₁ step)
        · exact ⟨verdict, s', by rw [evalOps, step]; exact returns, .inl accepted⟩
        · exact ⟨verdict, s', by rw [evalOps, step]; exact returns, .inr ⟨rejected, complaint, stops.later step, complains⟩⟩
      · rw [evalOps, step]
        exact ⟨false, s₁, rfl, .inr ⟨rfl, complaint, ⟨[], op, ops, s, rfl, rfl, refusal⟩, complains⟩⟩

end Evaluation

/-- **The driver accepts a package that keeps its contract**, on every well-formed trace and in every
debug mode: `eval_mm_valid` returns true without a complaint, or it returns false where the memory did
not grow or the package rejected its heap, which is then the only complaint. -/
theorem evalMmValid_accepts (c : Contract pkg) (cfg : Settings) (init : ω) (answers : Nat → Answers ω) (trace : Trace)
    (memory : σ) (mapped : c.Mapped memory) (wellFormed : trace.WellFormed c.limit)
    (granted : ∀ memory', pkg.mmInit (pkg.memResetBrk memory) init = some (true, memory') →
      Evaluation.Granted c cfg answers 0 trace.ops ⟨memory', reinitTrace trace.slots, .newRangeSet, true, []⟩) :
    ∃ verdict s', evalMmValid pkg cfg init answers trace .newRangeSet memory = some (verdict, s') ∧
      (verdict = true ∧ s'.complaints = [] ∨
        verdict = false ∧ s'.complaints = [.initFailed] ∧ c.RefusesInit memory init ∨
        verdict = false ∧ ∃ memory' complaint, pkg.mmInit (pkg.memResetBrk memory) init = some (true, memory') ∧
          Evaluation.Stops c cfg answers 0 trace.ops ⟨memory', reinitTrace trace.slots, .newRangeSet, true, []⟩ complaint ∧
          s'.complaints = [complaint]) := by
  obtain ⟨ok, memory', booted, holds⟩ := c.init memory init mapped
  rw [evalMmValid, booted, Option.bind_eq_bind, Option.bind_some]
  cases ok with
  | false => exact ⟨false, _, rfl, .inr (.inl ⟨rfl, rfl, c.init_refused mapped booted⟩)⟩
  | true =>
      have quiet : cfg.recorded (fun _ => none) = fun _ => none := by
        unfold Settings.recorded
        split <;> rfl
      have running : Evaluation.Running c cfg trace.slots.length (fun _ => .unused)
          ⟨memory', reinitTrace trace.slots, .newRangeSet, true, []⟩ (fun _ => none) fun _ => none :=
        ⟨holds rfl, tracked_start trace.slots, fun _ _ _ _ _ impossible => (by cases impossible),
          ⟨[], by rw [quiet]; exact RangeSet.kept_start⟩, rfl, rfl⟩
      obtain ⟨verdict, s', returns, accepted | ⟨rejected, complaint, stops, complains⟩⟩ :=
        Evaluation.evalOps_continues running wellFormed (granted memory' booted)
      · exact ⟨verdict, s', returns, .inl accepted⟩
      · exact ⟨verdict, s', returns, .inr (.inr ⟨rejected, memory', complaint, rfl, stops, complains⟩)⟩

end SystemsLabs.Driver
