/-
# SystemsLabs.Driver.Utilization -- the high-water mark of `eval_mm_util`

What a trace has in use after each request does not depend on the package (`Trace.highWater`).
`eval_mm_util` counts it in a word that it adds to and subtracts from, and divides the maximum by the
size of the heap.  On a package that keeps its contract the count never wraps, since the payloads in
use are apart in a heap that does not shrink, and the quotient is at most 1
(`evalMmUtil_highWater`).
-/
import SystemsLabs.Driver.MmNaive
import SystemsLabs.Driver.MmPackage
import SystemsLabs.Theory.Amounts

namespace SystemsLabs.Driver

set_option autoImplicit false

open RangeSet (Owners)

open Theory.Amounts

/-! ## What a trace has in use -/

/-- The sizes of the payloads in use, 0 where there is none. -/
def TraceOp.resize (sizes : Nat → Nat) (op : TraceOp) : Nat → Nat :=
  match op.type with
  | .alloc | .realloc => Function.update sizes op.index.toNat op.size.toNat
  | .free => if op.index < 0 then sizes else Function.update sizes op.index.toNat 0

def inUse (numIds : Nat) (sizes : Nat → Nat) : Nat := ∑ i ∈ Finset.range numIds, sizes i

/-- The largest amount in use after a request. -/
def highWater (numIds : Nat) : (Nat → Nat) → List TraceOp → Nat
  | _, [] => 0
  | sizes, op :: ops => max (inUse numIds (op.resize sizes)) (highWater numIds (op.resize sizes) ops)

def Trace.highWater (trace : Trace) : Nat := Driver.highWater trace.slots.length (fun _ => 0) trace.ops

theorem inUse_update {numIds i : Nat} (inside : i < numIds) (sizes : Nat → Nat) (n : Nat) :
    sizes i ≤ inUse numIds sizes ∧ inUse numIds (Function.update sizes i n) = inUse numIds sizes - sizes i + n :=
  sum_update (Finset.mem_range.mpr inside) sizes n

/-! ## Heaps that do not shrink -/

variable {σ ω : Type} {pkg : Package σ ω}

/-- The heap starts where it did and ends no earlier. -/
def Grown (pkg : Package σ ω) (memory memory' : σ) : Prop :=
  pkg.memHeapLo memory' = pkg.memHeapLo memory ∧ pkg.memHeapHi memory ≤ pkg.memHeapHi memory'

structure Growing (c : Contract pkg) : Prop where
  malloc : ∀ {memory memory' A A' os size p}, c.Holds memory A → c.Holds memory' A' →
    pkg.mmMalloc memory os size = some (p, memory') → Grown pkg memory memory'
  free : ∀ {memory memory' A A' p}, c.Holds memory A → c.Holds memory' A' →
    pkg.mmFree memory p = some memory' → Grown pkg memory memory'
  realloc : ∀ {memory memory' A A' os p size q}, c.Holds memory A → c.Holds memory' A' →
    pkg.mmRealloc memory os p size = some (q, memory') → Grown pkg memory memory'

/-- The bytes of the heap. -/
def span (pkg : Package σ ω) (memory : σ) : Nat := (pkg.memHeapHi memory).toNat + 1 - (pkg.memHeapLo memory).toNat

theorem memHeapsize_toNat {memory : σ} (user : (pkg.memHeapHi memory).toNat < 2 ^ 63) (positive : span pkg memory ≠ 0) :
    (pkg.memHeapsize memory).toNat = span pkg memory := by
  unfold span at positive ⊢
  have next : (pkg.memHeapHi memory + 1).toNat = (pkg.memHeapHi memory).toNat + 1 := by
    rw [UInt64.toNat_add, UInt64.toNat_one]
    omega
  rw [Package.memHeapsize, UInt64.toNat_sub_of_le _ _ (UInt64.le_iff_toNat_le.mpr (by omega)), next]

theorem Grown.span_le {memory memory' : σ} (grown : Grown pkg memory memory') : span pkg memory ≤ span pkg memory' := by
  have upper := UInt64.le_iff_toNat_le.mp grown.2
  rw [span, span, grown.1]
  omega

theorem Grown.of_brk {memory memory' : σ} {brk brk' : Nat} (isLo : pkg.memHeapLo memory' = pkg.memHeapLo memory)
    (isHi : pkg.memHeapHi memory = UInt64.ofNat brk - 1) (isHi' : pkg.memHeapHi memory' = UInt64.ofNat brk' - 1)
    (positive : 0 < brk) (fits : brk' < 2 ^ 64) (le : brk ≤ brk') : Grown pkg memory memory' := by
  have top := toNat_heapHi positive (Nat.lt_of_le_of_lt le fits)
  have top' := toNat_heapHi (positive.trans_le le) fits
  refine ⟨isLo, ?_⟩
  rw [isHi, isHi', UInt64.le_iff_toNat_le]
  omega

namespace Utilization

variable {c : Contract pkg} {numIds i : Nat} {use : Nat → Use} {s s' : Utilization σ} {A : Payloads} {owners : Owners}
  {sizes : Nat → Nat} {memory : σ} {slot : Slot} {index : Int}

/-- Along the evaluation the calls are safe. -/
def Safe (c : Contract pkg) (answers : Nat → ω) : Nat → List TraceOp → Utilization σ → Prop
  | _, [], _ => True
  | i, op :: ops, s => (∀ call, op.call s.slots = some call → c.Safe s.memory (answers i) call) ∧
      ∀ s', s.request pkg (answers i) op = some (.ok s') → Safe c answers (i + 1) ops s'.mark

instance decidableOk {ε α : Type} {P : α → Prop} [∀ a, Decidable (P a)] :
    (answer : Option (Except ε α)) → Decidable (∀ a, answer = some (.ok a) → P a)
  | none => isTrue fun _ impossible => nomatch impossible
  | some (.error _) => isTrue fun _ impossible => nomatch impossible
  | some (.ok a) => decidable_of_iff (P a)
      ⟨fun holds _ isAnswer => Except.ok.inj (Option.some.inj isAnswer) ▸ holds, fun holds => holds a rfl⟩

instance decidableSafe (c : Contract pkg) (answers : Nat → ω) [∀ memory os call, Decidable (c.Safe memory os call)] :
    (i : Nat) → (ops : List TraceOp) → (s : Utilization σ) → Decidable (Safe c answers i ops s)
  | _, [], _ => isTrue trivial
  | i, _ :: ops, _ =>
      have (s' : Utilization σ) : Decidable (Safe c answers (i + 1) ops s') := decidableSafe c answers (i + 1) ops s'
      inferInstanceAs (Decidable (_ ∧ _))

/-- The slots are those of the payloads in use, whose sizes are known. -/
structure Sized (c : Contract pkg) (numIds : Nat) (use : Nat → Use) (slots : List Slot) (memory : σ) (A : Payloads)
    (owners : Owners) (sizes : Nat → Nat) : Prop where
  holds : c.Holds memory A
  tracked : Tracked numIds use slots A owners
  isSize : ∀ i slot, slots[i]? = some slot → sizes i = if use i = .live then slot.blockSize.toNat else 0

/-- **What is in use fits in the heap.** -/
theorem Sized.inUse_le {slots : List Slot} (sized : Sized c numIds use slots memory A owners sizes) :
    inUse numIds sizes ≤ span pkg memory := by
  obtain ⟨holds, tracked, isSize⟩ := sized
  have onlyLive : inUse numIds sizes = ∑ i ∈ (Finset.range numIds).filter (fun i => use i = .live), sizes i := by
    refine (Finset.sum_filter_of_ne fun i member nonzero => ?_).symm
    obtain ⟨slot, found⟩ := tracked.found (Finset.mem_range.mp member)
    by_contra notLive
    exact nonzero ((isSize i slot found).trans (if_neg notLive))
  have live : ∀ i ∈ (Finset.range numIds).filter (fun i => use i = .live), ∃ slot bytes, slots[i]? = some slot ∧
      use i = .live ∧ A slot.block = some bytes ∧ bytes.length = sizes i := by
    intro i member
    obtain ⟨inRange, isLive⟩ := Finset.mem_filter.mp member
    obtain ⟨slot, found⟩ := tracked.found (Finset.mem_range.mp inRange)
    obtain ⟨bytes, payload, length⟩ := tracked.payload found isLive
    exact ⟨slot, bytes, found, isLive, payload, length.trans ((isSize i slot found).trans (if_pos isLive)).symm⟩
  rw [onlyLive]
  refine sum_length_le _ (fun i => ((slots[i]?.map Slot.block).getD 0).toNat) sizes _ _ (fun i member => ?_)
    fun i memI j memJ ne => ?_
  · obtain ⟨slot, bytes, found, -, payload, length⟩ := live i member
    have placed := c.placed holds payload
    have lower := UInt64.le_iff_toNat_le.mp placed.lower
    have upper := placed.upper
    rw [found, Option.map_some, Option.getD_some]
    omega
  · obtain ⟨slot, bytes, found, isLive, payload, length⟩ := live i memI
    obtain ⟨slot', bytes', found', isLive', payload', length'⟩ := live j memJ
    have apart := c.apart holds payload payload' fun same => ne (tracked.distinct found isLive found' isLive' same)
    rw [found, found', Option.map_some, Option.map_some, Option.getD_some, Option.getD_some]
    omega

/-! ## One request -/

/-- The invariant. -/
structure Measured (c : Contract pkg) (numIds : Nat) (use : Nat → Use) (s : Utilization σ) (A : Payloads) (owners : Owners)
    (sizes : Nat → Nat) : Prop extends Sized c numIds use s.slots s.memory A owners sizes where
  total : s.totalSize.toNat = inUse numIds sizes

/-- A new entry in a slot. -/
theorem sizes_set {slots : List Slot} (old : ∀ j slot, slots[j]? = some slot →
      sizes j = if use j = .live then slot.blockSize.toNat else 0) (inside : i < slots.length) {now : Use} {n : Nat}
    (isSize : n = if now = .live then slot.blockSize.toNat else 0) (j : Nat) (slot' : Slot)
    (found : (slots.set i slot)[j]? = some slot') : Function.update sizes i n j =
      if Function.update use i now j = .live then slot'.blockSize.toNat else 0 := by
  by_cases here : j = i
  · subst here
    rw [List.getElem?_set_self inside] at found
    obtain rfl := Option.some.inj found
    rw [Function.update_self, Function.update_self, isSize]
  · rw [List.getElem?_set_ne (Ne.symm here)] at found
    rw [Function.update_of_ne here, Function.update_of_ne here]
    exact old j slot' found

theorem toNat_replace {total old new : UInt64} (le : old.toNat ≤ total.toNat)
    (fits : total.toNat - old.toNat + new.toNat < 2 ^ 64) :
    (total + (new - old)).toNat = total.toNat - old.toNat + new.toNat := by
  rw [UInt64.toNat_add, UInt64.toNat_sub]
  have := old.toNat_lt
  have := new.toNat_lt
  omega

/-- What is in use fits in a word. -/
theorem Sized.inUse_lt {slots : List Slot} (sized : Sized c numIds use slots memory A owners sizes) :
    inUse numIds sizes < 2 ^ 64 := by
  have fits := sized.inUse_le
  have user := c.user sized.holds
  unfold span at fits
  omega

/-- A request returns; if the program goes on, the count is right. -/
def Counts (c : Contract pkg) (numIds : Nat) (use : Nat → Use) (sizes : Nat → Nat) (s : Utilization σ)
    (outcome : Option (Except AppError (Utilization σ))) : Prop :=
  ∃ answer, outcome = some answer ∧ ∀ s', answer = .ok s' → Grown pkg s.memory s'.memory ∧
    s'.maxTotalSize = s.maxTotalSize ∧ ∃ A owners, s'.Measured c numIds use A owners sizes

theorem counts_error {e : AppError} : Counts c numIds use sizes s (some (.error e)) :=
  ⟨_, rfl, fun _ impossible => nomatch impossible⟩

theorem counts_ok (grown : Grown pkg s.memory s'.memory) (max : s'.maxTotalSize = s.maxTotalSize)
    (measured : s'.Measured c numIds use A owners sizes) : Counts c numIds use sizes s (some (.ok s')) := by
  refine ⟨_, rfl, fun s'' isNext => ?_⟩
  cases isNext
  exact ⟨grown, max, A, owners, measured⟩

theorem slot_natCast : s.slot (i : Int) = s.slots[i]? := by
  rw [slot, if_neg (by omega), Int.toNat_natCast]

/-- The size in a slot is the one that was counted. -/
theorem Sized.counted {slots : List Slot} (sized : Sized c numIds use slots memory A owners sizes) (found : slots[i]? = some slot)
    (notStale : use i ≠ .stale) : slot.blockSize.toNat = sizes i := by
  cases isUse : use i with
  | stale => exact absurd isUse notStale
  | live => exact ((sized.isSize i slot found).trans (if_pos isUse)).symm
  | unused =>
      rw [sized.isSize i slot found, if_neg (by rw [isUse]; exact fun impossible => nomatch impossible),
        (sized.tracked.unused i slot found isUse).2]
      rfl

section Requests

variable (growing : Growing c) {size : UInt64} {os : ω}

include growing

/-- **A request to allocate.** -/
theorem alloc_counts (measured : s.Measured c numIds use A owners sizes) (inside : i < numIds) (notLive : use i ≠ .live)
    (positive : size ≠ 0) (le : size ≤ c.limit) (safe : c.Safe s.memory os (.malloc size)) :
    Counts c numIds (Function.update use i .live) (Function.update sizes i size.toNat) s
      (s.request pkg os ⟨.alloc, i, size⟩) := by
  obtain ⟨p, memory, step, gives⟩ := c.malloc measured.holds os size positive le safe
  obtain ⟨slot, found⟩ := measured.tracked.found inside
  have inSlots : i < s.slots.length := measured.tracked.count ▸ inside
  rw [request]
  dsimp only
  rw [step, Option.bind_eq_bind, Option.bind_some]
  by_cases null : p = 0
  · rw [if_pos null]
    exact counts_error
  · obtain ⟨free, bytes, length, holds⟩ := gives null
    have zero : sizes i = 0 := (measured.isSize i slot found).trans (if_neg notLive)
    have isSlot : ({ slot with block := p, blockSize := size } : Slot).block = p ∧
        ({ slot with block := p, blockSize := size } : Slot).blockSize = size := ⟨rfl, rfl⟩
    have tracked := measured.tracked.assign inside notLive isSlot null free length
    have sized : Sized c numIds (Function.update use i .live) (s.slots.set i { slot with block := p, blockSize := size })
        memory _ _ (Function.update sizes i size.toNat) :=
      ⟨holds, tracked, sizes_set measured.isSize inSlots (if_pos rfl).symm⟩
    rw [if_neg null, slot_natCast, found, Option.bind_eq_bind, Option.bind_some]
    refine counts_ok (growing.malloc measured.holds holds step) rfl ⟨sized, ?_⟩
    have fits := sized.inUse_lt
    have after := (inUse_update inside sizes size.toNat).2
    show (s.totalSize + size).toNat = _
    rw [UInt64.toNat_add, measured.total]
    omega

/-- **A request to reallocate.** -/
theorem realloc_counts (measured : s.Measured c numIds use A owners sizes) (inside : i < numIds) (notStale : use i ≠ .stale)
    (le : size ≤ c.limit) (safe : ∀ slot, s.slots[i]? = some slot → c.Safe s.memory os (.realloc slot.block size)) :
    Counts c numIds (Function.update use i (if size = 0 then .unused else .live)) (Function.update sizes i size.toNat) s
      (s.request pkg os ⟨.realloc, i, size⟩) := by
  obtain ⟨slot, found⟩ := measured.tracked.found inside
  have inSlots : i < s.slots.length := measured.tracked.count ▸ inside
  have freeable := measured.tracked.freeable found notStale
  have tracked := measured.tracked.release found notStale
  have stale : Function.update use i Use.stale i = .stale := Function.update_self ..
  have notLive : Function.update use i Use.stale i ≠ .live := by
    rw [stale]
    exact fun impossible => nomatch impossible
  have counted := measured.counted found notStale
  -- what is in use afterwards fits, so the count is right
  have counts : ∀ {q memory A' owners'}, Sized c numIds (Function.update use i (if size = 0 then .unused else .live))
      (s.slots.set i { slot with block := q, blockSize := size }) memory A' owners' (Function.update sizes i size.toNat) →
      (s.totalSize + (size - slot.blockSize)).toNat = inUse numIds (Function.update sizes i size.toNat) := by
    intro q memory A' owners' sized
    have fits := sized.inUse_lt
    obtain ⟨part, after⟩ := inUse_update inside sizes size.toNat
    have total := measured.total
    rw [toNat_replace (by omega) (by omega)]
    omega
  rw [request]
  dsimp only
  rw [slot_natCast, found, Option.bind_eq_bind, Option.bind_some]
  by_cases zero : size = 0
  · subst zero
    obtain ⟨memory, step, holds⟩ := c.reallocZero measured.holds os slot.block freeable (safe slot found)
    have isSlot : ({ slot with block := 0, blockSize := 0 } : Slot).block = 0 ∧
        ({ slot with block := 0, blockSize := 0 } : Slot).blockSize = 0 := ⟨rfl, rfl⟩
    have cleared := tracked.clear inside notLive isSlot
    rw [Function.update_idem] at cleared
    have sized : Sized c numIds (Function.update use i .unused) (s.slots.set i { slot with block := 0, blockSize := 0 })
        memory _ _ (Function.update sizes i (0 : UInt64).toNat) :=
      ⟨holds, cleared, sizes_set measured.isSize inSlots rfl⟩
    rw [step, Option.bind_eq_bind, Option.bind_some]
    exact counts_ok (growing.realloc measured.holds holds step) rfl ⟨sized, counts sized⟩
  · obtain ⟨q, memory, step, gives⟩ := c.realloc measured.holds os slot.block size freeable zero le (safe slot found)
    rw [if_neg zero] at counts ⊢
    rw [step, Option.bind_eq_bind, Option.bind_some]
    dsimp only
    by_cases null : q = 0
    · rw [if_pos ⟨null, zero⟩]
      exact counts_error
    · obtain ⟨free, bytes, length, -, holds⟩ := gives null
      have isSlot : ({ slot with block := q, blockSize := size } : Slot).block = q ∧
          ({ slot with block := q, blockSize := size } : Slot).blockSize = size := ⟨rfl, rfl⟩
      have assigned := tracked.assign inside notLive isSlot null free length
      rw [Function.update_idem] at assigned
      have sized : Sized c numIds (Function.update use i .live) (s.slots.set i { slot with block := q, blockSize := size })
          memory _ _ (Function.update sizes i size.toNat) :=
        ⟨holds, assigned, sizes_set measured.isSize inSlots (if_pos rfl).symm⟩
      rw [if_neg fun both => null both.1]
      exact counts_ok (growing.realloc measured.holds holds step) rfl ⟨sized, counts sized⟩

/-- **A request to free.** -/
theorem free_counts (measured : s.Measured c numIds use A owners sizes) (inside : i < numIds) (notStale : use i ≠ .stale)
    (safe : ∀ slot, s.slots[i]? = some slot → c.Safe s.memory os (.free slot.block)) :
    Counts c numIds (Function.update use i (if use i = .live then .stale else .unused)) (Function.update sizes i 0) s
      (s.request pkg os ⟨.free, i, size⟩) := by
  obtain ⟨slot, found⟩ := measured.tracked.found inside
  obtain ⟨memory, step, holds⟩ :=
    c.free measured.holds os slot.block (measured.tracked.freeable found notStale) (safe slot found)
  have isSize : ∀ j slot, s.slots[j]? = some slot → Function.update sizes i 0 j =
      if Function.update use i (if use i = .live then .stale else .unused) j = .live then slot.blockSize.toNat else 0 := by
    intro j slot found
    by_cases here : j = i
    · subst here
      rw [Function.update_self, Function.update_self, if_neg]
      split <;> exact fun impossible => nomatch impossible
    · rw [Function.update_of_ne here, Function.update_of_ne here]
      exact measured.isSize j slot found
  have counted := measured.counted found notStale
  obtain ⟨part, after⟩ := inUse_update inside sizes 0
  have total := measured.total
  rw [request]
  dsimp only
  rw [if_neg (by omega : ¬ (i : Int) < 0), slot_natCast, found, Option.bind_eq_bind, Option.bind_some, step]
  refine counts_ok (growing.free measured.holds holds step) rfl
    ⟨⟨holds, measured.tracked.freed found notStale, isSize⟩, ?_⟩
  show (s.totalSize - slot.blockSize).toNat = _
  rw [UInt64.toNat_sub_of_le _ _ (UInt64.le_iff_toNat_le.mpr (by omega))]
  omega

theorem free_null_counts (measured : s.Measured c numIds use A owners sizes) (safe : c.Safe s.memory os (.free 0)) :
    Counts c numIds use sizes s (s.request pkg os ⟨.free, -1, size⟩) := by
  obtain ⟨memory, step, holds⟩ := c.free measured.holds os 0 (.inl rfl) safe
  rw [c.update_null measured.holds] at holds
  rw [request]
  dsimp only
  rw [if_pos (by decide), step]
  refine counts_ok (growing.free measured.holds holds step) rfl ⟨⟨holds, measured.tracked, measured.isSize⟩, ?_⟩
  show (s.totalSize - 0).toNat = _
  rw [UInt64.sub_zero]
  exact measured.total

/-- **One request** keeps the invariant, if the program goes on. -/
theorem request_counts (measured : s.Measured c numIds use A owners sizes) {op : TraceOp}
    (allowed : op.Allowed c.limit numIds use) (safe : ∀ call, op.call s.slots = some call → c.Safe s.memory os call) :
    Counts c numIds (op.after use) (op.resize sizes) s (s.request pkg os op) := by
  obtain ⟨type, index, size⟩ := op
  cases type with
  | alloc =>
      obtain ⟨nonneg, inside, notLive, positive, le⟩ := allowed
      obtain ⟨i, rfl⟩ := Int.eq_ofNat_of_zero_le nonneg
      exact alloc_counts growing measured inside notLive positive le (safe _ rfl)
  | realloc =>
      obtain ⟨nonneg, inside, notStale, le⟩ := allowed
      obtain ⟨i, rfl⟩ := Int.eq_ofNat_of_zero_le nonneg
      exact realloc_counts growing measured inside notStale le fun slot found => safe _ (congrArg (Option.map _) found)
  | free =>
      rcases allowed with null | ⟨nonneg, inside, notStale⟩
      · obtain rfl : index = -1 := null
        exact free_null_counts growing measured (safe _ rfl)
      · have nonneg : 0 ≤ index := nonneg
        obtain ⟨i, rfl⟩ := Int.eq_ofNat_of_zero_le nonneg
        have notNegative : ¬ (i : Int) < 0 := by omega
        have after : TraceOp.after use ⟨.free, i, size⟩ =
            Function.update use i (if use i = .live then .stale else .unused) := by
          simp only [TraceOp.after, notNegative, if_false, Int.toNat_natCast]
        have resized : TraceOp.resize sizes ⟨.free, i, size⟩ = Function.update sizes i 0 := by
          simp only [TraceOp.resize, notNegative, if_false, Int.toNat_natCast]
        rw [after, resized]
        refine free_counts growing measured inside notStale fun slot found => safe _ ?_
        simp only [TraceOp.call, notNegative, if_false, Int.toNat_natCast, found, Option.map_some]

/-- **All requests.** -/
theorem evalOps_counts {answers : Nat → ω} {ops : List TraceOp} (measured : s.Measured c numIds use A owners sizes)
    (wellFormed : WellFormed c.limit numIds use ops) (safe : Safe c answers i ops s)
    (fits : s.maxTotalSize.toNat ≤ span pkg s.memory) :
    ∃ answer, s.evalOps pkg answers i ops = some answer ∧ ∀ s', answer = .ok s' →
      s'.maxTotalSize.toNat = max s.maxTotalSize.toNat (highWater numIds sizes ops) ∧
      s'.maxTotalSize.toNat ≤ span pkg s'.memory ∧ ∃ A, c.Holds s'.memory A := by
  induction ops generalizing i s use A owners sizes with
  | nil =>
      refine ⟨_, rfl, fun s' isNext => ?_⟩
      cases isNext
      exact ⟨(Nat.max_zero _).symm, fits, A, measured.holds⟩
  | cons op ops ih =>
      obtain ⟨allowed, rest⟩ := wellFormed
      obtain ⟨here, later⟩ := safe
      obtain ⟨answer, returns, next⟩ := request_counts growing measured allowed here
      rw [evalOps, returns, Option.bind_eq_bind, Option.bind_some]
      cases answer with
      | error e => exact ⟨_, rfl, fun _ impossible => nomatch impossible⟩
      | ok s₁ =>
          obtain ⟨grown, kept, A', owners', measured'⟩ := next s₁ rfl
          have marked : s₁.mark.maxTotalSize.toNat = max s.maxTotalSize.toNat (inUse numIds (op.resize sizes)) := by
            rw [← measured'.total, ← kept]
            show (if s₁.totalSize > s₁.maxTotalSize then s₁.totalSize else s₁.maxTotalSize).toNat = _
            split
            · next above =>
              have := UInt64.lt_iff_toNat_lt.mp above
              omega
            · next below =>
              have := UInt64.lt_iff_toNat_lt.not.mp below
              omega
          have fits' : s₁.mark.maxTotalSize.toNat ≤ span pkg s₁.memory := by
            have := grown.span_le
            have := measured'.inUse_le
            omega
          obtain ⟨answer, returns', result⟩ := ih (s := s₁.mark) ⟨measured'.toSized, measured'.total⟩ rest (later s₁ returns) fits'
          refine ⟨answer, returns', fun s' isNext => ?_⟩
          obtain ⟨high, below⟩ := result s' isNext
          refine ⟨?_, below⟩
          rw [highWater]
          omega

end Requests

end Utilization

/-- **`eval_mm_util`** returns, or the package refuses and the program ends: the first number is the
high-water mark of the trace, and it is at most the second, the size of the heap. -/
theorem evalMmUtil_highWater (c : Contract pkg) (growing : Growing c) (init : ω) (answers : Nat → ω) (trace : Trace)
    (memory : σ) (mapped : c.Mapped memory) (wellFormed : trace.WellFormed c.limit)
    (safe : ∀ memory', pkg.mmInit (pkg.memResetBrk memory) init = some (true, memory') →
      Utilization.Safe c answers 0 trace.ops ⟨memory', reinitTrace trace.slots, 0, 0⟩) :
    ∃ answer, evalMmUtil pkg init answers trace memory = some answer ∧ ∀ high heapsize, answer = .ok (high, heapsize) →
      high.toNat = trace.highWater ∧ high ≤ heapsize := by
  obtain ⟨ok, memory', booted, holds⟩ := c.init memory init mapped
  rw [evalMmUtil, booted, Option.bind_eq_bind, Option.bind_some]
  cases ok with
  | false => exact ⟨_, rfl, fun _ _ impossible => nomatch impossible⟩
  | true =>
      have zero : inUse trace.slots.length (fun _ => 0) = 0 := Finset.sum_const_zero
      have measured : Utilization.Measured c trace.slots.length (fun _ => .unused)
          ⟨memory', reinitTrace trace.slots, 0, 0⟩ (fun _ => none) (fun _ => none) fun _ => 0 :=
        ⟨⟨holds rfl, tracked_start trace.slots, fun _ _ _ => rfl⟩, zero.symm⟩
      obtain ⟨answer, returns, result⟩ :=
        Utilization.evalOps_counts growing measured wellFormed (safe memory' booted) (Nat.zero_le _)
      simp only [Bool.not_true, Bool.false_eq_true, if_false, returns, Option.bind_eq_bind, Option.bind_some]
      refine ⟨_, rfl, fun high heapsize isAnswer => ?_⟩
      cases answer with
      | error e => cases isAnswer
      | ok s =>
          cases isAnswer
          obtain ⟨isHigh, fits, A, holds⟩ := result s rfl
          refine ⟨isHigh.trans (Nat.zero_max _), ?_⟩
          have user := c.user holds
          rw [UInt64.le_iff_toNat_le]
          by_cases empty : span pkg s.memory = 0
          · omega
          · rw [memHeapsize_toNat user empty]
            exact fits

/-! ## The two packages -/

theorem Naive.growing : Growing Naive.contract where
  malloc holds holds' step := by
    obtain ⟨-, rfl⟩ := Prod.mk.inj (Option.some.inj step)
    obtain ⟨heap, brk⟩ := Naive.malloc_onward rfl
    exact .of_brk (congrArg UInt64.ofNat heap) rfl rfl (holds.start.trans_le holds.lower) holds'.brk_lt brk
  free _ _ step := by
    obtain rfl := Option.some.inj step
    exact ⟨rfl, UInt64.le_refl _⟩
  realloc holds holds' step := by
    obtain ⟨-, rfl⟩ := Prod.mk.inj (Option.some.inj step)
    obtain ⟨heap, brk⟩ := Naive.realloc_onward rfl
    exact .of_brk (congrArg UInt64.ofNat heap) rfl rfl (holds.start.trans_le holds.lower) holds'.brk_lt brk

theorem Mm.growing : Growing Mm.contract where
  malloc holds holds' step := by
    obtain ⟨answer, returned, isNext⟩ := Option.map_eq_some_iff.mp step
    obtain ⟨-, rfl⟩ := Prod.mk.inj isNext
    exact .of_brk rfl rfl rfl holds.brk_pos holds'.brk_lt (Malloc.Heap.malloc_within returned).lower
  free holds holds' step := by
    obtain ⟨h', freed, rfl⟩ := Option.map_eq_some_iff.mp step
    exact .of_brk rfl rfl rfl holds.brk_pos holds'.brk_lt
      (Malloc.Heap.Within.of_segment (Malloc.Heap.free_segment freed)).lower
  realloc holds holds' step := by
    obtain ⟨answer, returned, isNext⟩ := Option.map_eq_some_iff.mp step
    obtain ⟨-, rfl⟩ := Prod.mk.inj isNext
    exact .of_brk rfl rfl rfl holds.brk_pos holds'.brk_lt (Malloc.Heap.realloc_within returned).lower

theorem evalMmUtil_highWater_moving : ∃ high heapsize,
    evalMmUtil Mm.package Malloc.Session.granted (fun _ => Malloc.Session.granted) Mm.movingTrace ⟨Malloc.Session.blank, 4096⟩ =
      some (.ok (high, heapsize)) ∧ high.toNat = Mm.movingTrace.highWater ∧ high ≤ heapsize := by
  have passes : (evalMmUtil Mm.package Malloc.Session.granted (fun _ => Malloc.Session.granted) Mm.movingTrace
      ⟨Malloc.Session.blank, 4096⟩).map Except.isOk = some true := by decide +kernel
  obtain ⟨answer, returns, result⟩ := evalMmUtil_highWater Mm.contract Mm.growing Malloc.Session.granted
    (fun _ => Malloc.Session.granted) Mm.movingTrace ⟨Malloc.Session.blank, 4096⟩
    ⟨by decide, by decide, by decide, by decide⟩ (by decide) (by decide +kernel)
  cases answer with
  | error e =>
      rw [returns] at passes
      cases passes
  | ok outcome =>
      obtain ⟨high, heapsize⟩ := outcome
      exact ⟨high, heapsize, returns, result high heapsize rfl⟩

end SystemsLabs.Driver
