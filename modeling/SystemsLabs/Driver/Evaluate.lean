/-
# SystemsLabs.Driver.Evaluate -- `eval_mm_valid` and `eval_mm_util`

The driver replays a trace on a `malloc` package.  `Package` is what it calls: the functions of
`mm.h`, and those of `memlib.h` that it uses itself, over the state that they share.  The memory is
the dense one, where `mem_read` and `mem_write` are loads and stores.

An evaluation is a fold over the requests.  What comes from elsewhere is an argument of each request
(`Answers`): what the operating system answers to `mem_sbrk`, the number that `random` returns, and
the addresses that the driver's own `malloc` returns for a range and a node of its tree.
As everywhere, `none` is a call that does not return.
-/
import SystemsLabs.Driver.RangeSet

namespace SystemsLabs.Driver

set_option autoImplicit false

/-- A `malloc` package over its state `σ`; `ω` is what the operating system answers in one call. -/
structure Package (σ ω : Type) where
  memResetBrk : σ → σ
  memHeapLo : σ → Addr
  memHeapHi : σ → Addr
  /-- `mem_read` and `mem_write` of one byte -/
  memRead : σ → Addr → UInt8
  memWrite : σ → Addr → UInt8 → σ
  mmInit : σ → ω → Option (Bool × σ)
  mmMalloc : σ → ω → UInt64 → Option (Addr × σ)
  mmFree : σ → Addr → Option σ
  mmRealloc : σ → ω → Addr → UInt64 → Option (Addr × σ)
  mmCheckheap : σ → Option Bool

/-! ## Traces -/

inductive RequestType where
  | alloc
  | free
  | realloc
deriving DecidableEq, Repr

/-- `traceop_t` -/
structure TraceOp where
  type : RequestType
  index : Int
  size : UInt64
deriving DecidableEq, Repr

/-- The entries of `blocks`, `block_sizes` and `block_rand_base` at one index. -/
structure Slot where
  block : Addr
  blockSize : UInt64
  blockRandBase : UInt64
deriving DecidableEq, Repr

/-- The fields of `trace_t` that an evaluation reads; there are `num_ids` slots. -/
structure Trace where
  ops : List TraceOp
  slots : List Slot
deriving DecidableEq, Repr

/-- `block_rand_base` stays. -/
def reinitTrace (slots : List Slot) : List Slot := slots.map fun slot => { slot with block := 0, blockSize := 0 }

structure Answers (ω : Type) where
  os : ω
  random : UInt64
  range : Addr
  node : Addr

/-- The globals that an evaluation reads. -/
structure Settings where
  debugMode : DebugMode
  maxfill : UInt64
  randomData : UInt64 → UInt8

abbrev randomDataLen : UInt64 := 65536

/-- `random_data[(base + i) % RANDOM_DATA_LEN]` -/
def Settings.expected (cfg : Settings) (base : UInt64) (i : Nat) : UInt8 :=
  cfg.randomData ((base + UInt64.ofNat i) % randomDataLen)

/-- How many bytes of a block are filled and checked. -/
def Settings.fsize (cfg : Settings) (size : UInt64) : Nat := (min size cfg.maxfill).toNat

/-- The calls of `malloc_error`. -/
inductive Complaint where
  /-- "mm_init failed." -/
  | initFailed
  /-- "mm_checkheap returned false\n" -/
  | checkheapFailed (opnum : Nat)
  /-- "block %d (at %p) has %d garbled %s%s, starting at byte %zu" -/
  | garbled (opnum : Nat) (index : Int) (address : Addr) (ngarbled firstgarbled : Nat)
  /-- "mm_malloc failed." -/
  | mallocFailed (opnum : Nat)
  /-- "mm_realloc failed." -/
  | reallocFailed (opnum : Nat)
  /-- "mm_realloc with size 0 returned non-NULL." -/
  | reallocNonNull (opnum : Nat)
  /-- what `add_range` reports -/
  | badRange (opnum : Nat) (error : RangeError)
deriving DecidableEq, Repr

/-- The state of `eval_mm_valid`: the package, the arrays of the trace, the ranges, `allCheck`, and the
errors reported. -/
structure Evaluation (σ : Type) where
  memory : σ
  slots : List Slot
  ranges : RangeSet
  allCheck : Bool
  complaints : List Complaint

namespace Evaluation

variable {σ ω : Type}

def complain (s : Evaluation σ) (c : Complaint) : Evaluation σ := { s with complaints := s.complaints ++ [c] }

/-- An access to the arrays of the trace; one outside of them is not one. -/
def slot (s : Evaluation σ) (index : Int) : Option Slot := if index < 0 then none else s.slots[index.toNat]?

def setSlot (s : Evaluation σ) (index : Int) (slot : Slot) : Evaluation σ :=
  { s with slots := s.slots.set index.toNat slot }

/-- The bytes that `check_index` finds garbled. -/
def garbledBytes (pkg : Package σ ω) (cfg : Settings) (memory : σ) (slot : Slot) : List Nat :=
  (List.range (cfg.fsize slot.blockSize)).filter fun i =>
    pkg.memRead memory (slot.block + UInt64.ofNat i) ≠ cfg.expected slot.blockRandBase i

def checkIndex (pkg : Package σ ω) (cfg : Settings) (opnum : Nat) (index : Int) (s : Evaluation σ) :
    Option (Bool × Evaluation σ) :=
  -- `free(NULL)`
  if index < 0 then some (true, s)
  else if cfg.debugMode = .none then some (true, s)
  else do
    let slot ← s.slot index
    match garbledBytes pkg cfg s.memory slot with
    | [] => some (true, s)
    | firstgarbled :: more =>
        let block := slot.block + UInt64.ofNat firstgarbled
        some (false, s.complain (.garbled opnum index block (more.length + 1) firstgarbled))

/-- `if (!check_index(...)) allCheck = false;` -/
def recheck (pkg : Package σ ω) (cfg : Settings) (opnum : Nat) (index : Int) (s : Evaluation σ) :
    Option (Evaluation σ) := do
  let (ok, s) ← s.checkIndex pkg cfg opnum index
  some (if ok then s else { s with allCheck := false })

/-- The loop of `randomize_block`. -/
def fill (pkg : Package σ ω) (cfg : Settings) (slot : Slot) (memory : σ) : σ :=
  (List.range (cfg.fsize slot.blockSize)).foldl
    (fun memory i => pkg.memWrite memory (slot.block + UInt64.ofNat i) (cfg.expected slot.blockRandBase i)) memory

def randomizeBlock (pkg : Package σ ω) (cfg : Settings) (random : UInt64) (index : Int) (s : Evaluation σ) :
    Option (Evaluation σ) :=
  if cfg.debugMode = .none then some s
  else do
    let slot ← s.slot index
    let slot := { slot with blockRandBase := random }
    some { s.setSlot index slot with memory := fill pkg cfg slot s.memory }

/-- `mem_heap_lo()` and `mem_heap_hi()`, which are user addresses. -/
def extent (pkg : Package σ ω) (memory : σ) : Option Extent :=
  if user : (pkg.memHeapHi memory).toNat < 2 ^ 63 then some ⟨pkg.memHeapLo memory, pkg.memHeapHi memory, user⟩ else none

def addRange (pkg : Package σ ω) (cfg : Settings) (a : Answers ω) (opnum : Nat) (lo : Addr) (size : UInt64)
    (index : Int) (s : Evaluation σ) : Option (Bool × Evaluation σ) := do
  let heap ← extent pkg s.memory
  let (answer, ranges) ← s.ranges.addRange cfg.debugMode heap lo size index a.range a.node
  let s := { s with ranges := ranges }
  match answer with
  | .ok () => some (true, s)
  | .error error => some (false, s.complain (.badRange opnum error))

def removeRange (lo : Addr) (s : Evaluation σ) : Option (Evaluation σ) :=
  (s.ranges.removeRange lo).map fun ranges => { s with ranges := ranges }

/-- The walk along the ranges from `r`. -/
def checkRanges (pkg : Package σ ω) (cfg : Settings) (opnum : Nat) : Nat → Addr → Evaluation σ → Option (Evaluation σ)
  | 0, _, _ => none
  | fuel + 1, r, s =>
      if r = 0 then some s
      else do
        let range ← s.ranges.ranges.lookup r
        let s ← s.recheck pkg cfg opnum range.index
        checkRanges pkg cfg opnum fuel range.next s

/-! ## `eval_mm_valid` -/

/-- What the driver does before a request in its most expensive mode; `false` where it gives up.  A walk
that has met more ranges than there are has met one twice, and goes on for ever. -/
def checkAll (pkg : Package σ ω) (cfg : Settings) (opnum : Nat) (s : Evaluation σ) : Option (Bool × Evaluation σ) :=
  if cfg.debugMode = .expensive then do
    if !(← pkg.mmCheckheap s.memory) then some (false, s.complain (.checkheapFailed opnum))
    else do
      let s ← s.checkRanges pkg cfg opnum (s.ranges.ranges.entries.length + 1) s.ranges.list
      some (true, s)
  else some (true, s)

def evalAlloc (pkg : Package σ ω) (cfg : Settings) (a : Answers ω) (opnum : Nat) (index : Int) (size : UInt64)
    (s : Evaluation σ) : Option (Bool × Evaluation σ) := do
  let (p, memory) ← pkg.mmMalloc s.memory a.os size
  let s := { s with memory := memory }
  if p = 0 then some (false, s.complain (.mallocFailed opnum))
  else do
    let (ok, s) ← s.addRange pkg cfg a opnum p size index
    if !ok then some (false, s)
    else do
      let slot ← s.slot index
      let s := s.setSlot index { slot with block := p, blockSize := size }
      let s ← s.randomizeBlock pkg cfg a.random index
      some (true, s)

def evalRealloc (pkg : Package σ ω) (cfg : Settings) (a : Answers ω) (opnum : Nat) (index : Int) (size : UInt64)
    (s : Evaluation σ) : Option (Bool × Evaluation σ) := do
  let s ← s.recheck pkg cfg opnum index
  let slot ← s.slot index
  let oldp := slot.block
  let (newp, memory) ← pkg.mmRealloc s.memory a.os oldp size
  let s := { s with memory := memory }
  if newp = 0 ∧ size ≠ 0 then some (false, s.complain (.reallocFailed opnum))
  else if newp ≠ 0 ∧ size = 0 then some (false, s.complain (.reallocNonNull opnum))
  else do
    let s ← s.removeRange oldp
    let (ok, s) ← (if size > 0 then s.addRange pkg cfg a opnum newp size index else some (true, s))
    if !ok then some (false, s)
    else do
      -- what was copied is checked in the size that both blocks have
      let slot := { slot with block := newp, blockSize := if size < slot.blockSize then size else slot.blockSize }
      let s := s.setSlot index slot
      let s ← s.recheck pkg cfg opnum index
      let s := s.setSlot index { slot with blockSize := size }
      let s ← s.randomizeBlock pkg cfg a.random index
      some (true, s)

def evalFree (pkg : Package σ ω) (cfg : Settings) (opnum : Nat) (index : Int) (s : Evaluation σ) :
    Option (Bool × Evaluation σ) := do
  let s ← s.recheck pkg cfg opnum index
  if index = -1 then do
    let memory ← pkg.mmFree s.memory 0
    some (true, { s with memory := memory })
  else do
    let slot ← s.slot index
    let s ← s.removeRange slot.block
    let memory ← pkg.mmFree s.memory slot.block
    some (true, { s with memory := memory })

/-- One request; `false` where `eval_mm_valid` returns false on the spot. -/
def evalOp (pkg : Package σ ω) (cfg : Settings) (a : Answers ω) (opnum : Nat) (op : TraceOp) (s : Evaluation σ) :
    Option (Bool × Evaluation σ) := do
  let (ok, s) ← s.checkAll pkg cfg opnum
  if !ok then some (false, s)
  else
    match op.type with
    | .alloc => s.evalAlloc pkg cfg a opnum op.index op.size
    | .realloc => s.evalRealloc pkg cfg a opnum op.index op.size
    | .free => s.evalFree pkg cfg opnum op.index

/-- The requests from number `i` on. -/
def evalOps (pkg : Package σ ω) (cfg : Settings) (answers : Nat → Answers ω) :
    Nat → List TraceOp → Evaluation σ → Option (Bool × Evaluation σ)
  | _, [], s => some (s.allCheck, s)
  | i, op :: ops, s => do
      let (ok, s) ← s.evalOp pkg cfg (answers i) i op
      if !ok then some (false, s) else evalOps pkg cfg answers (i + 1) ops s

end Evaluation

variable {σ ω : Type}

/-- `eval_mm_valid`, with the verdict. -/
def evalMmValid (pkg : Package σ ω) (cfg : Settings) (init : ω) (answers : Nat → Answers ω) (trace : Trace)
    (ranges : RangeSet) (memory : σ) : Option (Bool × Evaluation σ) := do
  let (ok, memory) ← pkg.mmInit (pkg.memResetBrk memory) init
  let s : Evaluation σ := ⟨memory, reinitTrace trace.slots, ranges, true, []⟩
  if !ok then some (false, s.complain .initFailed) else s.evalOps pkg cfg answers 0 trace.ops

/-! ## `eval_mm_util` -/

/-- The calls of `app_error`, which end the program. -/
inductive AppError where
  /-- "trace %d: mm_init failed in eval_mm_util" -/
  | initFailed
  /-- "trace %d: mm_malloc failed in eval_mm_util" -/
  | mallocFailed
  /-- "trace %d: mm_realloc failed in eval_mm_util" -/
  | reallocFailed
deriving DecidableEq, Repr

/-- The state of `eval_mm_util`. -/
structure Utilization (σ : Type) where
  memory : σ
  slots : List Slot
  totalSize : UInt64
  maxTotalSize : UInt64

namespace Utilization

def slot (s : Utilization σ) (index : Int) : Option Slot := if index < 0 then none else s.slots[index.toNat]?

def setSlot (s : Utilization σ) (index : Int) (slot : Slot) : Utilization σ :=
  { s with slots := s.slots.set index.toNat slot }

/-- The request proper. -/
def request (pkg : Package σ ω) (os : ω) (op : TraceOp) (s : Utilization σ) : Option (Except AppError (Utilization σ)) :=
  match op.type with
  | .alloc => do
      let (p, memory) ← pkg.mmMalloc s.memory os op.size
      if p = 0 then some (.error .mallocFailed)
      else do
        let slot ← s.slot op.index
        let s := s.setSlot op.index { slot with block := p, blockSize := op.size }
        some (.ok { s with memory := memory, totalSize := s.totalSize + op.size })
  | .realloc => do
      let slot ← s.slot op.index
      let (newp, memory) ← pkg.mmRealloc s.memory os slot.block op.size
      if newp = 0 ∧ op.size ≠ 0 then some (.error .reallocFailed)
      else
        let s := s.setSlot op.index { slot with block := newp, blockSize := op.size }
        some (.ok { s with memory := memory, totalSize := s.totalSize + (op.size - slot.blockSize) })
  | .free =>
      if op.index < 0 then do
        let memory ← pkg.mmFree s.memory 0
        some (.ok { s with memory := memory, totalSize := s.totalSize - 0 })
      else do
        let slot ← s.slot op.index
        let memory ← pkg.mmFree s.memory slot.block
        some (.ok { s with memory := memory, totalSize := s.totalSize - slot.blockSize })

/-- The high-water mark. -/
def mark (s : Utilization σ) : Utilization σ :=
  { s with maxTotalSize := if s.totalSize > s.maxTotalSize then s.totalSize else s.maxTotalSize }

/-- The requests from number `i` on. -/
def evalOps (pkg : Package σ ω) (answers : Nat → ω) :
    Nat → List TraceOp → Utilization σ → Option (Except AppError (Utilization σ))
  | _, [], s => some (.ok s)
  | i, op :: ops, s => do
      match ← s.request pkg (answers i) op with
      | .error e => some (.error e)
      | .ok s => evalOps pkg answers (i + 1) ops s.mark

end Utilization

/-- `mem_heapsize()` -/
def Package.memHeapsize (pkg : Package σ ω) (memory : σ) : UInt64 := pkg.memHeapHi memory + 1 - pkg.memHeapLo memory

/-- `eval_mm_util`: the high-water mark and the size of the heap, of which it returns the quotient. -/
def evalMmUtil (pkg : Package σ ω) (init : ω) (answers : Nat → ω) (trace : Trace) (memory : σ) :
    Option (Except AppError (UInt64 × UInt64)) := do
  let (ok, memory) ← pkg.mmInit (pkg.memResetBrk memory) init
  if !ok then some (.error .initFailed)
  else do
    let outcome ← Utilization.evalOps pkg answers 0 trace.ops ⟨memory, reinitTrace trace.slots, 0, 0⟩
    some (outcome.map fun s => (s.maxTotalSize, pkg.memHeapsize s.memory))

end SystemsLabs.Driver
