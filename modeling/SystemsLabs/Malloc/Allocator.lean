/-
# SystemsLabs.Malloc.Allocator -- the segregated-list allocator of `mm.c`

The functions of `mm.c`, in its order, over an explicit heap: the bytes, the break
of `memlib.c` and the allocator's globals.  A pointer is an address and `NULL` is 0.

A function that follows links is an `Option`: `none` is a call that never returns,
because it dereferences `NULL` or because a loop does not end.  Such a loop gets
`wordMod` steps of fuel; a loop that has met that many nodes has met one of them
twice and, as it writes nothing, goes on for ever.

Whether the operating system grants an extension is not in `memlib.c`; its answers
to the `mem_sbrk` calls one allocator call can make are an argument (`SbrkAnswers`).
-/
import Mathlib.Logic.Function.Basic
import SystemsLabs.Malloc.PackedWord
import SystemsLabs.Theory.ByteMemory

namespace SystemsLabs.Malloc

open SystemsLabs.Theory.ByteMemory

set_option autoImplicit false

abbrev numClasses : Nat := 8

abbrev numMinLists : Nat := 6

/-- The heap bytes and the globals of `memlib.c` and `mm.c`. -/
structure Heap where
  mem : Mem
  /-- `mem_brk`, one past the last heap byte -/
  brk : Nat
  /-- `mem_max_addr` -/
  maxAddr : Nat
  heapStart : Nat
  heapEnd : Nat
  segList : Fin numClasses → Nat
  minList : Fin numMinLists → Nat

/-- The operating system's answers to the `mem_sbrk` calls of one allocator call: the
two of `mm_init` and the one of `extend_heap` when no block fits. -/
structure SbrkAnswers where
  prologue : Bool
  chunk : Bool
  extend : Bool

/-! ## Helpers on pointers and sizes -/

def payloadToHeader (bp : Nat) : Nat := bp - wsize

def headerToPayload (block : Nat) : Nat := block + wsize

def findPrevFooter (block : Nat) : Nat := block - wsize

def minIndex (block : Nat) : Fin numMinLists := ⟨block % 6, Nat.mod_lt _ (by decide)⟩

def getIndex (asize : Nat) : Fin numClasses :=
  let index : Fin numClasses := 0
  let index := if asize < 2 ^ 6 then 0 else index
  let index := if asize ≥ 2 ^ 6 ∧ asize < 2 ^ 7 then 1 else index
  let index := if asize ≥ 2 ^ 7 ∧ asize < 2 ^ 8 then 2 else index
  let index := if asize ≥ 2 ^ 8 ∧ asize < 2 ^ 9 then 3 else index
  let index := if asize ≥ 2 ^ 9 ∧ asize < 2 ^ 10 then 4 else index
  let index := if asize ≥ 2 ^ 10 ∧ asize < 2 ^ 11 then 5 else index
  let index := if asize ≥ 2 ^ 11 ∧ asize < 2 ^ 12 then 6 else index
  let index := if asize ≥ 2 ^ 12 then 7 else index
  index

/-- The adjusted block size of a request. -/
def adjustedSize (size : Nat) : Nat :=
  if size ≤ wsize then minBlockSize else roundUp (wadd size wsize) dsize

namespace Heap

/-! ## Short helper functions -/

def word (h : Heap) (p : Nat) : Nat := read64 h.mem p

def setWord (h : Heap) (p v : Nat) : Heap := { h with mem := write64 h.mem p v }

/-- `block->header`. -/
def header (h : Heap) (block : Nat) : Nat := h.word block

/-- `block->val.list.prev`. -/
def prev (h : Heap) (block : Nat) : Nat := h.word (block + wsize)

/-- `block->val.list.next`. -/
def next (h : Heap) (block : Nat) : Nat := h.word (block + dsize)

/-- `block->val.next` of a `min_block_t`. -/
def minNext (h : Heap) (block : Nat) : Nat := h.word (block + wsize)

def setPrev (h : Heap) (block v : Nat) : Heap := h.setWord (block + wsize) v

def setNext (h : Heap) (block v : Nat) : Heap := h.setWord (block + dsize) v

def setMinNext (h : Heap) (block v : Nat) : Heap := h.setWord (block + wsize) v

def setSegList (h : Heap) (i : Fin numClasses) (v : Nat) : Heap :=
  { h with segList := Function.update h.segList i v }

def setMinList (h : Heap) (i : Fin numMinLists) (v : Nat) : Heap :=
  { h with minList := Function.update h.minList i v }

def getSize (h : Heap) (block : Nat) : Nat := extractSize (h.header block)

def headerToFooter (h : Heap) (block : Nat) : Nat := block + wsize + h.getSize block - dsize

def footerToHeader (h : Heap) (footer : Nat) : Nat := footer + wsize - extractSize (h.word footer)

def getPayloadSize (h : Heap) (block : Nat) : Nat := wsub (h.getSize block) wsize

def getAlloc (h : Heap) (block : Nat) : Bool := extractAlloc (h.header block)

def getPrevAlloc (h : Heap) (block : Nat) : Bool := extractPrevAlloc (h.header block)

def getPrevMin (h : Heap) (block : Nat) : Bool := extractPrevMin (h.header block)

def writeEpilogue (h : Heap) (block : Nat) : Heap := h.setWord block (pack 0 false false true)

def writeBlock (h : Heap) (block size : Nat) (prevMin prevAlloc alloc : Bool) : Heap :=
  let h := h.setWord block (pack size prevMin prevAlloc alloc)
  if !alloc ∧ size ≠ minBlockSize then
    h.setWord (h.headerToFooter block) (pack size prevMin prevAlloc alloc)
  else h

def findNext (h : Heap) (block : Nat) : Nat := block + h.getSize block

def findPrev (h : Heap) (block : Nat) : Nat :=
  let footerp := findPrevFooter block
  if extractSize (h.word footerp) = 0 then 0 else h.footerToHeader footerp

/-! ## Free lists -/

/-- The search of `pop_min_block`: `prev` and `tmp` walk the bucket until `tmp` is the
block. -/
def seekMinBlock (h : Heap) (block : Nat) : Nat → Nat → Nat → Option (Nat × Nat)
  | 0, _, _ => none
  | fuel + 1, prev, tmp =>
      if tmp = block then some (prev, tmp)
      else if tmp = 0 then none
      else h.seekMinBlock block fuel tmp (h.minNext tmp)

def popMinBlock (h : Heap) (block : Nat) : Option Heap :=
  let index := minIndex block
  let root := h.minList index
  -- one ele
  if block = root ∧ h.minNext block = 0 then some (h.setMinList index 0)
  -- ele at root
  else if block = root ∧ h.minNext block ≠ 0 then
    some ((h.setMinList index (h.minNext block)).setMinNext block 0)
  -- general case
  else do
    let (prev, tmp) ← h.seekMinBlock block wordMod root root
    -- ele at end
    let h := if block ≠ root ∧ h.minNext block = 0 then h.setMinNext prev 0 else h
    let h := h.setMinNext prev (h.minNext tmp)
    some (h.setMinNext tmp 0)

def pushMinBlock (h : Heap) (block : Nat) : Heap :=
  let index := minIndex block
  let root := h.minList index
  -- no ele
  if root = 0 then (h.setMinNext block 0).setMinList index block
  -- general case
  else (h.setMinNext block root).setMinList index block

/-- The conditions are those of the source in its order.  Where a condition reads
through `next_block` or `prev_block`, a null one ends the call. -/
def pop (h : Heap) (block : Nat) : Option Heap :=
  let size := h.getSize block
  if size = minBlockSize then h.popMinBlock block
  else
    let i := getIndex size
    let root := h.segList i
    let prevBlock := h.prev block
    let nextBlock := h.next block
    -- one ele
    if block = root ∧ prevBlock = 0 ∧ nextBlock = 0 then some (h.setSegList i 0)
    else if block = root ∧ nextBlock = 0 then none
    -- two ele 1
    else if block = root ∧ h.next nextBlock = 0 ∧ prevBlock = 0 then
      some (((h.setPrev nextBlock 0).setNext block 0).setSegList i nextBlock)
    else if block ≠ root ∧ prevBlock = 0 then none
    -- two ele 2
    else if block ≠ root ∧ h.prev prevBlock = 0 ∧ nextBlock = 0 then
      some ((h.setNext prevBlock 0).setPrev block 0)
    -- 3+ ele 1
    else if block = root ∧ h.next nextBlock ≠ 0 ∧ prevBlock = 0 then
      some (((h.setPrev nextBlock 0).setNext block 0).setSegList i nextBlock)
    -- 3+ ele 2 general case
    else if block ≠ root ∧ nextBlock ≠ 0 ∧ prevBlock ≠ 0 then
      let h := h.setNext prevBlock nextBlock
      let h := h.setPrev nextBlock prevBlock
      let h := h.setNext block 0
      some (h.setPrev block 0)
    -- 3+ ele 3 end
    else if block ≠ root ∧ h.prev prevBlock ≠ 0 ∧ nextBlock = 0 then
      some ((h.setNext prevBlock 0).setPrev block 0)
    else some h

def push (h : Heap) (block : Nat) : Heap :=
  let size := h.getSize block
  if size = minBlockSize then h.pushMinBlock block
  else
    let i := getIndex size
    let root := h.segList i
    if root = 0 then ((h.setPrev block 0).setNext block 0).setSegList i block
    else
      let h := h.setPrev root block
      let h := h.setNext block root
      let h := h.setPrev block 0
      h.setSegList i block

/-! ## Coalescing and extending -/

/-- The block before `block`: two words back if it is of minimum size, by its footer
otherwise. -/
def prevBlockOf (h : Heap) (block : Nat) (c : Bool) : Nat :=
  if c then block - 2 * wsize else h.findPrev block

def coalesceBlock (h : Heap) (block : Nat) : Option (Nat × Heap) :=
  let nextBlock := h.findNext block
  let nextSize := h.getSize nextBlock
  let size := h.getSize block
  let c := h.getPrevMin block
  let tmp := block - wsize
  if h.word tmp = 0x1 ∧ tmp = h.heapStart ∧ h.header nextBlock ≠ 0x1 then
    if !h.getAlloc nextBlock then do
      let h ← h.pop nextBlock
      let h := h.writeBlock block (wadd size nextSize) (h.getPrevMin block) (h.getPrevAlloc block) false
      some (block, h.push block)
    else some (block, h.push block)
  else
    let nextNext := h.findNext nextBlock
    let nnextValid := h.header nextNext ≠ 0x1
    -- case 1: Allocated | just_freed | Allocated
    if h.getPrevAlloc block ∧ h.getAlloc nextBlock then some (block, h.push block)
    -- case 2: Allocated | just_freed | Free
    else if h.getPrevAlloc block ∧ !h.getAlloc nextBlock then do
      let h ← h.pop nextBlock
      let h := h.writeBlock block (wadd size nextSize) (h.getPrevMin block) (h.getPrevAlloc block) false
      let h := h.push block
      let h := if nnextValid ∧ h.getPrevMin nextNext then
        h.setWord nextNext (clearMask (h.header nextNext) prevMinMask) else h
      let h := if nextBlock = h.heapEnd then { h with heapEnd := block } else h
      some (block, h)
    -- case 3: Free | just_freed | Allocated
    else if !h.getPrevAlloc block ∧ h.getAlloc nextBlock then
      let prevBlock := h.prevBlockOf block c
      if prevBlock = 0 then none
      else do
        let prevSize := h.getSize prevBlock
        let h := if h.getPrevMin nextBlock then
          h.setWord nextBlock (clearMask (h.header nextBlock) prevMinMask) else h
        let h ← h.pop prevBlock
        let h := h.writeBlock prevBlock (wadd prevSize size) (h.getPrevMin prevBlock)
          (h.getPrevAlloc prevBlock) false
        some (prevBlock, h.push prevBlock)
    -- case 4: Free | just_freed | Free
    else
      let prevBlock := h.prevBlockOf block c
      if prevBlock = 0 then none
      else do
        let prevSize := h.getSize prevBlock
        let h ← h.pop prevBlock
        let h ← h.pop nextBlock
        let h := h.writeBlock prevBlock (wadd (wadd prevSize size) nextSize) (h.getPrevMin prevBlock)
          (h.getPrevAlloc prevBlock) false
        let h := h.push prevBlock
        let h := if nnextValid ∧ h.getPrevMin nextNext then
          h.setWord nextNext (clearMask (h.header nextNext) prevMinMask) else h
        let h := if nextBlock = h.heapEnd ∨ block = h.heapEnd then { h with heapEnd := prevBlock } else h
        some (prevBlock, h)

/-- `mem_sbrk` of `memlib.c`: the old break and the extended heap, or `none` for
`(void *)-1`.  The argument is an `intptr_t`, so a size from `2 ^ 63` on is negative. -/
def memSbrk (h : Heap) (granted : Bool) (incr : Nat) : Option (Nat × Heap) :=
  if incr ≥ 2 ^ 63 then none
  else if h.brk + incr > h.maxAddr then none
  else if !granted then none
  else some (h.brk, { h with brk := h.brk + incr })

/-- The block returned is 0 for `NULL`. -/
def extendHeap (h : Heap) (granted : Bool) (size : Nat) : Option (Nat × Heap) :=
  let size := roundUp size dsize
  match h.memSbrk granted size with
  | none => some (0, h)
  | some (bp, h) =>
      let block := payloadToHeader bp
      -- no ele
      if h.word (block - wsize) = 0x1 ∧ h.word block = 0x1 then
        let h := h.writeBlock block size false true false
        let h := h.push block
        let h := { h with heapEnd := block }
        some (block, h.writeEpilogue (h.findNext block))
      -- any ele
      else if h.getAlloc h.heapEnd then
        let h := if h.getSize h.heapEnd = minBlockSize then h.writeBlock block size true true false
          else h.writeBlock block size false true false
        let h := h.push block
        let h := { h with heapEnd := block }
        some (block, h.writeEpilogue (h.findNext block))
      else do
        let h ← h.pop h.heapEnd
        let h := h.writeBlock h.heapEnd (wadd size (h.getSize h.heapEnd)) (h.getPrevMin h.heapEnd)
          (h.getPrevAlloc h.heapEnd) false
        let h := h.push h.heapEnd
        some (h.heapEnd, h.writeEpilogue (h.findNext h.heapEnd))

/-! ## Finding and splitting -/

/-- The inner loop of `find_fit`, started on a block: the first block of the list that
is large enough, 0 at the end of the list. -/
def scanList (h : Heap) (asize : Nat) : Nat → Nat → Option Nat
  | 0, _ => none
  | fuel + 1, tmp =>
      if asize ≤ h.getSize tmp then some tmp
      else if h.next tmp = 0 then some 0
      else h.scanList asize fuel (h.next tmp)

/-- The outer loop of `find_fit` over the classes still to visit. -/
def scanClasses (h : Heap) (asize : Nat) : List (Fin numClasses) → Option Nat
  | [] => some 0
  | i :: rest =>
      let root := h.segList i
      if root = 0 then h.scanClasses asize rest
      else
        match h.scanList asize wordMod root with
        | none => none
        | some tmp => if tmp = 0 then h.scanClasses asize rest else some tmp

/-- The first nonempty bucket's first block, 0 if all buckets are empty. -/
def firstMinBlock (h : Heap) : Nat :=
  (((List.finRange numMinLists).map h.minList).find? (· ≠ 0)).getD 0

def findFit (h : Heap) (asize : Nat) : Option Nat :=
  if asize = minBlockSize ∧ h.firstMinBlock ≠ 0 then some h.firstMinBlock
  else h.scanClasses asize ((List.finRange numClasses).drop (getIndex asize))

def mmInit (h : Heap) (os : SbrkAnswers) : Option (Bool × Heap) :=
  let start := h.memSbrk os.prologue (2 * wsize)
  let clear := fun h : Heap => { h with segList := fun _ => 0, minList := fun _ => 0 }
  match start with
  | none => some (false, clear h)
  | some (start, h) =>
      let h := clear h
      let h := h.setWord start (pack 0 false false true)
      let h := h.setWord (start + wsize) (pack 0 false false true)
      let h := { h with heapStart := start + wsize }
      let h := { h with heapEnd := h.heapStart }
      match h.extendHeap os.chunk chunksize with
      | none => none
      | some (block, h) => some (block ≠ 0, h)

def splitBlock (h : Heap) (block asize : Nat) : Option Heap :=
  let blockSize := h.getSize block
  let isLastBlock := h.header (h.findNext block) = 0x1
  if wsub blockSize asize ≥ minBlockSize then do
    let h ← h.pop block
    let h := h.writeBlock block asize (h.getPrevMin block) (h.getPrevAlloc block) true
    let freeBlock := h.findNext block
    let h := if asize = dsize then h.writeBlock freeBlock (wsub blockSize asize) true true false
      else h.writeBlock freeBlock (wsub blockSize asize) false true false
    let h := h.push freeBlock
    let tmp := h.findNext freeBlock
    let h := if h.header tmp ≠ 0x1 ∧ wsub blockSize asize = dsize then
        h.setWord tmp (h.header tmp ||| prevMinMask)
      else h.setWord tmp (clearMask (h.header tmp) prevMinMask)
    some (if isLastBlock then { h with heapEnd := freeBlock } else h)
  else do
    let h ← h.pop block
    let h := h.writeBlock block blockSize (h.getPrevMin block) (h.getPrevAlloc block) true
    let blockNext := h.findNext block
    let h := h.setWord blockNext (h.header blockNext ||| prevAllocMask)
    let h := if blockSize = minBlockSize then
      h.setWord blockNext (h.header blockNext ||| prevMinMask) else h
    some (if isLastBlock then { h with heapEnd := block } else h)

/-! ## The interface -/

/-- `heap_start == NULL` makes `malloc` initialise the heap; its result is not looked at. -/
def ensureInit (h : Heap) (os : SbrkAnswers) : Option Heap :=
  if h.heapStart = 0 then (h.mmInit os).map Prod.snd else some h

def malloc (h : Heap) (os : SbrkAnswers) (size : Nat) : Option (Nat × Heap) := do
  let h ← h.ensureInit os
  if size = 0 then some (0, h)
  else
    let asize := adjustedSize size
    let block ← h.findFit asize
    if block = 0 then
      let (block, h) ← h.extendHeap os.extend (max asize chunksize)
      if block = 0 then some (0, h)
      else
        let h ← h.splitBlock block asize
        some (headerToPayload block, h)
    else
      let h ← h.splitBlock block asize
      some (headerToPayload block, h)

def free (h : Heap) (bp : Nat) : Option Heap :=
  if bp = 0 then some h
  else
    let block := payloadToHeader bp
    let size := h.getSize block
    let h := h.writeBlock block size (h.getPrevMin block) (h.getPrevAlloc block) false
    let blockNext := h.findNext block
    let h := h.setWord blockNext (clearMask (h.header blockNext) prevAllocMask)
    (h.coalesceBlock block).map Prod.snd

def realloc (h : Heap) (os : SbrkAnswers) (ptr size : Nat) : Option (Nat × Heap) :=
  let block := payloadToHeader ptr
  if size = 0 then (h.free ptr).map fun h => (0, h)
  else if ptr = 0 then h.malloc os size
  else do
    let (newptr, h) ← h.malloc os size
    if newptr = 0 then some (0, h)
    else
      let copysize := h.getPayloadSize block
      let copysize := if size < copysize then size else copysize
      let h := { h with mem := copy h.mem newptr ptr copysize }
      let h ← h.free ptr
      some (newptr, h)

def calloc (h : Heap) (os : SbrkAnswers) (elements size : Nat) : Option (Nat × Heap) :=
  let asize := wmul elements size
  if elements = 0 then some (0, h)
  -- Multiplication overflowed
  else if asize / elements ≠ size then some (0, h)
  else do
    let (bp, h) ← h.malloc os asize
    if bp = 0 then some (0, h)
    else some (bp, { h with mem := fill h.mem bp 0 asize })

end Heap

end SystemsLabs.Malloc
