/-
# SystemsLabs.Driver.SparseHeap -- the memory system of `memlib.c`

The memory functions of `memlib.c`, with the emulation of a sparse heap.  Addresses and sizes
are numbers below `2 ^ 64`; `ptrAdd` and `ptrSub` are the arithmetic of pointers.  The pages of
the emulation are numbered from 1 in the order of their addresses, and `NULL` is 0.

An access is an `Option`: `none` is a call that does not return, because it calls `exit` or
`abort` or because a chain of the page table does not end.

A page access of eight bytes near the end of a page also loads what follows the page in memory:
the header of the next one, or the padding after the last one.  `behind` are these bytes.
-/
import Mathlib.Logic.Function.Basic
import SystemsLabs.Theory.ByteMemory

namespace SystemsLabs.Driver

set_option autoImplicit false

open Theory.ByteMemory

/-! ## Constants of `config.h` -/

abbrev maxDenseHeap : Nat := 100 * 2 ^ 20

abbrev maxSparseHeap : Nat := 2 ^ 62

abbrev sparseHeapStart : Nat := 0x2130051300000000

abbrev sparsePageSize : Nat := 2 ^ 10

/-- `HASH_LOAD` -/
abbrev hashLoad : Nat := 10

/-- `sizeof(mem_block_t)` -/
abbrev memBlockSize : Nat := 8 + 8 + sparsePageSize / 8 + sparsePageSize

/-! ## State -/

def ptrAdd (a n : Nat) : Nat := (a + n) % 2 ^ 64

def ptrSub (a b : Nat) : Nat := (a + (2 ^ 64 - b % 2 ^ 64)) % 2 ^ 64

/-- `mem_block_t` -/
structure MemBlock where
  id : Nat
  next : Nat
  initSet : Nat → UInt8
  bytes : Mem

/-- The globals of `memlib.c`, the pages, and the memory outside of the heap; `noCheckUB` is the
build with `NO_CHECK_UB`. -/
structure MemSystem where
  noCheckUB : Bool
  sparse : Bool
  heap : Nat
  memBrk : Nat
  memMaxAddr : Nat
  checkUB : Bool
  nextFreePage : Nat
  numPages : Nat
  numFreePages : Nat
  pageTable : Nat → Nat
  numBuckets : Nat
  pages : Nat → MemBlock
  outside : Mem

namespace MemSystem

def setUBCheck (s : MemSystem) (val : Bool) : MemSystem := if s.noCheckUB then s else { s with checkUB := val }

/-- `mem_init`; `start` is the address that `mmap` answers.  The quotients are computed in
floating point and are not near an integer. -/
def memInit (s : MemSystem) (doSparse : Bool) (start : Nat) : MemSystem :=
  if doSparse then
    let numPages := maxDenseHeap * hashLoad / (memBlockSize * hashLoad + 8)
    let s := { s with
      sparse := true, heap := sparseHeapStart, memBrk := sparseHeapStart,
      memMaxAddr := sparseHeapStart + maxSparseHeap, numPages := numPages, numBuckets := numPages / hashLoad }
    s.setUBCheck true
  else
    { s with
      sparse := false, heap := start, memBrk := start, memMaxAddr := ptrAdd start maxDenseHeap,
      nextFreePage := 0, numPages := 0, pageTable := fun _ => 0, numBuckets := 0 }

/-- `mem_reset_brk`; the pages keep their contents. -/
def memResetBrk (s : MemSystem) : MemSystem :=
  if s.sparse then
    { s with
      pageTable := fun b => if b < s.numBuckets then 0 else s.pageTable b
      nextFreePage := 1, numFreePages := s.numPages, memBrk := s.heap }
  else { s with memBrk := s.heap }

/-- `mem_sbrk` in sparse mode: the old break, or -1. -/
def memSbrk (s : MemSystem) (incr : Int) : Int × MemSystem :=
  if incr < 0 then (-1, s)
  else if ptrAdd s.memBrk incr.toNat > s.memMaxAddr then (-1, s)
  else (s.memBrk, { s with memBrk := ptrAdd s.memBrk incr.toNat })

/-! ## `get_mem` -/

def pageId (addr : Nat) : Nat := ptrSub addr sparseHeapStart / sparsePageSize

def pageStart (id : Nat) : Nat := ptrAdd sparseHeapStart (id * sparsePageSize)

def setBlock (s : MemSystem) (block : Nat) (contents : MemBlock) : MemSystem :=
  { s with pages := Function.update s.pages block contents }

/-- The search in a chain of the page table. -/
def findBlock (s : MemSystem) (id : Nat) : Nat → Nat → Option Nat
  | 0, _ => none
  | fuel + 1, block =>
      if block = 0 then some 0
      else if (s.pages block).id = id then some block
      else findBlock s id fuel (s.pages block).next

/-- A new block for the page, at the head of its chain; its bytes are not cleared. -/
def allocBlock (s : MemSystem) (id b : Nat) : Option (Nat × MemSystem) :=
  if s.numFreePages = 0 then none
  else
    let block := s.nextFreePage
    let s := { s with nextFreePage := s.nextFreePage + 1, numFreePages := s.numFreePages - 1 }
    let cleared := fun i => if i < sparsePageSize / 8 then 0 else (s.pages block).initSet i
    let s := s.setBlock block { s.pages block with id := id, next := s.pageTable b, initSet := cleared }
    some (block, { s with pageTable := Function.update s.pageTable b block })

/-- The loop over the bytes of an access: a write marks them, a read finds them marked. -/
def touch (isWrite checkUB : Bool) : Nat → Nat → Nat → (Nat → UInt8) → Option (Nat → UInt8)
  | 0, _, _, initSet => some initSet
  | size + 1, offsetIdx, offsetBit, initSet =>
      let bit : UInt8 := 1 <<< UInt8.ofNat offsetBit
      let marked := Function.update initSet offsetIdx (initSet offsetIdx ||| bit)
      if ¬ isWrite ∧ checkUB ∧ initSet offsetIdx &&& bit = 0 then none
      else
        let initSet := if isWrite then marked else initSet
        let next := if offsetBit + 1 = 8 then (offsetIdx + 1, 0) else (offsetIdx, offsetBit + 1)
        if next.1 = sparsePageSize / 8 then some initSet
        else touch isWrite checkUB size next.1 next.2 initSet

/-- The block of an address and the offset in it. -/
def getMem (s : MemSystem) (addr size : Nat) (isWrite : Bool) : Option ((Nat × Nat) × MemSystem) := do
  let id := pageId addr
  let b := id % s.numBuckets
  let found ← s.findBlock id (s.numPages + 1) (s.pageTable b)
  let (block, s) ← (if found = 0 then s.allocBlock id b else some (found, s))
  let offset := ptrSub addr (pageStart id)
  let initSet ← (if s.noCheckUB then some (s.pages block).initSet
    else touch isWrite s.checkUB size (offset / 8) (offset % 8) (s.pages block).initSet)
  some ((block, offset), s.setBlock block { s.pages block with initSet := initSet })

/-! ## Accesses -/

section Accesses

variable (behind : MemSystem → Nat → Mem)

/-- `*(uint64_t *)` at an offset in a block. -/
def load (s : MemSystem) (block offset : Nat) : UInt64 :=
  UInt64.ofNat (readLE (fun x =>
    if x < sparsePageSize then (s.pages block).bytes x else behind s block (x - sparsePageSize)) offset 8)

/-- `memcpy` of the low bytes of a value to an offset in a block. -/
def store (s : MemSystem) (block offset len val : Nat) : MemSystem :=
  s.setBlock block { s.pages block with bytes := writeLE (s.pages block).bytes offset len val }

/-- An access to the emulated heap. -/
def Emulated (s : MemSystem) (addr len : Nat) : Prop := s.sparse = true ∧ addr ≥ s.heap ∧ ptrAdd addr len ≤ s.memBrk

instance (s : MemSystem) (addr len : Nat) : Decidable (s.Emulated addr len) :=
  inferInstanceAs (Decidable (_ ∧ _ ∧ _))

/-- The low bytes of a word, where they are not all of it. -/
def lowBytes (rdata : UInt64) (len : Nat) : UInt64 :=
  if len < 8 then rdata &&& ((1 <<< UInt64.ofNat (8 * len)) - 1) else rdata

def memRead (s : MemSystem) (addr len : Nat) : Option (UInt64 × MemSystem) :=
  if s.Emulated addr len then do
    let id := pageId addr
    let ((block, off), s) ← s.getMem addr len false
    let rdata := s.load behind block off
    if id ≠ pageId (ptrSub (ptrAdd addr len) 1) then do
      let offset := ptrSub addr (pageStart id)
      let llen := sparsePageSize - offset
      let rdata := rdata &&& ((1 <<< UInt64.ofNat (8 * llen)) - 1)
      let ((hblock, hoff), s) ← s.getMem (ptrAdd addr llen) (len - llen) false
      let hdata := s.load behind hblock hoff
      some (lowBytes (rdata ||| hdata <<< UInt64.ofNat (8 * llen)) len, s)
    else some (lowBytes rdata len, s)
  else some (lowBytes (UInt64.ofNat (readLE s.outside addr len)) len, s)

def memWrite (s : MemSystem) (addr : Nat) (val : UInt64) (len : Nat) : Option MemSystem :=
  if s.Emulated addr len then do
    let id := pageId addr
    let ((block, off), s) ← s.getMem addr len true
    let offset := ptrSub addr (pageStart id)
    let llen := sparsePageSize - offset
    if llen < len then do
      let s := s.store block off llen val.toNat
      let ulen := len - llen
      let ((hblock, hoff), s) ← s.getMem (ptrAdd addr llen) ulen true
      some (s.store hblock hoff ulen (val.toNat / 256 ^ llen))
    else some (s.store block off len val.toNat)
  else some { s with outside := writeLE s.outside addr len val.toNat }

/-! ## Emulation of `memcpy` and `memset` -/

def copyLoop : Nat → MemSystem → Nat → Nat → Nat → Option MemSystem
  | 0, _, _, _, _ => none
  | fuel + 1, s, dst, src, numBytes =>
      if numBytes ≥ 8 then do
        let (data, s) ← s.memRead behind src 8
        let s ← s.memWrite dst data 8
        copyLoop fuel s (ptrAdd dst 8) (ptrAdd src 8) (numBytes - 8)
      else if numBytes ≠ 0 then do
        let (data, s) ← s.memRead behind src numBytes
        s.memWrite dst data numBytes
      else some s

def memMemcpy (s : MemSystem) (dst src numBytes : Nat) : Option (Nat × MemSystem) :=
  (copyLoop behind (numBytes + 1) s dst src numBytes).map (dst, ·)

def setLoop : Nat → MemSystem → Nat → UInt64 → Nat → Option MemSystem
  | 0, _, _, _, _ => none
  | fuel + 1, s, dst, data, numBytes =>
      if numBytes ≥ 8 then do
        let s ← s.memWrite dst data 8
        setLoop fuel s (ptrAdd dst 8) data (numBytes - 8)
      else if numBytes ≠ 0 then s.memWrite dst data numBytes
      else some s

/-- The word of eight times the low byte of an `int`. -/
def spread (c : UInt32) : UInt64 :=
  let byte := (c &&& 0xFF).toUInt64
  (List.range 8).foldl (fun data i => data ||| byte <<< UInt64.ofNat (8 * i)) 0

def memMemset (s : MemSystem) (dst : Nat) (c : UInt32) (numBytes : Nat) : Option (Nat × MemSystem) :=
  (setLoop (numBytes + 1) s dst (spread c) numBytes).map (dst, ·)

end Accesses

end MemSystem

end SystemsLabs.Driver
