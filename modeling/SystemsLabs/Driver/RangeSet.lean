/-
# SystemsLabs.Driver.RangeSet -- the allocated payloads that `mdriver.c` records

`new_range_set`, `add_range` and `remove_range` of `mdriver.c` over an explicit state: the
ranges that were allocated and not yet freed, the head of their doubly linked list, and the
splay tree `lo_tree` of `stree.c`, whose records are the ranges.  As there, a pointer is an
address, `NULL` is 0, and `none` is a call that does not return.

`mem_heap_lo` and `mem_heap_hi` are read at each call; that they are user addresses, in the
lower half of the address space, is a field of `Extent`.
-/
import SystemsLabs.Driver.SplayTree

namespace SystemsLabs.Driver

set_option autoImplicit false

/-- `range_t` -/
structure Range where
  lo : Addr
  hi : Addr
  index : Int
  next : Addr
  prev : Addr
deriving DecidableEq, Repr, Inhabited

/-- `debug_mode_t` -/
inductive DebugMode where
  | none
  | cheap
  | expensive
deriving DecidableEq, Repr

/-- `mem_heap_lo()` and `mem_heap_hi()`. -/
structure Extent where
  lo : Addr
  hi : Addr
  user : hi.toNat < 2 ^ 63
deriving DecidableEq

/-- What `add_range` reports with `malloc_error`. -/
inductive RangeError where
  /-- "Payload address (%p) not aligned to %d bytes" -/
  | notAligned (lo : Addr)
  /-- "Payload (%p:%p) lies outside heap (%p:%p)" -/
  | outsideHeap (lo hi heapLo heapHi : Addr)
  /-- "Payload (%p:%p) overlaps another payload (%p:%p)\n" -/
  | overlaps (lo hi otherLo otherHi : Addr)
deriving DecidableEq, Repr

/-- `ALIGNMENT` -/
abbrev alignment : UInt64 := 16

/-- `(long unsigned)lo` where a `tkey_t` is expected, which is a `long`. -/
def tkey (lo : Addr) : Int := lo.toBitVec.toInt

/-- The live ranges and `range_set_t`. -/
structure RangeSet where
  ranges : AList fun _ : Addr => Range
  list : Addr
  loTree : SplayTree

namespace RangeSet

def newRangeSet : RangeSet := ⟨∅, 0, .treeNew⟩

def setNext (s : RangeSet) (p next : Addr) : Option RangeSet :=
  (s.ranges.lookup p).map fun r => { s with ranges := s.ranges.insert p { r with next := next } }

def setPrev (s : RangeSet) (p prev : Addr) : Option RangeSet :=
  (s.ranges.lookup p).map fun r => { s with ranges := s.ranges.insert p { r with prev := prev } }

/-- The node after `prev` is made `p`, or the head of the list. -/
def linkAfter (s : RangeSet) (prev p : Addr) : Option RangeSet :=
  if prev = 0 then some { s with list := p } else s.setNext prev p

/-- The node before `next`, where there is one, is made `p`. -/
def linkBefore (s : RangeSet) (next p : Addr) : Option RangeSet :=
  if next = 0 then some s else s.setPrev next p

/-! ## `add_range` -/

/-- The tests against the neighbours. -/
def clash (s : RangeSet) (prev next lo hi : Addr) : Option (Option RangeError) := do
  let before ← (if prev = 0 then some none else do
    let r ← s.ranges.lookup prev
    some (if lo ≤ r.hi then some (.overlaps lo hi r.lo r.hi) else none))
  if before ≠ none then some before
  else if next = 0 then some none
  else do
    let r ← s.ranges.lookup next
    some (if hi ≥ r.lo then some (.overlaps lo hi r.lo r.hi) else none)

/-- The range at `p` is filled in and linked, and entered in the tree. -/
def insertRange (s : RangeSet) (prev next lo hi : Addr) (index : Int) (p z : Addr) : Option RangeSet :=
  if p = 0 then none
  else do
    -- nothing reads the range before all its fields are set
    let s := { s with ranges := s.ranges.insert p ⟨lo, hi, index, next, prev⟩ }
    let s ← s.linkAfter prev p
    let s ← s.linkBefore next p
    let (_, tree) ← s.loTree.treeInsert (tkey lo) p z
    some { s with loTree := tree }

/-- The part of `add_range` after the checks of the payload itself. -/
def record (s : RangeSet) (lo hi : Addr) (index : Int) (p z : Addr) : Option (Except RangeError Unit × RangeSet) := do
  let (prev, tree) ← s.loTree.treeFindNearest (tkey lo)
  let s := { s with loTree := tree }
  let next ← (if prev = 0 then some (0 : Addr) else (s.ranges.lookup prev).map Range.next)
  match ← s.clash prev next lo hi with
  | some error => some (.error error, s)
  | none => do
      let s ← s.insertRange prev next lo hi index p z
      some (.ok (), s)

/-- `add_range`, which returns true or reports an error and returns false; `p` and `z` are the
addresses that `malloc` answers for the range and for the node of the tree. -/
def addRange (s : RangeSet) (debugMode : DebugMode) (heap : Extent) (lo : Addr) (size : UInt64) (index : Int)
    (p z : Addr) : Option (Except RangeError Unit × RangeSet) :=
  let hi := lo + size - 1
  -- `assert(size > 0)`
  if size = 0 then none
  else if lo % alignment ≠ 0 then some (.error (.notAligned lo), s)
  else if lo < heap.lo ∨ lo > heap.hi ∨ hi < heap.lo ∨ hi > heap.hi then
    some (.error (.outsideHeap lo hi heap.lo heap.hi), s)
  else if debugMode = .none then some (.ok (), s)
  else s.record lo hi index p z

/-! ## `remove_range` -/

def removeRange (s : RangeSet) (lo : Addr) : Option RangeSet := do
  let (p, tree) ← s.loTree.treeRemove (tkey lo)
  let s := { s with loTree := tree }
  if p = 0 then some s
  else do
    let r ← s.ranges.lookup p
    let s ← s.linkAfter r.prev r.next
    let s ← s.linkBefore r.next r.prev
    some { s with ranges := s.ranges.erase p }

end RangeSet

end SystemsLabs.Driver
