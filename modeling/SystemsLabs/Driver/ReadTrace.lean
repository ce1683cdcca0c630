/-
# SystemsLabs.Driver.ReadTrace -- `read_trace`

A trace file is read with `fscanf`: the header, then a word and the numbers of each request.  What a
conversion does not match is not assigned, and the variable keeps its value.  `none` is what C leaves
undefined: a variable that was never assigned, a store outside an array, a number too large for its type.
-/
import SystemsLabs.Driver.Evaluate
import SystemsLabs.Theory.Scanning

namespace SystemsLabs.Driver

set_option autoImplicit false

open Theory.Scanning

/-- `MAXLINE`. -/
abbrev maxline : Nat := 1024

/-- How `read_trace` ends the program. -/
inductive TraceError where
  /-- "malloc %d failed in read_trace" -/
  | noMemory (which : Nat)
  /-- "Could not open %s in read_trace" -/
  | notOpened
  /-- "%s: weight can only be in {0, 1, 2 3}" -/
  | weight
  /-- "Bogus type character (%c) in tracefile %s\n" -/
  | bogus (type : Char)
  /-- `assert(max_index == trace->num_ids - 1)` -/
  | ids
  /-- `assert(trace->num_ops == op_index)` -/
  | requests
deriving DecidableEq, Repr

/-- `trace_t` -/
structure TraceRecord extends Trace where
  filename : List Char
  dataBytes : UInt64
  numIds : Int
  numOps : Int
  weight : Int
deriving DecidableEq, Repr

/-- The variables of the loop; `op_index` is the number of requests stored. -/
structure TraceReader where
  tracefile : List Char
  index : Int
  size : Option UInt64
  maxIndex : Int
  ops : List TraceOp
deriving DecidableEq, Repr

namespace TraceReader

/-- A store to `trace->ops[op_index]`. -/
def push (numOps : Int) (op : TraceOp) (s : TraceReader) : Option TraceReader :=
  if s.ops.length < numOps then some { s with ops := s.ops ++ [op] } else none

/-- `fscanf(tracefile, "%u %lu", &index, &size)` -/
def scanRequest (s : TraceReader) : Option TraceReader := do
  let (index, tracefile) ← scanUnsigned 32 s.tracefile
  match index with
  | none => some { s with tracefile := tracefile }
  | some index => do
      let (size, tracefile) ← scanUnsigned 64 tracefile
      some { s with
        tracefile := tracefile, index := index.toInt
        size := match size with
          | none => s.size
          | some size => some (UInt64.ofBitVec size) }

/-- A request that allocates. -/
def readAllocation (numOps : Int) (type : RequestType) (s : TraceReader) : Option TraceReader := do
  let s ← s.scanRequest
  let size ← s.size
  let s ← s.push numOps ⟨type, s.index, size⟩
  some { s with maxIndex := if s.index > s.maxIndex then s.index else s.maxIndex }

/-- `size` is not assigned where a payload is freed, and never read; it is 0 here. -/
def readFree (numOps : Int) (s : TraceReader) : Option TraceReader := do
  let (index, tracefile) ← scanUnsigned 32 s.tracefile
  let index := match index with
    | none => s.index
    | some index => index.toInt
  { s with tracefile := tracefile, index := index }.push numOps ⟨.free, index, 0⟩

def readRequest (numOps : Int) (type : Char) (s : TraceReader) : Option (Except TraceError TraceReader) :=
  match type with
  | 'a' => (s.readAllocation numOps .alloc).map .ok
  | 'r' => (s.readAllocation numOps .realloc).map .ok
  | 'f' => (s.readFree numOps).map .ok
  | _ => some (.error (.bogus type))

/-- The loop of `read_trace`. -/
def readRequests (numOps : Int) : Nat → TraceReader → Option (Except TraceError TraceReader)
  | 0, _ => none
  | fuel + 1, s =>
      match scanWord s.tracefile with
      | none => some (.ok s)
      | some (type, tracefile) =>
          if type.length < maxline then do
            match ← readRequest numOps (type.headD '\x00') { s with tracefile := tracefile } with
            | .error e => some (.error e)
            | .ok s => if s.ops.length = numOps then some (.ok s) else readRequests numOps fuel s
          else none

end TraceReader

/-- `"%d"`, of a variable that was not assigned before. -/
def readHeaderInt (tracefile : List Char) : Option (Int × List Char) := do
  let (v, tracefile) ← scanSigned 32 tracefile
  let v ← v
  some (v.toInt, tracefile)

/-- What is read after the file is opened.  `granted` says which calls of `malloc` and `calloc` succeed;
none does for a negative number of elements, which is one beyond the address space. -/
def readOpened (granted : Nat → Bool) (filename tracefile : List Char) : Option (Except TraceError TraceRecord) := do
  let (weight, tracefile) ← readHeaderInt tracefile
  let (numIds, tracefile) ← readHeaderInt tracefile
  let (numOps, tracefile) ← readHeaderInt tracefile
  let (dataBytes, tracefile) ← scanSigned 64 tracefile
  let dataBytes ← dataBytes
  -- a `weight_t` is unsigned
  if weight < 0 ∨ weight > 3 then some (.error .weight)
  else if numOps < 0 ∨ granted 2 = false then some (.error (.noMemory 2))
  else if numIds < 0 ∨ granted 3 = false then some (.error (.noMemory 3))
  else if granted 4 = false then some (.error (.noMemory 4))
  else if granted 5 = false then some (.error (.noMemory 5))
  else do
    match ← TraceReader.readRequests numOps (tracefile.length + 1) ⟨tracefile, 0, none, 0, []⟩ with
    | .error e => some (.error e)
    | .ok s =>
        if s.maxIndex ≠ numIds - 1 then some (.error .ids)
        else if numOps ≠ s.ops.length then some (.error .requests)
        else some (.ok
          { ops := s.ops, slots := List.replicate numIds.toNat ⟨0, 0, 0⟩, filename := filename
            dataBytes := UInt64.ofBitVec dataBytes, numIds := numIds, numOps := numOps, weight := weight })

/-- `read_trace`, with the files that `fopen` opens. -/
def readTrace (fopen : List Char → Option (List Char)) (granted : Nat → Bool) (tracedir filename : List Char) :
    Option (Except TraceError TraceRecord) :=
  if granted 1 = false then some (.error (.noMemory 1))
  else if (tracedir ++ filename).length < maxline then
    match fopen (tracedir ++ filename) with
    | none => some (.error .notOpened)
    | some tracefile => readOpened granted (tracedir ++ filename) tracefile
  else none

end SystemsLabs.Driver
