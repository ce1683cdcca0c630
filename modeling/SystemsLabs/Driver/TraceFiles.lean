/-
# SystemsLabs.Driver.TraceFiles -- the format of the trace files

A trace file has a header of four lines, then a line for each request (`TraceRecord.print`).  What
`read_trace` returns is `Readable`, and every readable trace is read back from its file
(`readTrace_print`).  Text behind the last request is not looked at.

An index is bounded from above only: `read_trace` compares the largest one that is allocated, and an
index of a request to free is not looked at.
-/
import SystemsLabs.Driver.ReadTrace
import Mathlib.Data.List.Induction

namespace SystemsLabs.Driver

set_option autoImplicit false

open Theory.Scanning

/-! ## Purpose -/

/-- A line, before the others. -/
def TraceOp.line (op : TraceOp) (rest : List Char) : List Char :=
  match op.type with
  | .alloc => 'a' :: ' ' :: (numeral op.index ++ ' ' :: (numeral op.size.toNat ++ '\n' :: rest))
  | .realloc => 'r' :: ' ' :: (numeral op.index ++ ' ' :: (numeral op.size.toNat ++ '\n' :: rest))
  | .free => 'f' :: ' ' :: (numeral op.index ++ '\n' :: rest)

def printOps (ops : List TraceOp) : List Char := ops.foldr TraceOp.line []

def TraceRecord.print (t : TraceRecord) : List Char :=
  numeral t.weight ++ '\n' :: (numeral t.numIds ++ '\n' :: (numeral t.numOps ++ '\n' ::
    (numeral t.dataBytes.toBitVec.toInt ++ '\n' :: printOps t.ops)))

/-- The largest index that is allocated, or 0. -/
def highest (ops : List TraceOp) : Int := ops.foldl (fun high op => if op.type = .free then high else max high op.index) 0

/-- A request with an `int` for its index. -/
structure TraceOp.Readable (op : TraceOp) : Prop where
  lower : -2 ^ 31 ≤ op.index
  upper : op.index < 2 ^ 31
  free : op.type = .free → op.size = 0

structure TraceRecord.Readable (t : TraceRecord) : Prop where
  short : t.filename.length < maxline
  weight : 0 ≤ t.weight ∧ t.weight ≤ 3
  slots : t.slots = List.replicate t.numIds.toNat ⟨0, 0, 0⟩
  ids : t.numIds = highest t.ops + 1 ∧ t.numIds < 2 ^ 31
  requests : t.numOps = t.ops.length ∧ t.numOps < 2 ^ 31
  ops : ∀ op ∈ t.ops, op.Readable

theorem highest_append (ops : List TraceOp) (op : TraceOp) :
    highest (ops ++ [op]) = if op.type = .free then highest ops else max (highest ops) op.index := by
  simp [highest]

theorem highest_nonneg (ops : List TraceOp) : 0 ≤ highest ops := by
  induction ops using List.reverseRecOn with
  | nil => exact Int.le_refl 0
  | append_singleton ops op ih =>
      rw [highest_append]
      split <;> omega

/-- **Every allocated index is below the number of identifiers.** -/
theorem le_highest {ops : List TraceOp} {op : TraceOp} (member : op ∈ ops) (allocates : op.type ≠ .free) : op.index ≤ highest ops := by
  induction ops using List.reverseRecOn with
  | nil => cases member
  | append_singleton ops last ih =>
      rw [highest_append]
      rcases List.mem_append.mp member with before | here
      · have := ih before
        split <;> omega
      · obtain rfl := List.mem_singleton.mp here
        rw [if_neg allocates]
        exact Int.le_max_right ..

namespace TraceReader

variable {s s' : TraceReader} {numOps : Int} {fuel : Nat} {rest : List Char} {i : Int}

/-! ## What is accepted -/

/-- The variables agree with the requests stored. -/
structure Consistent (numOps : Int) (s : TraceReader) : Prop where
  lower : -2 ^ 31 ≤ s.index
  upper : s.index < 2 ^ 31
  maxIndex : s.maxIndex = highest s.ops
  ops : ∀ op ∈ s.ops, op.Readable
  room : s.ops.length ≤ numOps

theorem Consistent.start (tracefile : List Char) (positive : 0 ≤ numOps) : Consistent numOps ⟨tracefile, 0, none, 0, []⟩ :=
  ⟨(by decide : (-2 ^ 31 : Int) ≤ 0), (by decide : (0 : Int) < 2 ^ 31), rfl, fun _ member => (by cases member), positive⟩

theorem push_eq {op : TraceOp} (pushed : s.push numOps op = some s') : s' = { s with ops := s.ops ++ [op] } ∧ s.ops.length < numOps := by
  rw [push] at pushed
  split at pushed
  · next room => exact ⟨(Option.some.inj pushed).symm, room⟩
  · cases pushed

/-- The conversions touch what they assign. -/
theorem scanRequest_eq (scanned : s.scanRequest = some s') (lower : -2 ^ 31 ≤ s.index) (upper : s.index < 2 ^ 31) :
    s'.ops = s.ops ∧ s'.maxIndex = s.maxIndex ∧ -2 ^ 31 ≤ s'.index ∧ s'.index < 2 ^ 31 := by
  obtain ⟨⟨index, tracefile⟩, -, scanned⟩ := Option.bind_eq_some_iff.mp scanned
  cases index with
  | none =>
      obtain rfl := Option.some.inj scanned
      exact ⟨rfl, rfl, lower, upper⟩
  | some index =>
      obtain ⟨⟨size, tracefile⟩, -, scanned⟩ := Option.bind_eq_some_iff.mp scanned
      obtain rfl := Option.some.inj scanned
      exact ⟨rfl, rfl, BitVec.le_toInt index, BitVec.toInt_lt⟩

theorem Consistent.stored {op : TraceOp} (consistent : Consistent numOps s) (same : s'.ops = s.ops ++ [op])
    (index : s'.index = op.index) (lower : -2 ^ 31 ≤ op.index) (upper : op.index < 2 ^ 31) (free : op.type = .free → op.size = 0)
    (maxIndex : s'.maxIndex = if op.type = .free then s.maxIndex else max s.maxIndex op.index) (room : s.ops.length < numOps) :
    Consistent numOps s' := by
  refine ⟨index ▸ lower, index ▸ upper, ?_, ?_, ?_⟩
  · rw [same, highest_append, maxIndex, consistent.maxIndex]
  · rw [same]
    intro other member
    rcases List.mem_append.mp member with before | here
    · exact consistent.ops other before
    · obtain rfl := List.mem_singleton.mp here
      exact ⟨lower, upper, free⟩
  · rw [same, List.length_append, List.length_singleton]
    omega

theorem Consistent.readAllocation {type : RequestType} (consistent : Consistent numOps s) (allocates : type ≠ .free)
    (read : s.readAllocation numOps type = some s') : Consistent numOps s' := by
  obtain ⟨scanned, isScanned, read⟩ := Option.bind_eq_some_iff.mp read
  obtain ⟨size, -, read⟩ := Option.bind_eq_some_iff.mp read
  obtain ⟨pushed, isPushed, read⟩ := Option.bind_eq_some_iff.mp read
  obtain rfl := Option.some.inj read
  obtain ⟨ops, maxIndex, lower, upper⟩ := scanRequest_eq isScanned consistent.lower consistent.upper
  obtain ⟨rfl, room⟩ := push_eq isPushed
  have same : scanned.ops ++ [⟨type, scanned.index, size⟩] = s.ops ++ [⟨type, scanned.index, size⟩] := by rw [ops]
  refine consistent.stored same rfl lower upper (fun free => absurd free allocates) ?_ (by rwa [ops] at room)
  rw [if_neg allocates, ← maxIndex]
  dsimp only
  split <;> omega

theorem Consistent.readFree (consistent : Consistent numOps s) (read : s.readFree numOps = some s') : Consistent numOps s' := by
  obtain ⟨⟨index, tracefile⟩, -, read⟩ := Option.bind_eq_some_iff.mp read
  obtain ⟨rfl, room⟩ := push_eq read
  cases index with
  | none => exact consistent.stored rfl rfl consistent.lower consistent.upper (fun _ => rfl) rfl room
  | some index => exact consistent.stored rfl rfl (BitVec.le_toInt index) BitVec.toInt_lt (fun _ => rfl) rfl room

theorem Consistent.readRequest {type : Char} (consistent : Consistent numOps s) (read : s.readRequest numOps type = some (.ok s')) :
    Consistent numOps s' := by
  unfold TraceReader.readRequest at read
  split at read
  · obtain ⟨_, read, same⟩ := Option.map_eq_some_iff.mp read
    cases same
    exact consistent.readAllocation (by decide) read
  · obtain ⟨_, read, same⟩ := Option.map_eq_some_iff.mp read
    cases same
    exact consistent.readAllocation (by decide) read
  · obtain ⟨_, read, same⟩ := Option.map_eq_some_iff.mp read
    cases same
    exact consistent.readFree read
  · cases read

theorem Consistent.readRequests (consistent : Consistent numOps s) (read : readRequests numOps fuel s = some (.ok s')) :
    Consistent numOps s' := by
  induction fuel generalizing s with
  | zero => cases read
  | succ fuel ih =>
      rw [TraceReader.readRequests] at read
      split at read
      · obtain rfl := Except.ok.inj (Option.some.inj read)
        exact consistent
      · next type tracefile _ =>
        split at read
        · obtain ⟨outcome, isOutcome, read⟩ := Option.bind_eq_some_iff.mp read
          cases outcome with
          | error e => cases read
          | ok next =>
              have moved : Consistent numOps { s with tracefile := tracefile } := ⟨consistent.lower, consistent.upper,
                consistent.maxIndex, consistent.ops, consistent.room⟩
              have consistent' := moved.readRequest isOutcome
              dsimp only at read
              split at read
              · obtain rfl := Except.ok.inj (Option.some.inj read)
                exact consistent'
              · exact ih consistent' read
        · cases read

/-! ## Reading back -/

theorem Ends.space {c : Char} (space : isSpace c) : Ends Char.isDigit (c :: rest) := by
  intro x here
  obtain rfl := Option.some.inj here
  by_contra digit
  rw [not_isSpace_of_isDigit (by simpa using digit)] at space
  cases space

theorem scanUnsigned_line {w : Nat} {c : Char} (small : i.natAbs < 2 ^ w) (space : isSpace c) :
    scanUnsigned w (' ' :: (numeral i ++ c :: rest)) = some (some (BitVec.ofInt w i), c :: rest) :=
  have spaces : ∀ c ∈ [' '], isSpace c := by simp [isSpace]
  scanUnsigned_numeral spaces (Ends.space space) small

theorem toInt_ofInt_32 (lower : -2 ^ 31 ≤ i) (upper : i < 2 ^ 31) : (BitVec.ofInt 32 i).toInt = i := by
  rw [BitVec.toInt_ofInt, Int.bmod_eq_of_le (by omega) (by omega)]

theorem scanRequest_line {size : UInt64} (lower : -2 ^ 31 ≤ i) (upper : i < 2 ^ 31)
    (text : s.tracefile = ' ' :: (numeral i ++ ' ' :: (numeral size.toNat ++ '\n' :: rest))) :
    s.scanRequest = some { s with tracefile := '\n' :: rest, index := i, size := some size } := by
  have value : UInt64.ofBitVec (BitVec.ofInt 64 (size.toNat : Int)) = size := by
    rw [BitVec.ofInt_natCast]
    exact UInt64.ofNat_toNat
  have fits : (size.toNat : Int).natAbs < 2 ^ 64 := by
    rw [Int.natAbs_natCast]
    exact size.toNat_lt
  rw [scanRequest, text, scanUnsigned_line (by omega) (by decide)]
  simp only [Option.bind_eq_bind, Option.bind_some]
  rw [scanUnsigned_line fits (by decide), toInt_ofInt_32 lower upper, Option.bind_some]
  dsimp only
  rw [value]

theorem readAllocation_line (s : TraceReader) (type : RequestType) (size : UInt64) (rest : List Char) (lower : -2 ^ 31 ≤ i)
    (upper : i < 2 ^ 31) (room : s.ops.length < numOps) :
    ∃ s', { s with tracefile := ' ' :: (numeral i ++ ' ' :: (numeral size.toNat ++ '\n' :: rest)) }.readAllocation numOps type = some s' ∧
      s'.tracefile = '\n' :: rest ∧ s'.ops = s.ops ++ [⟨type, i, size⟩] := by
  rw [readAllocation, scanRequest_line lower upper rfl]
  simp only [Option.bind_eq_bind, Option.bind_some, push, if_pos room]
  exact ⟨_, rfl, rfl, rfl⟩

theorem readFree_line (s : TraceReader) (rest : List Char) (lower : -2 ^ 31 ≤ i) (upper : i < 2 ^ 31) (room : s.ops.length < numOps) :
    ∃ s', { s with tracefile := ' ' :: (numeral i ++ '\n' :: rest) }.readFree numOps = some s' ∧ s'.tracefile = '\n' :: rest ∧
      s'.ops = s.ops ++ [⟨.free, i, 0⟩] := by
  rw [readFree, scanUnsigned_line (by omega) (by decide)]
  simp only [Option.bind_eq_bind, Option.bind_some, toInt_ofInt_32 lower upper, push, if_pos room]
  exact ⟨_, rfl, rfl, rfl⟩

/-- One iteration. -/
theorem readRequests_next {type : Char} (word : scanWord s.tracefile = some ([type], rest))
    (read : { s with tracefile := rest }.readRequest numOps type = some (.ok s')) :
    readRequests numOps (fuel + 1) s = if s'.ops.length = numOps then some (.ok s') else readRequests numOps fuel s' := by
  rw [readRequests, word]
  dsimp only
  rw [List.length_singleton, if_pos (by decide), List.headD_cons, read]
  rfl

/-- **The line of a request is read back**, after white space. -/
theorem readRequests_line {op : TraceOp} {space : List Char} (fuel : Nat) (readable : op.Readable) (spaces : ∀ c ∈ space, isSpace c)
    (text : s.tracefile = space ++ op.line rest) (room : s.ops.length < numOps) :
    ∃ s', readRequests numOps (fuel + 1) s = (if s'.ops.length = numOps then some (.ok s') else readRequests numOps fuel s') ∧
      s'.tracefile = '\n' :: rest ∧ s'.ops = s.ops ++ [op] := by
  have word (type : Char) (more : List Char) (visible : isSpace type = false) :
      scanWord (space ++ type :: ' ' :: more) = some ([type], ' ' :: more) :=
    have all : ∀ c ∈ [type], isSpace c = false := by simpa using visible
    scanWord_word spaces (by simp) all fun x here => by
      obtain rfl := Option.some.inj here
      rfl
  obtain ⟨type, index, size⟩ := op
  obtain ⟨lower, upper, free⟩ := readable
  cases type with
  | alloc =>
      obtain ⟨s', read, left, ops⟩ := readAllocation_line s .alloc size rest lower upper room
      exact ⟨s', readRequests_next (text ▸ word 'a' _ rfl) (by rw [readRequest, read]; rfl), left, ops⟩
  | realloc =>
      obtain ⟨s', read, left, ops⟩ := readAllocation_line s .realloc size rest lower upper room
      exact ⟨s', readRequests_next (text ▸ word 'r' _ rfl) (by rw [readRequest, read]; rfl), left, ops⟩
  | free =>
      obtain rfl : size = 0 := free rfl
      obtain ⟨s', read, left, ops⟩ := readFree_line s rest lower upper room
      exact ⟨s', readRequests_next (text ▸ word 'f' _ rfl) (by rw [readRequest, read]; rfl), left, ops⟩

theorem readRequests_printOps {ops : List TraceOp} {space : List Char} (readable : ∀ op ∈ ops, op.Readable)
    (spaces : ∀ c ∈ space, isSpace c) (text : s.tracefile = space ++ printOps ops) (count : (s.ops.length + ops.length : Nat) = numOps)
    (enough : ops.length < fuel) : ∃ s', readRequests numOps fuel s = some (.ok s') ∧ s'.ops = s.ops ++ ops := by
  induction ops generalizing s space fuel with
  | nil =>
      obtain ⟨fuel, rfl⟩ : ∃ n, fuel = n + 1 := ⟨fuel - 1, by omega⟩
      rw [printOps, List.foldr_nil, List.append_nil] at text
      rw [readRequests, text, scanWord_space spaces]
      exact ⟨s, rfl, (List.append_nil _).symm⟩
  | cons op ops ih =>
      obtain ⟨fuel, rfl⟩ : ∃ n, fuel = n + 1 := ⟨fuel - 1, by omega⟩
      rw [List.length_cons] at count enough
      obtain ⟨first, others⟩ := List.forall_mem_cons.mp readable
      have room : (s.ops.length : Int) < numOps := by omega
      obtain ⟨next, read, left, stored⟩ := readRequests_line fuel first spaces text room
      have length : next.ops.length = s.ops.length + 1 := by rw [stored, List.length_append, List.length_singleton]
      rw [read]
      split
      · next last =>
        obtain rfl : ops = [] := List.length_eq_zero_iff.mp (by omega)
        exact ⟨next, rfl, stored⟩
      · have newline : ∀ c ∈ ['\n'], isSpace c := by simp [isSpace]
        have left' : next.tracefile = ['\n'] ++ printOps ops := left
        have count' : ((next.ops.length + ops.length : Nat) : Int) = numOps := by omega
        have enough' : ops.length < fuel := by omega
        obtain ⟨s', read', stored'⟩ := ih others newline left' count' enough'
        exact ⟨s', read', by rw [stored', stored, List.append_assoc, List.singleton_append]⟩

end TraceReader

/-! ## The file -/

section file

variable {fopen : List Char → Option (List Char)} {granted : Nat → Bool} {tracedir filename file rest : List Char}
  {t : TraceRecord} {v : Int} {space : List Char}

theorem readHeaderInt_range (read : readHeaderInt file = some (v, rest)) : -2 ^ 31 ≤ v ∧ v < 2 ^ 31 := by
  obtain ⟨⟨v, tracefile⟩, -, read⟩ := Option.bind_eq_some_iff.mp read
  obtain ⟨v, rfl, read⟩ := Option.bind_eq_some_iff.mp read
  cases read
  exact ⟨BitVec.le_toInt v, BitVec.toInt_lt⟩

theorem readHeaderInt_line (spaces : ∀ c ∈ space, isSpace c) (lower : -2 ^ 31 ≤ v) (upper : v < 2 ^ 31) :
    readHeaderInt (space ++ (numeral v ++ '\n' :: rest)) = some (v, '\n' :: rest) := by
  rw [readHeaderInt, scanSigned_numeral spaces (TraceReader.Ends.space rfl) lower upper]
  simp [TraceReader.toInt_ofInt_32 lower upper]

theorem readOpened_readable (short : filename.length < maxline) (read : readOpened granted filename file = some (.ok t)) :
    t.Readable ∧ t.filename = filename := by
  obtain ⟨⟨weight, _⟩, -, afterWeight⟩ := Option.bind_eq_some_iff.mp read
  obtain ⟨⟨numIds, _⟩, isIds, afterIds⟩ := Option.bind_eq_some_iff.mp afterWeight
  obtain ⟨⟨numOps, _⟩, isOps, afterOps⟩ := Option.bind_eq_some_iff.mp afterIds
  obtain ⟨⟨_, tracefile⟩, -, afterData⟩ := Option.bind_eq_some_iff.mp afterOps
  obtain ⟨dataBytes, rfl, body⟩ := Option.bind_eq_some_iff.mp afterData
  clear read afterWeight afterIds afterOps afterData
  iterate 5
    split at body
    · cases body
  next inRange opsGranted idsGranted _ _ =>
  obtain ⟨outcome, isOutcome, done⟩ := Option.bind_eq_some_iff.mp body
  cases outcome with
  | error e => cases done
  | ok s =>
      dsimp only at done
      iterate 2
        split at done
        · cases done
      next sameIds sameOps =>
      obtain rfl := Except.ok.inj (Option.some.inj done)
      have start := TraceReader.Consistent.start tracefile (show 0 ≤ numOps by omega)
      have consistent := start.readRequests isOutcome
      have high := consistent.maxIndex
      have isWeight : 0 ≤ weight ∧ weight ≤ 3 := by omega
      have ids : numIds = highest s.ops + 1 := by omega
      exact ⟨⟨short, isWeight, rfl, ⟨ids, (readHeaderInt_range isIds).2⟩, ⟨not_not.mp sameOps, (readHeaderInt_range isOps).2⟩,
        consistent.ops⟩, rfl⟩

theorem length_le_printOps (ops : List TraceOp) : ops.length ≤ (printOps ops).length := by
  induction ops with
  | nil => exact Nat.le_refl 0
  | cons op ops ih =>
      change ops.length + 1 ≤ (op.line (printOps ops)).length
      unfold TraceOp.line
      split <;> simp <;> omega

theorem readOpened_print (readable : t.Readable) (memory : ∀ i, granted i = true) :
    readOpened granted t.filename t.print = some (.ok t) := by
  obtain ⟨short, weight, slots, ids, requests, ops⟩ := readable
  have newline : ∀ c ∈ ['\n'], isSpace c := by simp [isSpace]
  have empty : ∀ c ∈ ([] : List Char), isSpace c := by simp
  have positive := highest_nonneg t.ops
  have data : scanSigned 64 ('\n' :: (numeral t.dataBytes.toBitVec.toInt ++ '\n' :: printOps t.ops)) =
      some (some t.dataBytes.toBitVec, '\n' :: printOps t.ops) := by
    have ends : Ends Char.isDigit ('\n' :: printOps t.ops) := TraceReader.Ends.space rfl
    have read := scanSigned_numeral newline ends (BitVec.le_toInt t.dataBytes.toBitVec) BitVec.toInt_lt
    rwa [BitVec.ofInt_toInt] at read
  have header (v : Int) (rest : List Char) (lower : -2 ^ 31 ≤ v) (upper : v < 2 ^ 31) :
      readHeaderInt ('\n' :: (numeral v ++ '\n' :: rest)) = some (v, '\n' :: rest) := readHeaderInt_line newline lower upper
  have first : readHeaderInt t.print = some (t.weight, '\n' :: (numeral t.numIds ++ '\n' :: (numeral t.numOps ++ '\n' ::
      (numeral t.dataBytes.toBitVec.toInt ++ '\n' :: printOps t.ops)))) := readHeaderInt_line empty (by omega) (by omega)
  obtain ⟨s, done, stored⟩ : ∃ s, TraceReader.readRequests t.numOps (('\n' :: printOps t.ops).length + 1)
      ⟨'\n' :: printOps t.ops, 0, none, 0, []⟩ = some (.ok s) ∧ s.ops = [] ++ t.ops := by
    have count : ((0 + t.ops.length : Nat) : Int) = t.numOps := by omega
    have enough : t.ops.length < ('\n' :: printOps t.ops).length + 1 := by
      have := length_le_printOps t.ops
      rw [List.length_cons]
      omega
    exact TraceReader.readRequests_printOps ops newline rfl count enough
  have consistent := (TraceReader.Consistent.start ('\n' :: printOps t.ops) (show 0 ≤ t.numOps by omega)).readRequests done
  have high := consistent.maxIndex
  rw [List.nil_append] at stored
  rw [stored] at high
  rw [readOpened, first]
  simp only [Option.bind_eq_bind, Option.bind_some, header _ _ (show -2 ^ 31 ≤ t.numIds by omega) ids.2,
    header _ _ (show -2 ^ 31 ≤ t.numOps by omega) requests.2, data]
  rw [if_neg (by omega), if_neg (by simp [memory]; omega), if_neg (by simp [memory]; omega), if_neg (by simp [memory]),
    if_neg (by simp [memory]), done]
  simp only [Option.bind_some]
  rw [if_neg (by omega), if_neg (by rw [stored]; omega), stored, ← slots]

/-- **`read_trace` returns readable traces only**: what it returns has a weight, as many
requests and identifiers as the header says, and an index below the number of identifiers wherever a
request allocates; and every readable trace is returned for its own file. -/
theorem readTrace_print (memory : ∀ i, granted i = true) (t : TraceRecord) :
    (readTrace fopen granted tracedir filename = some (.ok t) →
      t.Readable ∧ t.filename = tracedir ++ filename ∧ ∀ op ∈ t.ops, op.type ≠ .free → op.index < t.numIds) ∧
    (t.Readable → t.filename = tracedir ++ filename → fopen t.filename = some t.print →
      readTrace fopen granted tracedir filename = some (.ok t)) := by
  constructor
  · intro read
    rw [readTrace] at read
    split at read
    · cases read
    split at read
    · next short =>
      split at read
      · cases read
      · obtain ⟨readable, named⟩ := readOpened_readable short read
        refine ⟨readable, named, fun op member allocates => ?_⟩
        have below := le_highest member allocates
        have ids := readable.ids.1
        omega
    · cases read
  · intro readable named opened
    rw [readTrace, if_neg (by simp [memory]), ← named, if_pos readable.short, opened]
    exact readOpened_print readable memory

/-- The trace of the documentation, where a payload is also freed that never was allocated. -/
def shortTrace : TraceRecord where
  ops := [⟨.alloc, 0, 512⟩, ⟨.alloc, 1, 128⟩, ⟨.realloc, 0, 640⟩, ⟨.alloc, 2, 128⟩, ⟨.free, 1, 0⟩, ⟨.realloc, 0, 768⟩,
    ⟨.free, 0, 0⟩, ⟨.free, -1, 0⟩]
  slots := [⟨0, 0, 0⟩, ⟨0, 0, 0⟩, ⟨0, 0, 0⟩]
  filename := "traces/short.rep".toList
  dataBytes := 896
  numIds := 3
  numOps := 8
  weight := 1

theorem shortTrace_readable : shortTrace.Readable := by
  refine ⟨by decide, by decide, rfl, by decide, by decide, ?_⟩
  have all : ∀ op ∈ shortTrace.ops, -2 ^ 31 ≤ op.index ∧ op.index < 2 ^ 31 ∧ (op.type = .free → op.size = 0) := by decide
  exact fun op member => ⟨(all op member).1, (all op member).2.1, (all op member).2.2⟩

theorem readTrace_print_short :
    readTrace (fun _ => some shortTrace.print) (fun _ => true) "traces/".toList "short.rep".toList = some (.ok shortTrace) :=
  (readTrace_print (fun _ => rfl) shortTrace).2 shortTrace_readable (by decide) rfl

end file

end SystemsLabs.Driver
