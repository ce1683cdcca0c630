/-
# SystemsLabs.CacheSim.Main -- the simulator from the trace file to the summary

`main` of `csim.c`.  It never sets the counters to zero, so what the stack held before is an
argument.  A run adds to each counter an amount that only depends on its exits (`foldl_count`) and
on the lines that it leaves (`sweep_eq`).
-/
import SystemsLabs.CacheSim.Conservation

namespace SystemsLabs.CacheSim

set_option autoImplicit false

/-! ## Reading the trace -/

/-- The characters up to a newline, `n` of them at most, and what follows. -/
def takeLine : Nat → List Char → List Char × List Char
  | 0, file => ([], file)
  | _, [] => ([], [])
  | n + 1, c :: file =>
      if c = '\n' then ([c], file)
      else
        let (line, rest) := takeLine n file
        (c :: line, rest)

/-- `fgets`: what it reads, and the rest of the file. -/
def fgets (len : Nat) (file : List Char) : Option (List Char × List Char) :=
  if file = [] then none else some (takeLine (len - 1) file)

/-- The contents of the array `instr` after each call of `fgets` that reads something. -/
def instructions : Nat → List Char → List Char → List (List Char)
  | 0, _, _ => []
  | fuel + 1, instr, file =>
      match fgets 30 file with
      | none => []
      | some (line, rest) =>
          -- the rest of the array keeps what it held
          let instr := line ++ '\x00' :: instr.drop (line.length + 1)
          instr :: instructions fuel instr rest

def isSpace (c : Char) : Bool := c ∈ [' ', '\t', '\n', '\x0b', '\x0c', '\r']

def hexDigit (c : Char) : Option Nat :=
  if '0' ≤ c ∧ c ≤ '9' then some (c.toNat - '0'.toNat)
  else if 'a' ≤ c ∧ c ≤ 'f' then some (c.toNat - 'a'.toNat + 10)
  else if 'A' ≤ c ∧ c ≤ 'F' then some (c.toNat - 'A'.toNat + 10)
  else none

/-- `strtoul` for base 16. -/
def strtoul (str : List Char) : BitVec 64 :=
  let str := str.dropWhile isSpace
  let (negative, str) := match str with
    | '-' :: rest => (true, rest)
    | '+' :: rest => (false, rest)
    | _ => (false, str)
  let str := match str with
    | '0' :: x :: d :: rest => if (x = 'x' ∨ x = 'X') ∧ (hexDigit d).isSome then d :: rest else str
    | _ => str
  let value := (str.takeWhile fun c => (hexDigit c).isSome).foldl (fun n c => 16 * n + (hexDigit c).getD 0) 0
  if 2 ^ 64 ≤ value then BitVec.allOnes 64
  else if negative then - BitVec.ofNat 64 value else BitVec.ofNat 64 value

/-- The mode and the address of an instruction that `main` simulates. -/
def record (instr : List Char) : Option (Char × BitVec 64) := do
  let mode ← instr.head?
  if mode = 'S' ∨ mode = 'L' then some (mode, strtoul ((instr.drop 2).takeWhile (· ≠ '\x00')))
  else none

def records (file : List Char) : List (Char × BitVec 64) :=
  (instructions file.length (List.replicate 31 '\x00') file).filterMap record

/-- The value of `-1 << n`, of the type `int`. -/
def shiftedOnes (n : Nat) : BitVec 32 := BitVec.allOnes 32 <<< n

/-- The arguments that `main` computes for `load`.  A shift of an `int` by 32 or more is
undefined. -/
def decode (s b : Nat) (mode : Char) (addr : BitVec 64) : Option Access :=
  if b + s < 32 then
    let maskS := (~~~ shiftedOnes (b + s) ^^^ ~~~ shiftedOnes b).signExtend 64
    let addrSetIndex := (addr &&& maskS) >>> b
    let maskTag := (shiftedOnes (s + b)).signExtend 64
    some ⟨(addrSetIndex.setWidth 32).toNat, (addr &&& maskTag).toInt, mode⟩
  else none

def accesses (s b : Nat) (file : List Char) : Option (List Access) :=
  (records file).mapM fun (mode, addr) => decode s b mode addr

/-! ## `main` -/

/-- The last sweep of `main`, over all lines. -/
def sweep (C : Cache) (stats : Stats) : Stats :=
  C.data.foldl (fun stats set => set.lines.foldl (fun stats L =>
    if L.d then { stats with dirtyBytes := stats.dirtyBytes + C.B } else stats) stats) stats

/-- The counters are values of the type `long`. -/
def Stats.IsLong (stats : Stats) : Prop :=
  ∀ n ∈ [stats.hits, stats.misses, stats.evictions, stats.dirtyBytes, stats.dirtyEvictions],
    - 2 ^ 63 ≤ n ∧ n < 2 ^ 63

instance (stats : Stats) : Decidable stats.IsLong :=
  inferInstanceAs (Decidable (∀ n ∈ [_, _, _, _, _], _))

/-- What `main` passes to `printSummary`, where the stack held `stats` before. -/
def main (s E b : Nat) (file : List Char) (stats : Stats) : Option Stats := do
  let C ← initCache s E b
  let as ← accesses s b file
  let (C, stats) ← C.loads stats as
  let stats := sweep C stats
  let summary := { stats with dirtyEvictions := stats.dirtyEvictions - 1 }
  -- the counters only grow before that, so an overflow shows in the end
  if stats.IsLong ∧ summary.IsLong then some summary else none

/-! ## What a run adds to the counters -/

namespace Exit

def isHit : Exit → Bool
  | .hit _ => true
  | _ => false

def isReplace : Exit → Bool
  | .replace _ => true
  | _ => false

end Exit

namespace Stats

def add (stats gain : Stats) : Stats where
  hits := stats.hits + gain.hits
  misses := stats.misses + gain.misses
  evictions := stats.evictions + gain.evictions
  dirtyBytes := stats.dirtyBytes + gain.dirtyBytes
  dirtyEvictions := stats.dirtyEvictions + gain.dirtyEvictions

theorem add_assoc (a b c : Stats) : (a.add b).add c = a.add (b.add c) := by
  ext <;> exact Int.add_assoc _ _ _

theorem add_right_cancel_iff {a b c : Stats} : a.add c = b.add c ↔ a = b := by
  refine ⟨fun same => ?_, fun same => by rw [same]⟩
  simp only [add, Stats.mk.injEq, Int.add_left_inj] at same
  exact Stats.ext same.1 same.2.1 same.2.2.1 same.2.2.2.1 same.2.2.2.2

end Stats

/-- What a run with these exits adds to the counters before the sweep. -/
def gainOf (B : Nat) (es : List Exit) : Stats where
  hits := es.countP Exit.isHit
  misses := es.countP (!Exit.isHit ·)
  evictions := es.countP Exit.isReplace
  dirtyBytes := 0
  dirtyEvictions := B * es.count (.replace true)

/-- The exits of a run count the same, whatever the counters held. -/
theorem foldl_count (B : Nat) (es : List Exit) (stats : Stats) :
    es.foldl (Stats.count B) stats = stats.add (gainOf B es) := by
  induction es generalizing stats with
  | nil => ext <;> simp [Stats.add, gainOf]
  | cons exit es ih =>
      rw [List.foldl_cons, ih]
      simp only [Stats.add, gainOf, List.countP_cons, List.count_cons]
      cases exit with
      | hit dirty => ext <;> simp [Stats.count, Exit.isHit, Exit.isReplace, Int.add_left_comm, Int.add_comm]
      | fill => ext <;> simp [Stats.count, Exit.isHit, Exit.isReplace, Int.add_assoc, Int.add_comm]
      | replace dirty =>
          cases dirty <;> ext <;>
            simp [Stats.count, Exit.isHit, Exit.isReplace, Int.mul_add, Int.add_assoc, Int.add_left_comm, Int.add_comm]

/-- The sweep counts the dirty lines. -/
theorem sweep_eq (C : Cache) (stats : Stats) :
    sweep C stats = { stats with dirtyBytes := stats.dirtyBytes + C.B * C.dirtyLines } := by
  have lines : ∀ (lines : List Line) (stats : Stats), lines.foldl (fun stats L =>
      if L.d then { stats with dirtyBytes := stats.dirtyBytes + C.B } else stats) stats =
        { stats with dirtyBytes := stats.dirtyBytes + C.B * lines.countP Line.d } := by
    intro lines
    induction lines with
    | nil => simp
    | cons L lines ih =>
        intro stats
        rw [List.foldl_cons, ih, List.countP_cons]
        cases L.d <;> simp [Int.mul_add, Int.add_assoc, Int.add_comm]
  have sets : ∀ (sets : List (CacheSet C.E)) (stats : Stats), sets.foldl (fun stats set =>
      set.lines.foldl (fun stats L =>
        if L.d then { stats with dirtyBytes := stats.dirtyBytes + C.B } else stats) stats) stats =
        { stats with dirtyBytes := stats.dirtyBytes + C.B * (sets.map fun set => set.lines.countP Line.d).sum } := by
    intro sets
    induction sets with
    | nil => simp
    | cons set sets ih =>
        intro stats
        rw [List.foldl_cons, lines, ih, List.map_cons, List.sum_cons]
        push_cast
        simp only [Int.mul_add, Int.add_assoc]
  exact sets C.data stats

/-! ## The records of a trace -/

/-- How many lines start with `L` or `S`, where the first character starts a line or not. -/
def recordLines : Bool → List Char → Nat
  | _, [] => 0
  | starts, c :: file =>
      (if starts && (c == 'S' || c == 'L') then 1 else 0) + recordLines (c == '\n') file

/-- The first line has at most `n` characters before its end, and each other one 29. -/
def ShortLines : Nat → List Char → Prop
  | _, [] => True
  | 0, c :: file => c = '\n' ∧ ShortLines 29 file
  | n + 1, c :: file => if c = '\n' then ShortLines 29 file else ShortLines n file

theorem shortLines_newline (n : Nat) (file : List Char) :
    ShortLines n ('\n' :: file) ↔ ShortLines 29 file := by
  cases n <;> simp [ShortLines]

/-- Within a short line `fgets` reads up to the next record. -/
theorem takeLine_records {n : Nat} {file : List Char} (short : ShortLines n file) :
    recordLines false file = recordLines true (takeLine n file).2 ∧ ShortLines 29 (takeLine n file).2 := by
  induction file generalizing n with
  | nil => cases n <;> exact ⟨rfl, trivial⟩
  | cons c file ih =>
      by_cases ends : c = '\n'
      · subst ends
        rw [shortLines_newline] at short
        cases n with
        | zero => exact ⟨by simp [takeLine, recordLines], (shortLines_newline 29 file).mpr short⟩
        | succ n => exact ⟨by simp [takeLine, recordLines], by simpa [takeLine] using short⟩
      · cases n with
        | zero => exact absurd short.1 ends
        | succ n =>
            have rest : ShortLines n file := by simpa [ShortLines, ends] using short
            have goesOn : (c == '\n') = false := by simpa using ends
            simpa [takeLine, recordLines, ends, goesOn] using ih rest

theorem takeLine_length (n : Nat) (file : List Char) : (takeLine n file).2.length ≤ file.length := by
  induction file generalizing n with
  | nil => cases n <;> exact Nat.le_refl _
  | cons c file ih =>
      cases n with
      | zero => exact Nat.le_refl _
      | succ n =>
          unfold takeLine
          split
          · exact Nat.le_succ _
          · exact Nat.le_succ_of_le (ih n)

theorem record_isSome (c : Char) (instr : List Char) : (record (c :: instr)).isSome = (c == 'S' || c == 'L') := by
  by_cases isRecord : c = 'S' ∨ c = 'L'
  · rcases isRecord with rfl | rfl <;> rfl
  · simp [record, not_or.mp isRecord]

theorem instructions_records {fuel : Nat} {instr file : List Char} (enough : file.length ≤ fuel)
    (short : ShortLines 29 file) :
    ((instructions fuel instr file).filterMap record).length = recordLines true file := by
  induction fuel generalizing instr file with
  | zero =>
      obtain rfl := List.length_eq_zero_iff.mp (Nat.le_zero.mp enough)
      rfl
  | succ fuel ih =>
      cases file with
      | nil => rfl
      | cons c file =>
          -- the first character decides, the others up to the next line do not matter
          obtain ⟨line, rest, read, counts, short', shorter⟩ : ∃ line rest,
              fgets 30 (c :: file) = some (c :: line, rest) ∧
              recordLines (c == '\n') file = recordLines true rest ∧ ShortLines 29 rest ∧
              rest.length ≤ file.length := by
            by_cases ends : c = '\n'
            · subst ends
              exact ⟨[], file, rfl, rfl, (shortLines_newline 29 file).mp short, Nat.le_refl _⟩
            · have goesOn : (c == '\n') = false := by simpa using ends
              have rest : ShortLines 28 file := by simpa [ShortLines, ends] using short
              obtain ⟨counts, short'⟩ := takeLine_records rest
              exact ⟨(takeLine 28 file).1, (takeLine 28 file).2, by simp [fgets, takeLine, ends],
                by rw [goesOn, counts], short', takeLine_length 28 file⟩
          obtain ⟨filled, isFilled⟩ : ∃ filled, filled =
              line ++ '\x00' :: instr.drop ((c :: line).length + 1) := ⟨_, rfl⟩
          have later : ((instructions fuel (c :: filled) rest).filterMap record).length = recordLines true rest :=
            ih (Nat.le_trans shorter (Nat.le_of_succ_le_succ enough)) short'
          have here := record_isSome c filled
          rw [instructions, read, recordLines, counts, ← later]
          simp only [List.cons_append, ← isFilled, List.filterMap_cons]
          cases isRecord : record (c :: filled) with
          | none =>
              rw [isRecord] at here
              simp [← here]
          | some x =>
              rw [isRecord] at here
              simp [← here, Nat.add_comm]

/-- In a trace of short lines the records are the lines that start with `L` or `S`. -/
theorem records_length {file : List Char} (short : ShortLines 29 file) :
    (records file).length = recordLines true file :=
  instructions_records (Nat.le_refl _) short

end SystemsLabs.CacheSim
