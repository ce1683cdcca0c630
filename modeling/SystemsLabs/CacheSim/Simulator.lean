/-
# SystemsLabs.CacheSim.Simulator -- the cache simulator of `csim.c`

The cache of `csim.c` and its function `load`.  An array of the source is a list whose
length is a field of the structure.  A call is an `Option`: `none` is one that reads outside
an array.

`load` leaves its scan of a set by one of three exits, and each counts differently.  So it is
put together from what it does to the set (`CacheSet.access`, which also names the exit)
and what the exit counts (`Stats.count`).  `CacheSet.Accesses` lists what an access can do.
-/
import Mathlib.Tactic.Common
import Mathlib.Data.List.Basic
import Mathlib.Data.List.Count
import Mathlib.Algebra.BigOperators.Group.List.Basic

namespace SystemsLabs.CacheSim

set_option autoImplicit false

/-- `struct line`; the values of a `long` are integers. -/
structure Line where
  tag : Int
  d : Bool
  v : Bool
  index : Int
deriving DecidableEq, Repr

/-- `struct set`, with the lines of an array of length `E`. -/
@[ext] structure CacheSet (E : Nat) where
  lines : List Line
  lru : Int
  lines_length : lines.length = E

/-- `struct cache` -/
@[ext] structure Cache where
  S : Nat
  B : Nat
  E : Nat
  data : List (CacheSet E)
  data_length : data.length = S

/-- `csim_stats_t` -/
@[ext] structure Stats where
  hits : Int
  misses : Int
  evictions : Int
  dirtyBytes : Int
  dirtyEvictions : Int
deriving DecidableEq, Repr

def Stats.zero : Stats := ⟨0, 0, 0, 0, 0⟩

/-! ## `initCache` -/

def initSet (E : Nat) : CacheSet E where
  lines := (List.range E).map fun j : Nat => ⟨0, false, false, j⟩
  -- if direct mapped
  lru := if E = 1 then 0 else -1
  lines_length := by simp

/-- A cache of `S` sets, `E` lines a set and `B` bytes a block, as `initCache` fills it in. -/
def Cache.fresh (S B E : Nat) : Cache where
  S := S
  B := B
  E := E
  data := List.replicate S (initSet E)
  data_length := by simp

/-- The shifts of the `int` 1 are only defined below the sign bit. -/
def initCache (s E b : Nat) : Option Cache :=
  if s < 31 ∧ b < 31 then some (Cache.fresh (2 ^ s) (2 ^ b) E) else none

/-! ## `load` -/

/-- How an access leaves `load`, and whether the line that was hit or replaced was dirty. -/
inductive Exit where
  | hit (dirty : Bool)
  | fill
  | replace (dirty : Bool)
deriving DecidableEq, Repr

/-- What the exits of `load` count. -/
def Stats.count (B : Nat) (stats : Stats) : Exit → Stats
  | .hit _ => { stats with hits := stats.hits + 1 }
  | .fill => { stats with misses := stats.misses + 1 }
  | .replace dirty => { stats with
      dirtyEvictions := if dirty then stats.dirtyEvictions + B else stats.dirtyEvictions
      evictions := stats.evictions + 1
      misses := stats.misses + 1 }

namespace CacheSet

variable {E : Nat}

/-- The value of `LRU` when the line `L` has been used. -/
def lruAfter (set : CacheSet E) (L : Line) : Int :=
  if E > 1 then
    let lru := if L.index = 1 then 0 else set.lru
    if L.index = 0 then 1 else lru
  else set.lru

/-- The line `i` becomes `L` and has been used. -/
def use (set : CacheSet E) (i : Nat) (L : Line) : CacheSet E where
  lines := set.lines.set i L
  lru := set.lruAfter L
  lines_length := by rw [List.length_set, set.lines_length]

/-- The line `currSet->lines[currSet->LRU]`, and its index. -/
def victim (set : CacheSet E) : Option (Nat × Line) :=
  match set.lru with
  | .ofNat i => set.lines[i]?.map fun L => (i, L)
  | .negSucc _ => none

/-- What `load` does to the set. -/
def access (addrTag : Int) (mode : Char) (set : CacheSet E) : Option (Exit × CacheSet E) :=
  -- the scan stops at the first line that is not valid or has the tag
  match set.lines.findIdx? fun L => !L.v || L.tag == addrTag with
  | some i => do
      let L ← set.lines[i]?
      if !L.v then
        -- compulsory miss
        some (.fill, set.use i { L with tag := addrTag, v := true, d := L.d || mode == 'S' })
      else
        -- cache hit
        some (.hit L.d, set.use i { L with d := L.d || mode == 'S' })
  | none => do
      -- eviction, miss
      let (i, replace) ← set.victim
      some (.replace replace.d, set.use i { replace with tag := addrTag, d := mode == 'S' })

end CacheSet

/-- The arguments of a call of `load`, but for the cache and its counters. -/
structure Access where
  addrIndex : Nat
  addrTag : Int
  mode : Char
deriving DecidableEq, Repr

namespace Cache

def setData (C : Cache) (i : Nat) (set : CacheSet C.E) : Cache where
  S := C.S
  B := C.B
  E := C.E
  data := C.data.set i set
  data_length := by rw [List.length_set, C.data_length]

def access (C : Cache) (a : Access) : Option (Exit × Cache) := do
  let currSet ← C.data[a.addrIndex]?
  let (exit, currSet) ← currSet.access a.addrTag a.mode
  some (exit, C.setData a.addrIndex currSet)

def load (C : Cache) (stats : Stats) (a : Access) : Option (Cache × Stats) := do
  let (exit, C') ← C.access a
  some (C', stats.count C.B exit)

/-- The accesses of a list, one after the other. -/
def loads (C : Cache) (stats : Stats) : List Access → Option (Cache × Stats)
  | [] => some (C, stats)
  | a :: as => do
      let (C, stats) ← C.load stats a
      loads C stats as

/-- The same without the counters, and with the exits. -/
def accessAll (C : Cache) : List Access → Option (List Exit × Cache)
  | [] => some ([], C)
  | a :: as => do
      let (exit, C) ← C.access a
      let (exits, C) ← accessAll C as
      some (exit :: exits, C)

theorem access_block {C C' : Cache} {a : Access} {exit : Exit} (step : C.access a = some (exit, C')) :
    C'.B = C.B := by
  obtain ⟨set, -, step⟩ := Option.bind_eq_some_iff.mp step
  obtain ⟨x, -, step⟩ := Option.bind_eq_some_iff.mp step
  obtain ⟨-, rfl⟩ := Prod.mk.inj (Option.some.inj step)
  rfl

/-- The counters do not influence the cache. -/
theorem loads_eq (C : Cache) (stats : Stats) (as : List Access) : C.loads stats as =
    (C.accessAll as).map fun x => (x.2, x.1.foldl (Stats.count C.B) stats) := by
  induction as generalizing C stats with
  | nil => rfl
  | cons a as ih =>
      rw [loads, accessAll, load]
      cases step : C.access a with
      | none => rfl
      | some x =>
          obtain ⟨exit, C'⟩ := x
          simp only [Option.bind_eq_bind, Option.bind_some, ih, access_block step]
          cases C'.accessAll as <;> rfl

end Cache

/-! ## What an access does -/

/-- A line that is in use for another tag. -/
def Line.Other (addrTag : Int) (L : Line) : Prop := L.v = true ∧ L.tag ≠ addrTag

namespace CacheSet

variable {E : Nat} {set set' : CacheSet E} {addrTag : Int} {mode : Char} {exit : Exit}

/-- The exits of an access. -/
inductive Accesses (addrTag : Int) (mode : Char) (set : CacheSet E) : Exit → CacheSet E → Prop
  | hit {pre post : List Line} {L : Line} {set' : CacheSet E} :
      set.lines = pre ++ L :: post → (∀ x ∈ pre, x.Other addrTag) → L.v = true →
      L.tag = addrTag → set'.lines = pre ++ { L with d := L.d || mode == 'S' } :: post →
      set'.lru = set.lruAfter L → Accesses addrTag mode set (.hit L.d) set'
  | fill {pre post : List Line} {L : Line} {set' : CacheSet E} :
      set.lines = pre ++ L :: post → (∀ x ∈ pre, x.Other addrTag) → L.v = false →
      set'.lines = pre ++ { L with tag := addrTag, v := true, d := L.d || mode == 'S' } :: post →
      set'.lru = set.lruAfter L → Accesses addrTag mode set .fill set'
  | replace {pre post : List Line} {R : Line} {set' : CacheSet E} :
      set.lines = pre ++ R :: post → (∀ x ∈ set.lines, x.Other addrTag) →
      set.lru = pre.length → set'.lines = pre ++ { R with tag := addrTag, d := mode == 'S' } :: post →
      set'.lru = set.lruAfter R → Accesses addrTag mode set (.replace R.d) set'

theorem scan_stops {lines : List Line} {p : Line → Bool} {i : Nat} (found : lines.findIdx? p = some i) :
    ∃ pre L post, lines = pre ++ L :: post ∧ pre.length = i ∧ p L = true ∧ ∀ x ∈ pre, p x = false := by
  obtain ⟨inside, here, before⟩ := List.findIdx?_eq_some_iff_getElem.mp found
  refine ⟨lines.take i, lines[i], lines.drop (i + 1), ?_, ?_, here, ?_⟩
  · rw [← List.drop_eq_getElem_cons inside, List.take_append_drop]
  · rw [List.length_take, Nat.min_eq_left (Nat.le_of_lt inside)]
  · intro x member
    obtain ⟨j, lt, rfl⟩ := List.mem_take_iff_getElem.mp member
    simpa using before j (Nat.lt_of_lt_of_le lt (Nat.min_le_left _ _))

theorem use_lines {pre post : List Line} {L : Line} (split : set.lines = pre ++ L :: post) (L' : Line) :
    (set.use pre.length L').lines = pre ++ L' :: post := by
  show set.lines.set pre.length L' = _
  rw [split, List.set_append_right _ _ (Nat.le_refl _), Nat.sub_self, List.set_cons_zero]

theorem other_of_scan {x : Line} : (!x.v || x.tag == addrTag) = false ↔ x.Other addrTag := by
  simp [Line.Other]

/-- The line to be replaced, if there is one. -/
theorem victim_split {i : Nat} {R : Line} (isVictim : set.victim = some (i, R)) :
    ∃ pre post, set.lines = pre ++ R :: post ∧ pre.length = i ∧ set.lru = pre.length := by
  unfold victim at isVictim
  split at isVictim
  · next j isLru =>
    obtain ⟨L, line, pair⟩ := Option.map_eq_some_iff.mp isVictim
    obtain ⟨rfl, rfl⟩ := Prod.mk.inj pair
    obtain ⟨inside, rfl⟩ := List.getElem?_eq_some_iff.mp line
    have length : (set.lines.take j).length = j := by
      rw [List.length_take, Nat.min_eq_left (Nat.le_of_lt inside)]
    refine ⟨set.lines.take j, set.lines.drop (j + 1), ?_, length, ?_⟩
    · rw [← List.drop_eq_getElem_cons inside, List.take_append_drop]
    · rw [isLru, length]
      rfl
  · cases isVictim

/-- **What an access does**: it leaves by one of the exits. -/
theorem accesses (step : set.access addrTag mode = some (exit, set')) :
    Accesses addrTag mode set exit set' := by
  unfold access at step
  split at step
  · next i found =>
    obtain ⟨pre, L, post, split, rfl, here, before⟩ := scan_stops found
    have others : ∀ x ∈ pre, x.Other addrTag := fun x member => other_of_scan.mp (before x member)
    have line : set.lines[pre.length]? = some L := by simp [split]
    rw [line, Option.bind_eq_bind, Option.bind_some] at step
    by_cases valid : L.v = true
    · have isTag : L.tag = addrTag := by simpa [valid] using here
      rw [if_neg (by simp [valid])] at step
      obtain ⟨rfl, rfl⟩ := Prod.mk.inj (Option.some.inj step)
      exact .hit split others valid isTag (use_lines split _) rfl
    · have invalid : L.v = false := by simpa using valid
      rw [if_pos (by simp [invalid])] at step
      obtain ⟨rfl, rfl⟩ := Prod.mk.inj (Option.some.inj step)
      exact .fill split others invalid (use_lines split _) rfl
  · next absent =>
    have others : ∀ x ∈ set.lines, x.Other addrTag := fun x member =>
      other_of_scan.mp (by simpa using List.findIdx?_eq_none_iff.mp absent x member)
    obtain ⟨⟨i, R⟩, isVictim, step⟩ := Option.bind_eq_some_iff.mp step
    simp only [Option.some.injEq, Prod.mk.injEq] at step
    obtain ⟨rfl, rfl⟩ := step
    obtain ⟨pre, post, split, rfl, isLru⟩ := victim_split isVictim
    exact .replace split others isLru (use_lines split _) rfl

/-- An access only fails where all lines are in use and `LRU` is the index of none. -/
theorem exists_access (inside : (∀ x ∈ set.lines, x.v = true) → ∃ i, i < E ∧ set.lru = Int.ofNat i)
    (addrTag : Int) (mode : Char) : ∃ exit set', set.access addrTag mode = some (exit, set') := by
  unfold access
  split
  · next i found =>
    obtain ⟨pre, L, post, split, rfl, -⟩ := scan_stops found
    have line : set.lines[pre.length]? = some L := by simp [split]
    rw [line]
    by_cases valid : L.v = true
    · simp [valid]
    · simp [valid]
  · next absent =>
    obtain ⟨i, lt, isLru⟩ := inside fun x member =>
      (other_of_scan.mp (by simpa using List.findIdx?_eq_none_iff.mp absent x member)).1
    rw [← set.lines_length] at lt
    have isVictim : set.victim = some (i, set.lines[i]) := by
      unfold victim
      rw [isLru]
      simp [lt]
    rw [isVictim]
    exact ⟨_, _, rfl⟩

end CacheSet

end SystemsLabs.CacheSim
