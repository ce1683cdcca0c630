/-
# SystemsLabs.CacheSim.Conservation -- the counters and the lines stay in step

What the counters gain over a run of accesses is what the lines of the cache gain
(`Balance`): a miss that evicts nothing takes a line into use, and a block that becomes dirty
stays so until it is evicted.  One access keeps the balance (`Filled.load`), and runs add up
(`Balance.trans`).
-/
import Mathlib.Tactic.LinearCombination
import Mathlib.Tactic.Ring
import Mathlib.Tactic.Zify
import SystemsLabs.CacheSim.Filling

namespace SystemsLabs.CacheSim

set_option autoImplicit false

/-! ## One set -/

namespace CacheSet

variable {E : Nat} {set set' : CacheSet E} {addrTag : Int} {mode : Char} {exit : Exit}
  {used used' : List Line} {lru lru' : Int}

/-- A store that missed or hit a clean line. -/
def dirties (mode : Char) (exit : Exit) : Bool := mode == 'S' && exit != .hit true

theorem Uses.length (uses : Uses E addrTag mode used lru exit used' lru') :
    used'.length = used.length + if exit = .fill then 1 else 0 := by
  cases uses with
  | hit split => simp [split]
  | fill => simp
  | replace split => simp [split]

theorem Uses.dirty (uses : Uses E addrTag mode used lru exit used' lru') :
    used'.countP Line.d + (if exit = .replace true then 1 else 0) =
      used.countP Line.d + if dirties mode exit then 1 else 0 := by
  cases uses with
  | @hit pre post L split =>
      rw [split]
      simp only [List.countP_append, List.countP_cons]
      cases L.d <;> cases store : mode == 'S' <;> simp [dirties, store, Nat.add_assoc]
  | @fill L _ _ _ dirty =>
      simp only [List.countP_append, List.countP_cons, dirty]
      cases store : mode == 'S' <;> simp [dirties, store]
  | @replace pre post R split =>
      rw [split]
      simp only [List.countP_append, List.countP_cons]
      cases R.d <;> cases store : mode == 'S' <;> simp [dirties, store] <;> omega

/-- The tag that was accessed is there afterwards. -/
theorem Uses.present (uses : Uses E addrTag mode used lru exit used' lru') :
    addrTag ∈ used'.map Line.tag := by
  cases uses with
  | hit split isTag => simp [isTag]
  | fill _ _ isTag => simp [isTag]
  | replace => simp

theorem Fills.valid_count (fills : set.Fills used) : set.lines.countP Line.v = used.length := by
  obtain ⟨free, split, unused⟩ := fills.split
  rw [split, List.countP_append, List.countP_eq_length.mpr fills.valid, List.countP_eq_zero.mpr, Nat.add_zero]
  intro L member
  simp [(unused L member).1]

theorem Fills.dirty_count (fills : set.Fills used) : set.lines.countP Line.d = used.countP Line.d := by
  obtain ⟨free, split, unused⟩ := fills.split
  have noDirty : free.countP Line.d = 0 := List.countP_eq_zero.mpr fun L member => by simp [(unused L member).2]
  rw [split, List.countP_append, noDirty, Nat.add_zero]

/-- The lines in use come first and have distinct tags, dirty lines are in use, and `LRU` is
the index of a line where it is needed. -/
structure WellFilled (set : CacheSet E) : Prop where
  first : ∃ used free, set.lines = used ++ free ∧ (∀ L ∈ used, L.v = true) ∧
    (∀ L ∈ free, L.v = false) ∧ (used.map Line.tag).Nodup
  dirty : ∀ L ∈ set.lines, L.d = true → L.v = true
  lru : (∀ L ∈ set.lines, L.v = true) → ∃ i, i < E ∧ set.lru = Int.ofNat i

theorem Fills.wellFilled (fills : set.Fills used) (positive : 1 ≤ E) : set.WellFilled where
  first := by
    obtain ⟨free, split, unused⟩ := fills.split
    exact ⟨used, free, split, fills.valid, fun L member => (unused L member).1, fills.distinct⟩
  dirty := by
    obtain ⟨free, split, unused⟩ := fills.split
    intro L member isDirty
    rw [split] at member
    rcases List.mem_append.mp member with inUse | notInUse
    · exact fills.valid L inUse
    · rw [(unused L notInUse).2] at isDirty
      cases isDirty
  lru := fills.lru_inside positive

end CacheSet

/-! ## The cache -/

namespace Cache

open CacheSet

variable {C C' C'' : Cache} {stats stats' stats'' : Stats} {a : Access} {as bs : List Access}
  {exit : Exit} {es : List Exit}

def countLines (C : Cache) (p : Line → Bool) : Nat := (C.data.map fun set => set.lines.countP p).sum

def validLines (C : Cache) : Nat := C.countLines Line.v

def dirtyLines (C : Cache) : Nat := C.countLines Line.d

/-- How many of the accesses are stores that missed or hit a clean line. -/
def storesToClean (as : List Access) (es : List Exit) : Nat :=
  (as.zip es).countP fun x => dirties x.1.mode x.2

/-- The line with the tag that `a` accesses is in use. -/
def Holds (C : Cache) (a : Access) : Prop :=
  ∃ set, C.data[a.addrIndex]? = some set ∧ ∃ L ∈ set.lines, L.v = true ∧ L.tag = a.addrTag

def Filled (C : Cache) : Prop := ∀ set ∈ C.data, ∃ used, set.Fills used

theorem fresh_filled (S B E : Nat) : (fresh S B E).Filled := by
  intro set member
  obtain rfl : set = initSet E := List.eq_of_mem_replicate member
  exact ⟨[], initSet_fills E⟩

/-- An access changes one set. -/
theorem access_split (step : C.access a = some (exit, C')) : ∃ pre set post set',
    C.data = pre ++ set :: post ∧ pre.length = a.addrIndex ∧
      set.access a.addrTag a.mode = some (exit, set') ∧ C' = C.setData a.addrIndex set' ∧
      C.data.set a.addrIndex set' = pre ++ set' :: post := by
  obtain ⟨set, found, step⟩ := Option.bind_eq_some_iff.mp step
  obtain ⟨⟨exit', set'⟩, access, step⟩ := Option.bind_eq_some_iff.mp step
  obtain ⟨rfl, rfl⟩ := Prod.mk.inj (Option.some.inj step)
  obtain ⟨inside, rfl⟩ := List.getElem?_eq_some_iff.mp found
  refine ⟨C.data.take a.addrIndex, _, C.data.drop (a.addrIndex + 1), set', ?_, ?_, access, rfl, ?_⟩
  · rw [← List.drop_eq_getElem_cons inside, List.take_append_drop]
  · rw [List.length_take, Nat.min_eq_left (Nat.le_of_lt inside)]
  · rw [List.set_eq_take_append_cons_drop, if_pos inside]

/-- Changing one set. -/
theorem countLines_setData {pre post : List (CacheSet C.E)} {set set' : CacheSet C.E} {i : Nat}
    (split : C.data = pre ++ set :: post) (split' : C.data.set i set' = pre ++ set' :: post)
    (p : Line → Bool) : (C.setData i set').countLines p + set.lines.countP p =
      C.countLines p + set'.lines.countP p := by
  show ((C.data.set i set').map fun set => set.lines.countP p).sum + _ = _
  rw [countLines, split', split]
  simp only [List.map_append, List.map_cons, List.sum_append, List.sum_cons]
  omega

/-- What the counters gain on the way from one cache to another. -/
structure Balance (C : Cache) (stats : Stats) (as : List Access) (es : List Exit) (C' : Cache)
    (stats' : Stats) : Prop where
  accesses : stats'.hits + stats'.misses = stats.hits + stats.misses + as.length
  lines : stats'.misses - stats'.evictions - C'.validLines = stats.misses - stats.evictions - C.validLines
  dirty : stats'.dirtyEvictions + C'.B * C'.dirtyLines =
    stats.dirtyEvictions + C.B * C.dirtyLines + C.B * storesToClean as es

theorem Balance.refl (C : Cache) (stats : Stats) : Balance C stats [] [] C stats where
  accesses := by simp
  lines := rfl
  dirty := by simp [storesToClean]

theorem Balance.trans (first : Balance C stats [a] [exit] C' stats')
    (second : Balance C' stats' as es C'' stats'') (block : C'.B = C.B) :
    Balance C stats (a :: as) (exit :: es) C'' stats'' where
  accesses := by
    rw [second.accesses, first.accesses]
    simp only [List.length_cons, List.length_nil]
    push_cast
    ring
  lines := second.lines.trans first.lines
  dirty := by
    rw [second.dirty, first.dirty, block]
    simp only [storesToClean, List.zip_cons_cons, List.countP_cons, List.zip_nil_left, List.countP_nil]
    push_cast
    ring

theorem count_dirtyEvictions (B : Nat) (stats : Stats) (exit : Exit) :
    (stats.count B exit).dirtyEvictions =
      stats.dirtyEvictions + B * ((if exit = .replace true then 1 else 0 : Nat) : Int) := by
  cases exit with
  | hit dirty => simp [Stats.count]
  | fill => simp [Stats.count]
  | replace dirty => cases dirty <;> simp [Stats.count]

/-- **One access** of a cache. -/
theorem Filled.load (filled : C.Filled) (positive : 1 ≤ C.E) (inside : a.addrIndex < C.S) (stats : Stats) :
    ∃ exit C' stats', C.access a = some (exit, C') ∧ C.load stats a = some (C', stats') ∧ C'.Filled ∧
      C'.S = C.S ∧ C'.B = C.B ∧ C'.E = C.E ∧ Balance C stats [a] [exit] C' stats' ∧ C'.Holds a := by
  rw [← C.data_length] at inside
  obtain ⟨used, fills⟩ := filled _ (List.getElem_mem inside)
  obtain ⟨exit, set', access⟩ := exists_access (fills.lru_inside positive) a.addrTag a.mode
  have step : C.access a = some (exit, C.setData a.addrIndex set') := by
    rw [Cache.access, List.getElem?_eq_getElem inside]
    show (CacheSet.access _ _ C.data[a.addrIndex]).bind _ = _
    rw [access]
    rfl
  obtain ⟨pre, set, post, set₁, split, len, access₁, same, split'⟩ := access_split step
  have isSet : C.data[a.addrIndex] = set := by simp [split, ← len]
  rw [isSet] at fills access
  obtain rfl : set₁ = set' := (Prod.mk.inj (Option.some.inj (access₁.symm.trans access))).2
  obtain ⟨used', uses, fills'⟩ := fills.accesses (accesses access)
  have valid := countLines_setData split split' Line.v
  have dirty := countLines_setData split split' Line.d
  rw [fills.valid_count, fills'.valid_count, uses.length] at valid
  rw [fills.dirty_count, fills'.dirty_count] at dirty
  have exchange := uses.dirty
  refine ⟨exit, _, stats.count C.B exit, step, ?_, ?_, rfl, rfl, rfl, ⟨?_, ?_, ?_⟩, ?_⟩
  · rw [Cache.load, step]
    rfl
  · intro (other : CacheSet C.E) member
    have member : other ∈ C.data.set a.addrIndex set₁ := member
    rw [split'] at member
    rw [Filled, split] at filled
    exact CacheSet.forall_mem_replaced filled ⟨used', fills'⟩ other member
  · cases exit <;> simp [Stats.count] <;> omega
  · unfold validLines
    cases exit <;> simp [Stats.count] at valid ⊢ <;> omega
  · have gained := count_dirtyEvictions C.B stats exit
    have single : storesToClean [a] [exit] = if dirties a.mode exit then 1 else 0 := by
      simp [storesToClean]
    have blocks : (C.setData a.addrIndex set₁).dirtyLines + (if exit = .replace true then 1 else 0) =
        C.dirtyLines + if dirties a.mode exit then 1 else 0 := by
      unfold dirtyLines
      omega
    rw [gained, single]
    zify at blocks
    push_cast at blocks ⊢
    show _ + _ + (C.B : Int) * _ = _
    linear_combination (C.B : Int) * blocks
  · refine ⟨set₁, ?_, ?_⟩
    · show (C.data.set a.addrIndex set₁)[a.addrIndex]? = some set₁
      rw [split', ← len]
      simp
    obtain ⟨L, inUse, isTag⟩ := List.mem_map.mp uses.present
    obtain ⟨free, isFree, -⟩ := fills'.split
    exact ⟨L, isFree ▸ List.mem_append_left _ inUse, fills'.valid L inUse, isTag⟩

/-! ## Runs -/

/-- What a run from a filled cache keeps, and what it counts. -/
theorem Filled.loads (filled : C.Filled) (positive : 1 ≤ C.E) (inside : ∀ a ∈ as, a.addrIndex < C.S)
    (stats : Stats) : ∃ es C' stats', C.accessAll as = some (es, C') ∧ C.loads stats as = some (C', stats') ∧
      C'.Filled ∧ C'.S = C.S ∧ C'.B = C.B ∧ C'.E = C.E ∧ Balance C stats as es C' stats' ∧
      ∀ a, as.getLast? = some a → C'.Holds a := by
  induction as generalizing C stats with
  | nil => exact ⟨[], C, stats, rfl, rfl, filled, rfl, rfl, rfl, Balance.refl C stats, by simp⟩
  | cons a as ih =>
      obtain ⟨exit, D, stats₁, access, step, filled₁, sets, block, lines, first, held⟩ :=
        filled.load positive (inside a (List.mem_cons_self ..)) stats
      obtain ⟨es, C', stats', exits, rest, filled', sets', block', lines', later, last⟩ :=
        ih filled₁ (lines ▸ positive) (fun b member => sets ▸ inside b (List.mem_cons_of_mem _ member)) stats₁
      refine ⟨exit :: es, C', stats', ?_, ?_, filled', sets'.trans sets, block'.trans block,
        lines'.trans lines, first.trans later block, ?_⟩
      · rw [Cache.accessAll, access]
        show (D.accessAll as).bind _ = _
        rw [exits]
        rfl
      · rw [Cache.loads, step]
        exact rest
      · intro b isLast
        cases as with
        | nil =>
            obtain rfl : a = b := by simpa using isLast
            obtain ⟨rfl, -⟩ := Prod.mk.inj (Option.some.inj rest)
            exact held
        | cons c as =>
            rw [List.getLast?_cons_cons] at isLast
            exact last b isLast

/-- The counters of a run from an empty cache, and the lines it leaves. -/
structure Conserved (C : Cache) (stats : Stats) (as : List Access) (es : List Exit) : Prop where
  accesses : stats.hits + stats.misses = as.length
  evictions_le : stats.evictions ≤ stats.misses
  lines : stats.misses - stats.evictions = C.validLines
  dirty : stats.dirtyEvictions + C.B * C.dirtyLines = C.B * storesToClean as es
  sets : ∀ set ∈ C.data, set.WellFilled
  last : ∀ a, as.getLast? = some a → C.Holds a

theorem countLines_fresh (S B E : Nat) {p : Line → Bool} (unused : ∀ j : Nat, p ⟨0, false, false, j⟩ = false) :
    (fresh S B E).countLines p = 0 := by
  have noDirty : (initSet E).lines.countP p = 0 := by
    rw [initSet, List.countP_map, List.countP_eq_zero]
    intro j _
    simp [unused]
  rw [countLines, fresh, List.map_replicate, noDirty]
  simp

/-- **Conservation**: a run of accesses from an empty cache returns, and its counters are in
step with the lines. -/
theorem conservation (S B : Nat) {E : Nat} (positive : 1 ≤ E) {as : List Access}
    (inside : ∀ a ∈ as, a.addrIndex < S) : ∃ es C stats, (fresh S B E).accessAll as = some (es, C) ∧
      (fresh S B E).loads .zero as = some (C, stats) ∧ C.S = S ∧ C.B = B ∧ C.E = E ∧
      C.Conserved stats as es := by
  obtain ⟨es, C, stats, exits, loads, filled, sets, block, lines, balance, last⟩ :=
    (fresh_filled S B E).loads positive inside .zero
  have valid : stats.misses - stats.evictions = C.validLines := by
    have start : (fresh S B E).validLines = 0 := countLines_fresh S B E fun _ => rfl
    have lines := balance.lines
    simp only [start, Stats.zero] at lines
    omega
  refine ⟨es, C, stats, exits, loads, sets, block, lines, ?_, ?_, valid, ?_, ?_, last⟩
  · simpa [Stats.zero] using balance.accesses
  · omega
  · have start : (fresh S B E).dirtyLines = 0 := countLines_fresh S B E fun _ => rfl
    have dirty := balance.dirty
    rw [start] at dirty
    rw [dirty, block]
    simp [Stats.zero, fresh]
  · intro set member
    obtain ⟨used, fills⟩ := filled set member
    exact fills.wellFilled (lines ▸ positive)

/-- Stores and loads of three blocks in a set of two lines. -/
def thrashing : List Access := [⟨0, 0, 'S'⟩, ⟨0, 16, 'L'⟩, ⟨0, 32, 'S'⟩, ⟨0, 0, 'L'⟩, ⟨0, 0, 'S'⟩]

theorem conservation_thrashing : ∃ es C stats, (fresh 1 16 2).accessAll thrashing = some (es, C) ∧
    (fresh 1 16 2).loads .zero thrashing = some (C, stats) ∧ C.S = 1 ∧ C.B = 16 ∧ C.E = 2 ∧
    C.Conserved stats thrashing es :=
  conservation 1 16 (by decide) (by decide)

end Cache

end SystemsLabs.CacheSim
