/-
# SystemsLabs.CacheSim.Summary -- the summary that `main` prints

What is printed is what the stack held, and a sum that only depends on the trace and the geometry
(`main_of_simulate`).  It is the right summary for one content of the stack only, and only where the
geometry fits an `int` (`summary_correct`).
-/
import SystemsLabs.CacheSim.Address

namespace SystemsLabs.CacheSim

set_option autoImplicit false

variable {s E b : Nat} {file : List Char} {stats stats' summary : Stats} {es : List Exit} {C : Cache}

/-! ## Runs -/

/-- The exits of the accesses of a trace, and the cache it leaves. -/
def simulate (s E b : Nat) (file : List Char) : Option (List Exit × Cache) := do
  let C ← initCache s E b
  let as ← accesses s b file
  C.accessAll as

/-- The geometries that C defines: the sizes are positive values of an `int`, and so are the masks,
if the trace has a record to apply them to. -/
structure Geometry (s b : Nat) (file : List Char) : Prop where
  sets : s < 31
  bytes : b < 31
  masks : records file ≠ [] → s + b < 32

/-- What the summary of a trace has to be. -/
def rightSummary (b : Nat) (es : List Exit) (C : Cache) : Stats where
  hits := es.countP Exit.isHit
  misses := es.countP (!Exit.isHit ·)
  evictions := es.countP Exit.isReplace
  dirtyBytes := 2 ^ b * C.dirtyLines
  dirtyEvictions := 2 ^ b * es.count (.replace true)

theorem length_of_mapM {α β : Type} {f : α → Option β} {l : List α} {l' : List β}
    (all : l.mapM f = some l') : l'.length = l.length := by
  induction l generalizing l' with
  | nil =>
      obtain rfl : [] = l' := by simpa using all
      rfl
  | cons x l ih =>
      rw [List.mapM_cons] at all
      obtain ⟨y, -, all⟩ := Option.bind_eq_some_iff.mp all
      obtain ⟨rest, isRest, all⟩ := Option.bind_eq_some_iff.mp all
      obtain rfl : y :: rest = l' := Option.some.inj all
      rw [List.length_cons, List.length_cons, ih isRest]

theorem exists_mapM {α β : Type} {f : α → Option β} {P : β → Prop} {l : List α}
    (each : ∀ x ∈ l, ∃ y, f x = some y ∧ P y) : ∃ l', l.mapM f = some l' ∧ ∀ y ∈ l', P y := by
  induction l with
  | nil => exact ⟨[], by simp, by simp⟩
  | cons x l ih =>
      obtain ⟨y, here, holds⟩ := each x (List.mem_cons_self ..)
      obtain ⟨rest, isRest, all⟩ := ih fun z member => each z (List.mem_cons_of_mem _ member)
      refine ⟨y :: rest, by simp [List.mapM_cons, here, isRest], fun z member => ?_⟩
      rcases List.mem_cons.mp member with rfl | member
      · exact holds
      · exact all z member

theorem length_of_accessAll {C C' : Cache} {as : List Access} {es : List Exit}
    (run : C.accessAll as = some (es, C')) : es.length = as.length := by
  induction as generalizing C es with
  | nil =>
      obtain ⟨rfl, -⟩ := Prod.mk.inj (Option.some.inj run)
      rfl
  | cons a as ih =>
      obtain ⟨⟨exit, D⟩, -, run⟩ := Option.bind_eq_some_iff.mp run
      obtain ⟨⟨rest, D'⟩, isRest, run⟩ := Option.bind_eq_some_iff.mp run
      obtain ⟨rfl, rfl⟩ := Prod.mk.inj (Option.some.inj run)
      rw [List.length_cons, List.length_cons, ih isRest]

theorem block_of_accessAll {C C' : Cache} {as : List Access} {es : List Exit}
    (run : C.accessAll as = some (es, C')) : C'.B = C.B := by
  induction as generalizing C es with
  | nil =>
      obtain ⟨-, rfl⟩ := Prod.mk.inj (Option.some.inj run)
      rfl
  | cons a as ih =>
      obtain ⟨⟨exit, D⟩, access, run⟩ := Option.bind_eq_some_iff.mp run
      obtain ⟨⟨rest, D'⟩, isRest, run⟩ := Option.bind_eq_some_iff.mp run
      obtain ⟨-, rfl⟩ := Prod.mk.inj (Option.some.inj run)
      exact (ih isRest).trans (Cache.access_block access)

/-- What `main` computes for `load` names a set of the cache. -/
theorem decode_inside (fits : s + b < 32) (sets : s < 31) (mode : Char) (addr : BitVec 64) :
    ∃ a, decode s b mode addr = some a ∧ a.addrIndex < 2 ^ s := by
  have index : ((IntShifts.x86.addrSetIndex s b addr).setWidth 32).toNat < 2 ^ s := by
    have small : 2 ^ s < 2 ^ 31 := Nat.pow_lt_pow_right (by decide) sets
    have inSets := index_lt addr s b
    rw [BitVec.toNat_setWidth, addrSetIndex_toNat fits addr, Nat.mod_eq_of_lt (by omega)]
    exact inSets
  exact ⟨_, decode_eq .x86 (by omega) mode addr, index⟩

/-- **A trace is simulated** exactly where C defines the geometry. -/
theorem simulate_iff (positive : 1 ≤ E) : (∃ es C, simulate s E b file = some (es, C)) ↔ Geometry s b file := by
  constructor
  · rintro ⟨es, C, run⟩
    obtain ⟨C₀, init, run⟩ := Option.bind_eq_some_iff.mp run
    obtain ⟨as, isAs, -⟩ := Option.bind_eq_some_iff.mp run
    unfold initCache at init
    split at init
    · next sizes =>
      refine ⟨sizes.1, sizes.2, fun nonempty => ?_⟩
      by_contra wide
      obtain ⟨⟨mode, addr⟩, rest, split⟩ := List.exists_cons_of_ne_nil nonempty
      have undefined : decode s b mode addr = none := if_neg (by omega)
      rw [accesses, split, List.mapM_cons] at isAs
      simp only [undefined] at isAs
      cases isAs
    · cases init
  · rintro ⟨sets, bytes, masks⟩
    have init : initCache s E b = some (Cache.fresh (2 ^ s) (2 ^ b) E) := if_pos ⟨sets, bytes⟩
    obtain ⟨as, isAs, inside⟩ : ∃ as, accesses s b file = some as ∧ ∀ a ∈ as, a.addrIndex < 2 ^ s := by
      refine exists_mapM fun record member => ?_
      exact decode_inside (masks (List.ne_nil_of_mem member)) sets record.1 record.2
    obtain ⟨es, C, -, exits, -⟩ := Cache.conservation (2 ^ s) (2 ^ b) positive inside
    exact ⟨es, C, by rw [simulate, init, isAs]; exact exits⟩

theorem length_of_simulate (run : simulate s E b file = some (es, C)) : es.length = (records file).length := by
  obtain ⟨C₀, -, run⟩ := Option.bind_eq_some_iff.mp run
  obtain ⟨as, isAs, run⟩ := Option.bind_eq_some_iff.mp run
  rw [length_of_accessAll run, length_of_mapM isAs]

/-! ## The summary -/

namespace Stats

/-- The subtraction before `printSummary`. -/
def lessOne : Stats := ⟨0, 0, 0, 0, -1⟩

/-- What makes up for the subtraction. -/
def leftover : Stats := ⟨0, 0, 0, 0, 1⟩

end Stats

open Stats (lessOne leftover)

/-- **What `main` prints** is what the stack held, and a sum that only depends on the trace and the
geometry. -/
theorem main_of_simulate (run : simulate s E b file = some (es, C)) (stats : Stats) :
    main s E b file stats =
      if (stats.add (rightSummary b es C)).IsLong ∧ ((stats.add (rightSummary b es C)).add lessOne).IsLong then
        some ((stats.add (rightSummary b es C)).add lessOne)
      else none := by
  obtain ⟨C₀, init, run⟩ := Option.bind_eq_some_iff.mp run
  obtain ⟨as, isAs, run⟩ := Option.bind_eq_some_iff.mp run
  have block : C₀.B = 2 ^ b := by
    unfold initCache at init
    split at init
    · obtain rfl := Option.some.inj init
      rfl
    · cases init
  have swept : sweep C (es.foldl (Stats.count C₀.B) stats) = stats.add (rightSummary b es C) := by
    rw [foldl_count, sweep_eq, block_of_accessAll run, block]
    simp [Stats.add, gainOf, rightSummary]
  have loads : C₀.loads stats as = some (C, es.foldl (Stats.count C₀.B) stats) := by
    rw [Cache.loads_eq, run, Option.map_some]
  have last : ∀ stats : Stats, { stats with dirtyEvictions := stats.dirtyEvictions - 1 } = stats.add lessOne := by
    intro stats
    ext <;> simp [Stats.add, lessOne, Int.sub_eq_add_neg]
  rw [main, init, isAs]
  simp only [Option.bind_eq_bind, Option.bind_some, loads, swept, last]

theorem main_of_not_simulate (noLine : simulate s E b file = none) (stats : Stats) : main s E b file stats = none := by
  rw [simulate] at noLine
  rw [main]
  cases init : initCache s E b with
  | none => rfl
  | some C₀ =>
      rw [init] at noLine
      cases isAs : accesses s b file with
      | none => rfl
      | some as =>
          rw [isAs] at noLine
          have loads : C₀.loads stats as = none := by
            rw [Cache.loads_eq, show C₀.accessAll as = none from noLine]
            rfl
          simp only [Option.bind_eq_bind, Option.bind_some, loads, Option.bind_none]

theorem rightSummary_accesses (b : Nat) (es : List Exit) (C : Cache) :
    (rightSummary b es C).hits + (rightSummary b es C).misses = es.length := by
  have parts := List.length_eq_countP_add_countP Exit.isHit (l := es)
  simp only [rightSummary]
  rw [parts]
  push_cast
  simp

theorem rightSummary_nonneg (b : Nat) (es : List Exit) (C : Cache) : 0 ≤ (rightSummary b es C).dirtyEvictions :=
  Int.mul_nonneg (Int.pow_nonneg (by decide)) (Int.natCast_nonneg _)

theorem leftover_lessOne (total : Stats) : (leftover.add total).add lessOne = total := by
  ext <;> simp [Stats.add, leftover, lessOne]

/-- The subtraction leaves a value of the type `long`. -/
theorem isLong_of_leftover {total : Stats} (nonneg : 0 ≤ total.dirtyEvictions) (long : (leftover.add total).IsLong) :
    total.IsLong := by
  simp [Stats.IsLong, Stats.add, leftover] at long ⊢
  omega

/-- The summary of a run is the right one: its five numbers are those of the trace and the geometry,
and each line that starts with `L` or `S` is a hit or a miss. -/
structure Correct (b : Nat) (file : List Char) (es : List Exit) (C : Cache) (summary : Stats) : Prop where
  right : summary = rightSummary b es C
  accesses : summary.hits + summary.misses = recordLines true file

/-- The right numbers, and the 1 that is subtracted, are values of the type `long`. -/
def Fits (s E b : Nat) (file : List Char) : Prop :=
  ∀ es C, simulate s E b file = some (es, C) → (leftover.add (rightSummary b es C)).IsLong

theorem correct_iff (run : simulate s E b file = some (es, C)) :
    (∃ summary, main s E b file stats = some summary ∧ Correct b file es C summary) ↔
      stats = leftover ∧ (records file).length = recordLines true file ∧ Fits s E b file := by
  have total := leftover_lessOne (rightSummary b es C)
  have read := length_of_simulate run
  have counted := rightSummary_accesses b es C
  rw [main_of_simulate run]
  constructor
  · rintro ⟨summary, prints, rfl, accesses⟩
    split at prints
    · next long =>
      have same : stats = leftover := by
        have sums := (Option.some.inj prints).trans total.symm
        rwa [Stats.add_assoc, Stats.add_assoc, Stats.add_right_cancel_iff] at sums
      refine ⟨same, by omega, fun es' C' run' => ?_⟩
      obtain ⟨rfl, rfl⟩ := Prod.mk.inj (Option.some.inj (run.symm.trans run'))
      exact same ▸ long.1
    · cases prints
  · rintro ⟨rfl, lines, fits⟩
    have long := fits es C run
    rw [total, if_pos ⟨long, isLong_of_leftover (rightSummary_nonneg b es C) long⟩]
    exact ⟨_, rfl, rfl, by omega⟩

/-- **When the summary is correct**, and when two are the same: it depends on what the stack
held before, and on the geometry. -/
theorem summary_correct (positive : 1 ≤ E) :
    ((∃ es C summary, simulate s E b file = some (es, C) ∧ main s E b file stats = some summary ∧
        Correct b file es C summary) ↔
      Geometry s b file ∧ stats = leftover ∧ (records file).length = recordLines true file ∧ Fits s E b file) ∧
      (ShortLines 29 file → (records file).length = recordLines true file) ∧
      ∀ stats' summary summary', main s E b file stats = some summary → main s E b file stats' = some summary' →
        (summary' = summary ↔ stats' = stats) := by
  refine ⟨?_, records_length, fun stats' summary summary' prints prints' => ?_⟩
  · constructor
    · rintro ⟨es, C, summary, run, prints, correct⟩
      exact ⟨(simulate_iff positive).mp ⟨es, C, run⟩, (correct_iff run).mp ⟨summary, prints, correct⟩⟩
    · rintro ⟨geometry, holds⟩
      obtain ⟨es, C, run⟩ := (simulate_iff positive).mpr geometry
      obtain ⟨summary, prints, correct⟩ := (correct_iff run).mpr holds
      exact ⟨es, C, summary, run, prints, correct⟩
  · cases run : simulate s E b file with
    | none =>
        rw [main_of_not_simulate run] at prints
        cases prints
    | some x =>
        obtain ⟨es, C⟩ := x
        rw [main_of_simulate run] at prints prints'
        split at prints
        · split at prints'
          · rw [← Option.some.inj prints, ← Option.some.inj prints', Stats.add_assoc, Stats.add_assoc]
            exact Stats.add_right_cancel_iff
          · cases prints'
        · cases prints

/-- One load, and a store to the same block. -/
def shortTrace : List Char := ['L', ' ', '0', ',', '1', '\n', 'S', ' ', '1', ',', '1', '\n']

theorem summary_correct_shortTrace :
    ((∃ es C summary, simulate 0 1 4 shortTrace = some (es, C) ∧ main 0 1 4 shortTrace leftover = some summary ∧
        Correct 4 shortTrace es C summary) ↔
      Geometry 0 4 shortTrace ∧ leftover = leftover ∧ (records shortTrace).length = recordLines true shortTrace ∧
        Fits 0 1 4 shortTrace) ∧
      (ShortLines 29 shortTrace → (records shortTrace).length = recordLines true shortTrace) ∧
      ∀ stats' summary summary', main 0 1 4 shortTrace leftover = some summary →
        main 0 1 4 shortTrace stats' = some summary' → (summary' = summary ↔ stats' = leftover) :=
  summary_correct (by decide)

/-- Where the stack held zeros, the number of evicted bytes is printed as -1. -/
theorem summary_correct_counterexample : ¬ ∀ (s E b : Nat) (file : List Char) (stats stats' summary summary' : Stats),
    1 ≤ E → main s E b file stats = some summary → main s E b file stats' = some summary' →
      (∃ es C, simulate s E b file = some (es, C) ∧ Correct b file es C summary) ∧ summary' = summary := by
  intro claim
  have zeros : main 0 1 4 shortTrace .zero = some ⟨1, 1, 0, 16, -1⟩ := by decide +kernel
  have ones : main 0 1 4 shortTrace ⟨1, 1, 1, 1, 1⟩ = some ⟨2, 2, 1, 17, 0⟩ := by decide +kernel
  have same := (claim 0 1 4 shortTrace _ _ _ _ (by decide) zeros ones).2
  cases same

end SystemsLabs.CacheSim
