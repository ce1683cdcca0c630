/-
# SystemsLabs.Transpose.Trans -- the transpose functions of `trans.c`

The functions of `trans.c` over the three arrays of their interface.  Every access is checked
against the bounds of its array and logged, as the tracer of the lab does, so `none` is an
access out of bounds or an assertion that fails.

A nest of loops visits a list of cells.  The plain nest and the two blocked ones visit the cells
of the matrix once each, in different orders (`plainCells`, `blockedCells`), and a visit moves one
element (`moveCell`).
-/
import Mathlib.Data.List.ProdSigma
import Mathlib.Data.List.Nodup
import Mathlib.LinearAlgebra.Matrix.RowCol
import SystemsLabs.Theory.Loops

namespace SystemsLabs.Transpose

open SystemsLabs.Theory.Loops

set_option autoImplicit false

universe u

abbrev TMPCOUNT : Nat := 256

/-- An access of the trace. -/
inductive Access where
  | loadA (i j : Nat)
  | storeB (j i : Nat)
  | loadTmp (k : Nat)
  | storeTmp (k : Nat)
deriving DecidableEq, Repr

/-- The arrays of a transpose function, and what it accessed so far. -/
structure Arrays (M N : Nat) (α : Type u) where
  A : Matrix (Fin N) (Fin M) α
  B : Matrix (Fin M) (Fin N) α
  tmp : Fin TMPCOUNT → α
  log : List Access

namespace Arrays

variable {M N : Nat} {α : Type u}

/-- `A[i][j]` -/
def loadA (i j : Nat) (s : Arrays M N α) : Option (α × Arrays M N α) :=
  if h : i < N ∧ j < M then some (s.A ⟨i, h.1⟩ ⟨j, h.2⟩, { s with log := s.log ++ [.loadA i j] }) else none

/-- `B[j][i] = v` -/
def storeB (j i : Nat) (v : α) (s : Arrays M N α) : Option (Arrays M N α) :=
  if h : j < M ∧ i < N then
    some { s with
      B := s.B.updateRow ⟨j, h.1⟩ (Function.update (s.B ⟨j, h.1⟩) ⟨i, h.2⟩ v)
      log := s.log ++ [.storeB j i] }
  else none

/-- `tmp[k]` -/
def loadTmp (k : Nat) (s : Arrays M N α) : Option (α × Arrays M N α) :=
  if h : k < TMPCOUNT then some (s.tmp ⟨k, h⟩, { s with log := s.log ++ [.loadTmp k] }) else none

/-- `tmp[k] = v` -/
def storeTmp (k : Nat) (v : α) (s : Arrays M N α) : Option (Arrays M N α) :=
  if h : k < TMPCOUNT then
    some { s with tmp := Function.update s.tmp ⟨k, h⟩ v, log := s.log ++ [.storeTmp k] }
  else none

/-- The comparisons of `is_transpose`, which the tracer does not see. -/
def isTranspose [BEq α] (s : Arrays M N α) : Bool :=
  (List.finRange N).all fun i => (List.finRange M).all fun j => s.A i j == s.B j i

/-- `B[j][i] = A[i][j]` -/
def moveCell (i j : Nat) (s : Arrays M N α) : Option (Arrays M N α) := do
  let (v, s) ← s.loadA i j
  s.storeB j i v

def transBasic [BEq α] (s : Arrays M N α) : Option (Arrays M N α) :=
  if M > 0 ∧ N > 0 then do
    let s ← forRange 0 N (fun i => forRange 0 M fun j => moveCell i j) s
    if s.isTranspose then some s else none
  else none

/-- The body of the loops of `trans_tmp`. -/
def tmpCell (i j : Nat) (s : Arrays M N α) : Option (Arrays M N α) := do
  let di := i % 2
  let dj := j % 2
  let (v, s) ← s.loadA i j
  let s ← s.storeTmp (i % TMPCOUNT) v
  let (v, s) ← s.loadTmp (i % TMPCOUNT)
  let s ← s.storeB j i v
  let (v, s) ← s.loadA i j
  let s ← s.storeTmp (2 * di + dj) v
  let (v, s) ← s.loadTmp (2 * di + dj)
  s.storeB j i v

def transTmp [BEq α] (s : Arrays M N α) : Option (Arrays M N α) :=
  if M > 0 ∧ N > 0 then do
    let s ← forRange 0 N (fun i => forRange 0 M fun j => tmpCell i j) s
    if s.isTranspose then some s else none
  else none

/-- The loops over `blocks` by `blocks` squares of side `side`. -/
def transBlocked (blocks side : Nat) : Arrays M N α → Option (Arrays M N α) :=
  forRange 0 blocks fun ii => forRange 0 blocks fun jj =>
    forRange (side * ii) (side * (ii + 1)) fun i => forRange (side * jj) (side * (jj + 1)) fun j => moveCell i j

def transposeSubmit [BEq α] (s : Arrays M N α) : Option (Arrays M N α) :=
  if M = 32 ∧ N = 32 then transBlocked (M / 8) (M / 4) s
  else if M = 1024 ∧ N = 1024 then transBlocked (M / 8) (M / 128) s
  else transBasic s

end Arrays

/-! ## The cells a nest of loops visits -/

/-- Row by row. -/
def plainCells (M N : Nat) : List (Nat × Nat) := List.range' 0 N ×ˢ List.range' 0 M

/-- Square by square, each row by row. -/
def blockedCells (blocks side : Nat) : List (Nat × Nat) :=
  (List.range' 0 blocks ×ˢ List.range' 0 blocks).flatMap fun x =>
    List.range' (side * x.1) side ×ˢ List.range' (side * x.2) side

theorem mem_counter {n i : Nat} : i ∈ List.range' 0 n ↔ i < n := by
  rw [List.mem_range'_1]
  omega

theorem mem_plainCells {M N : Nat} {x : Nat × Nat} : x ∈ plainCells M N ↔ x.1 < N ∧ x.2 < M := by
  obtain ⟨i, j⟩ := x
  rw [plainCells, List.mem_product, mem_counter, mem_counter]

theorem plainCells_nodup (M N : Nat) : (plainCells M N).Nodup :=
  List.Nodup.product List.nodup_range' List.nodup_range'

/-- A number is in the square of its quotient. -/
theorem mem_square {side ii i : Nat} : i ∈ List.range' (side * ii) side ↔ 0 < side ∧ i / side = ii := by
  rw [List.mem_range'_1]
  constructor
  · rintro ⟨lo, hi⟩
    have positive : 0 < side := by omega
    exact ⟨positive, Nat.div_eq_of_lt_le (Nat.mul_comm side ii ▸ lo) (by rw [Nat.add_one_mul, Nat.mul_comm]; exact hi)⟩
  · rintro ⟨positive, rfl⟩
    have split := Nat.div_add_mod i side
    have := Nat.mod_lt i positive
    omega

theorem mem_blockedCells {blocks side : Nat} {x : Nat × Nat} :
    x ∈ blockedCells blocks side ↔ x.1 < blocks * side ∧ x.2 < blocks * side := by
  obtain ⟨i, j⟩ := x
  simp only [blockedCells, List.mem_flatMap, Prod.exists, List.mem_product, mem_square, mem_counter]
  constructor
  · rintro ⟨ii, jj, ⟨iiLt, jjLt⟩, ⟨positive, rfl⟩, -, rfl⟩
    exact ⟨(Nat.div_lt_iff_lt_mul positive).mp iiLt, (Nat.div_lt_iff_lt_mul positive).mp jjLt⟩
  · rintro ⟨iLt, jLt⟩
    have positive : 0 < side := Nat.pos_of_ne_zero fun zero => by simp [zero] at iLt
    rw [← Nat.div_lt_iff_lt_mul positive] at iLt jLt
    exact ⟨_, _, ⟨iLt, jLt⟩, ⟨positive, rfl⟩, positive, rfl⟩

/-- Two squares have no cell in common, as their cells have different quotients. -/
theorem blockedCells_nodup (blocks side : Nat) : (blockedCells blocks side).Nodup := by
  rw [blockedCells, List.nodup_flatMap]
  refine ⟨fun x _ => List.Nodup.product List.nodup_range' List.nodup_range', ?_⟩
  have squares : (List.range' 0 blocks ×ˢ List.range' 0 blocks).Nodup :=
    List.Nodup.product List.nodup_range' List.nodup_range'
  refine squares.imp fun {x y} differ => ?_
  rintro ⟨i, j⟩ inX inY
  obtain ⟨rowX, columnX⟩ := List.mem_product.mp inX
  obtain ⟨rowY, columnY⟩ := List.mem_product.mp inY
  apply differ
  ext
  · exact (mem_square.mp rowX).2.symm.trans (mem_square.mp rowY).2
  · exact (mem_square.mp columnX).2.symm.trans (mem_square.mp columnY).2

namespace Arrays

variable {M N : Nat} {α : Type u}

theorem transBlocked_eq (blocks side : Nat) (s : Arrays M N α) :
    transBlocked blocks side s = walk (blockedCells blocks side) (fun x => moveCell x.1 x.2) s := by
  have squares : ∀ ii jj : Nat, (forRange (side * ii) (side * (ii + 1)) fun i =>
      forRange (side * jj) (side * (jj + 1)) fun j => moveCell (α := α) (M := M) (N := N) i j) =
      walk (List.range' (side * ii) side ×ˢ List.range' (side * jj) side) fun x => moveCell x.1 x.2 := by
    intro ii jj
    rw [forRange_forRange, Nat.mul_add_one, Nat.mul_add_one, Nat.add_sub_cancel_left, Nat.add_sub_cancel_left]
  unfold transBlocked blockedCells
  simp only [squares]
  rw [forRange_forRange, walk_flatMap]
  rfl

/-! ## What a visit does -/

/-- The cells of B that were stored to. -/
def stored (s : Arrays M N α) : List (Nat × Nat) :=
  s.log.filterMap fun access => match access with
    | .storeB j i => some (j, i)
    | _ => none

theorem loadA_eq (i : Fin N) (j : Fin M) (s : Arrays M N α) :
    s.loadA i j = some (s.A i j, { s with log := s.log ++ [.loadA i j] }) := dif_pos ⟨i.isLt, j.isLt⟩

theorem storeB_eq (i : Fin N) (j : Fin M) (v : α) (s : Arrays M N α) : s.storeB j i v =
    some { s with B := s.B.updateRow j (Function.update (s.B j) i v), log := s.log ++ [.storeB j i] } :=
  dif_pos ⟨j.isLt, i.isLt⟩

theorem loadTmp_eq {k : Nat} (inside : k < TMPCOUNT) (s : Arrays M N α) :
    s.loadTmp k = some (s.tmp ⟨k, inside⟩, { s with log := s.log ++ [.loadTmp k] }) := dif_pos inside

theorem storeTmp_eq {k : Nat} (inside : k < TMPCOUNT) (v : α) (s : Arrays M N α) : s.storeTmp k v =
    some { s with tmp := Function.update s.tmp ⟨k, inside⟩ v, log := s.log ++ [.storeTmp k] } := dif_pos inside

/-- `B[j][i] = A[i][j]`, by that many stores. -/
structure Visit (times : Nat) (i : Fin N) (j : Fin M) (s s' : Arrays M N α) : Prop where
  A : s'.A = s.A
  B : s'.B = s.B.updateRow j (Function.update (s.B j) i (s.A i j))
  stored : s'.stored = s.stored ++ List.replicate times (j.val, i.val)

theorem Visit.apply {times : Nat} {i : Fin N} {j : Fin M} {s s' : Arrays M N α} (visit : Visit times i j s s')
    (j' : Fin M) (i' : Fin N) : s'.B j' i' = if j' = j ∧ i' = i then s.A i j else s.B j' i' := by
  rw [visit.B, Matrix.updateRow_apply]
  by_cases row : j' = j
  · subst row
    by_cases column : i' = i
    · simp [column]
    · simp [column]
  · simp [row]

theorem moveCell_visit (i : Fin N) (j : Fin M) (s : Arrays M N α) :
    ∃ s', moveCell i j s = some s' ∧ Visit 1 i j s s' := by
  unfold moveCell
  simp only [loadA_eq, storeB_eq, Option.bind_eq_bind, Option.bind_some]
  exact ⟨_, rfl, rfl, rfl, by simp [stored]⟩

/-- The second store of `trans_tmp` writes what the first one wrote: what goes through a slot of
`tmp` is read back before a slot is written again. -/
theorem tmpCell_visit (i : Fin N) (j : Fin M) (s : Arrays M N α) :
    ∃ s', tmpCell i j s = some s' ∧ Visit 2 i j s s' := by
  have first : i.val % TMPCOUNT < TMPCOUNT := Nat.mod_lt _ (by decide)
  have second : 2 * (i.val % 2) + j.val % 2 < TMPCOUNT := by
    have : i.val % 2 < 2 := Nat.mod_lt _ (by decide)
    have : j.val % 2 < 2 := Nat.mod_lt _ (by decide)
    show _ < 256
    omega
  unfold tmpCell
  simp only [loadA_eq, storeB_eq, loadTmp_eq first, storeTmp_eq first, loadTmp_eq second, storeTmp_eq second,
    Option.bind_eq_bind, Option.bind_some, Function.update_self]
  refine ⟨_, rfl, rfl, ?_, by simp [stored]⟩
  rw [Matrix.updateRow_idem, Matrix.updateRow_self, Function.update_idem]

/-- The visits so far moved their elements. -/
structure Progress (times : Nat) (s : Arrays M N α) (done : List (Nat × Nat)) (s' : Arrays M N α) : Prop where
  A : s'.A = s.A
  moved : ∀ (i : Fin N) (j : Fin M), (i.val, j.val) ∈ done → s'.B j i = s.A i j
  stored : s'.stored = s.stored ++ done.flatMap fun x => List.replicate times (x.2, x.1)

theorem Progress.start (times : Nat) (s : Arrays M N α) : Progress times s [] s :=
  ⟨rfl, by simp, (List.append_nil _).symm⟩

theorem Progress.visit {times : Nat} {s s₁ s₂ : Arrays M N α} {done : List (Nat × Nat)} {i : Fin N} {j : Fin M}
    (progress : Progress times s done s₁) (visit : Visit times i j s₁ s₂) :
    Progress times s (done ++ [(i.val, j.val)]) s₂ where
  A := visit.A.trans progress.A
  moved i' j' member := by
    rw [visit.apply, progress.A]
    split
    · next here => rw [here.1, here.2]
    · next elsewhere =>
      refine progress.moved i' j' ((List.mem_append.mp member).resolve_right fun last => elsewhere ?_)
      simpa [Fin.ext_iff, and_comm] using last
  stored := by simp [visit.stored, progress.stored]

/-- **A nest of loops that visits every cell transposes the matrix.** -/
theorem walk_transposes {times : Nat} {cells : List (Nat × Nat)} {body : Nat × Nat → Arrays M N α → Option (Arrays M N α)}
    (visits : ∀ (i : Fin N) (j : Fin M) s, ∃ s', body (i.val, j.val) s = some s' ∧ Visit times i j s s')
    (covers : ∀ x, x ∈ cells ↔ x.1 < N ∧ x.2 < M) (s : Arrays M N α) :
    ∃ s', walk cells body s = some s' ∧ s'.A = s.A ∧ s'.B = s.A.transpose ∧
      s'.stored = s.stored ++ cells.flatMap fun x => List.replicate times (x.2, x.1) := by
  have step : ∀ done x rest s₁, cells = done ++ x :: rest → Progress times s done s₁ →
      ∃ s₂, body x s₁ = some s₂ ∧ Progress times s (done ++ [x]) s₂ := by
    rintro done ⟨i, j⟩ rest s₁ split progress
    obtain ⟨iLt, jLt⟩ := (covers (i, j)).mp (by simp [split])
    obtain ⟨s₂, step, visit⟩ := visits ⟨i, iLt⟩ ⟨j, jLt⟩ s₁
    exact ⟨s₂, step, progress.visit visit⟩
  obtain ⟨s', run, progress⟩ := walk_invariant (Progress times s) (Progress.start times s) step
  refine ⟨s', run, progress.A, ?_, progress.stored⟩
  ext j i
  exact progress.moved i j ((covers _).mpr ⟨i.isLt, j.isLt⟩)

/-! ## The transpose functions -/

/-- Each cell of B is stored to that many times. -/
def StoredEach (times : Nat) (s s' : Arrays M N α) : Prop :=
  ∃ cells, s'.stored = s.stored ++ cells ∧ ∀ j i, cells.count (j, i) = if j < M ∧ i < N then times else 0

/-- What is asked of a transpose function: it returns, `A` stays and `B` is its transpose.  The
stores are those to the cells of B, that many to each. -/
def Transposes (times : Nat) (s : Arrays M N α) (result : Option (Arrays M N α)) : Prop :=
  ∃ s', result = some s' ∧ s'.A = s.A ∧ s'.B = s.A.transpose ∧ StoredEach times s s'

theorem count_stores (times : Nat) (cells : List (Nat × Nat)) (j i : Nat) :
    (cells.flatMap fun x => List.replicate times (x.2, x.1)).count (j, i) = times * cells.count (i, j) := by
  induction cells with
  | nil => rfl
  | cons x cells ih =>
      obtain ⟨i', j'⟩ := x
      rw [List.flatMap_cons, List.count_append, ih, List.count_replicate, List.count_cons, Nat.mul_add]
      by_cases same : i' = i ∧ j' = j
      · simp [same, Nat.add_comm]
      · have differ : ¬ (j' = j ∧ i' = i) := fun h => same h.symm
        simp [same, differ]

/-- A nest that visits every cell once transposes the matrix, by equally many stores to each cell. -/
theorem transposes_of_walk {times : Nat} {cells : List (Nat × Nat)}
    {body : Nat × Nat → Arrays M N α → Option (Arrays M N α)}
    (visits : ∀ (i : Fin N) (j : Fin M) s, ∃ s', body (i.val, j.val) s = some s' ∧ Visit times i j s s')
    (covers : ∀ x, x ∈ cells ↔ x.1 < N ∧ x.2 < M) (nodup : cells.Nodup) (s : Arrays M N α) :
    Transposes times s (walk cells body s) := by
  obtain ⟨s', run, sameA, transposed, stores⟩ := walk_transposes visits covers s
  refine ⟨s', run, sameA, transposed, _, stores, fun j i => ?_⟩
  rw [count_stores]
  by_cases inside : (i, j) ∈ cells
  · rw [List.count_eq_one_of_mem nodup inside, if_pos ((covers _).mp inside).symm, Nat.mul_one]
  · rw [List.count_eq_zero.mpr inside, if_neg fun h => inside ((covers _).mpr h.symm), Nat.mul_zero]

/-- The blocked loops do it where their squares make up the matrix. -/
theorem transBlocked_transposes (blocks side : Nat) (s : Arrays (blocks * side) (blocks * side) α) :
    Transposes 1 s (transBlocked blocks side s) := by
  rw [transBlocked_eq]
  exact transposes_of_walk (fun i j s => moveCell_visit i j s) (fun _ => mem_blockedCells)
    (blockedCells_nodup blocks side) s

section Asserted

variable [BEq α] [ReflBEq α]

/-- The assertion at the end holds. -/
theorem isTranspose_of {s : Arrays M N α} (transposed : s.B = s.A.transpose) : s.isTranspose = true := by
  simp only [isTranspose, List.all_eq_true, transposed]
  intro i _ j _
  exact beq_self_eq_true _

/-- The plain nest, its body and the assertions around it. -/
theorem plain_transposes {times : Nat} {body : Nat → Nat → Arrays M N α → Option (Arrays M N α)}
    (visits : ∀ (i : Fin N) (j : Fin M) s, ∃ s', body i j s = some s' ∧ Visit times i j s s')
    (posM : 0 < M) (posN : 0 < N) (s : Arrays M N α) :
    Transposes times s (if M > 0 ∧ N > 0 then do
      let s ← forRange 0 N (fun i => forRange 0 M fun j => body i j) s
      if s.isTranspose then some s else none
    else none) := by
  have whole : Transposes times s (forRange 0 N (fun i => forRange 0 M fun j => body i j) s) := by
    rw [forRange_forRange]
    exact transposes_of_walk visits (fun _ => mem_plainCells) (plainCells_nodup M N) s
  obtain ⟨s', run, sameA, transposed, stores⟩ := whole
  refine ⟨s', ?_, sameA, transposed, stores⟩
  have holds : s'.isTranspose = true := isTranspose_of (by rw [transposed, sameA])
  rw [if_pos ⟨posM, posN⟩, run, Option.bind_eq_bind, Option.bind_some, if_pos holds]

theorem transposeSubmit_transposes (posM : 0 < M) (posN : 0 < N) (s : Arrays M N α) :
    Transposes 1 s s.transposeSubmit := by
  unfold transposeSubmit
  split
  · next small =>
    obtain ⟨rfl, rfl⟩ := small
    exact transBlocked_transposes 4 8 s
  split
  · next large =>
    obtain ⟨rfl, rfl⟩ := large
    exact transBlocked_transposes 128 8 s
  · exact plain_transposes moveCell_visit posM posN s

/-- **The transpose functions are right for every size**, with every access in bounds, and the
blocked loops store to every cell once, as the plain ones do. -/
theorem transpose_correct (posM : 0 < M) (posN : 0 < N) (s : Arrays M N α) :
    Transposes 1 s s.transposeSubmit ∧ Transposes 1 s s.transBasic ∧ Transposes 2 s s.transTmp ∧
      s.transposeSubmit.map Arrays.B = s.transBasic.map Arrays.B := by
  have submit := transposeSubmit_transposes posM posN s
  have basic : Transposes 1 s s.transBasic := plain_transposes moveCell_visit posM posN s
  refine ⟨submit, basic, plain_transposes tmpCell_visit posM posN s, ?_⟩
  obtain ⟨s₁, run₁, -, transposed₁, -⟩ := submit
  obtain ⟨s₂, run₂, -, transposed₂, -⟩ := basic
  rw [run₁, run₂, Option.map_some, Option.map_some, transposed₁, transposed₂]

end Asserted

end Arrays

/-- A matrix that takes the blocked loops. -/
theorem transpose_correct_blocked :
    let s : Arrays 32 32 Nat := ⟨fun i j => i * j, fun _ _ => 0, fun _ => 0, []⟩
    Arrays.Transposes 1 s s.transposeSubmit ∧ Arrays.Transposes 1 s s.transBasic ∧ Arrays.Transposes 2 s s.transTmp ∧
      s.transposeSubmit.map Arrays.B = s.transBasic.map Arrays.B :=
  Arrays.transpose_correct (by decide) (by decide) _

end SystemsLabs.Transpose
