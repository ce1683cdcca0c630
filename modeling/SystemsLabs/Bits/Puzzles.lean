/-
# SystemsLabs.Bits.Puzzles -- the integer functions of `bits.c`

A `long` is a `BitVec 64` and `>>` shifts arithmetically, as the rules of the file let a
solution assume.  The `test_` functions of `tests.c` are the references.

* `subtractionOK` is right but for the most negative `y`, which is its own negation
  (`subtractionOK_iff`);
* `howManyBits` halves the range of the highest bit six times, and finds what the loop of
  the reference counts (`howManyBits_correct`).
-/
import Mathlib.Algebra.Group.Int.Defs
import Mathlib.Algebra.Group.Nat.Defs
import Mathlib.Data.Nat.Size
import Mathlib.Order.Bounds.Basic
import Mathlib.Tactic.Common

namespace SystemsLabs.Bits

set_option autoImplicit false

abbrev Long := BitVec 64

/-- The operator `!`, whose value is an `int`. -/
def lnot (x : Long) : Long := if x = 0 then 1 else 0

/-! ## Subtraction -/

def subtractionOK (x y : Long) : Long :=
  let z := ~~~ y + 0x1
  let zPos := lnot (z.sshiftRight 63)
  let xPos := lnot (x.sshiftRight 63)
  let sum := x + z
  let sumPos := lnot (sum.sshiftRight 63)
  lnot ((zPos &&& xPos &&& ~~~ sumPos) ||| (~~~ zPos &&& ~~~ xPos &&& sumPos))

/-- The difference is taken as an `__int128` and compared with its low half. -/
def testSubtractionOK (x y : Long) : Long :=
  let ldiff : BitVec 128 := x.signExtend 128 - y.signExtend 128
  if ldiff = (ldiff.setWidth 64).signExtend 128 then 1 else 0

/-- The values of the type `long`. -/
def IsLong (n : Int) : Prop := - 2 ^ 63 ≤ n ∧ n < 2 ^ 63

instance (n : Int) : Decidable (IsLong n) := inferInstanceAs (Decidable (_ ∧ _))

theorem isLong_toInt (x : Long) : IsLong x.toInt := by
  have lo := BitVec.le_toInt x
  have hi := BitVec.toInt_lt (x := x)
  exact ⟨by simpa using lo, by simpa using hi⟩

/-- A shift by 63 copies the sign into every bit. -/
theorem sshiftRight_sign (x : Long) : x.sshiftRight 63 = if x.toInt < 0 then BitVec.allOnes 64 else 0 := by
  have sign : x.msb = decide (x.toInt < 0) := BitVec.msb_eq_toInt
  have copies : ∀ i, i < 64 → (x.sshiftRight 63).getLsbD i = x.msb := by
    intro i inside
    rw [BitVec.getLsbD_sshiftRight, BitVec.msb_eq_getLsbD_last]
    by_cases first : i = 0
    · simp [first]
    · simp [show ¬ 63 + i < 64 by omega, inside]
  apply BitVec.eq_of_getLsbD_eq
  intro i inside
  rw [copies i inside, sign]
  split
  · next negative => rw [BitVec.getLsbD_allOnes, decide_eq_true negative, decide_eq_true inside]
  · next positive => simp [positive]

/-- The sign test of the puzzles: `!(x >> 63)`. -/
theorem lnot_sign (x : Long) : lnot (x.sshiftRight 63) = if x.toInt < 0 then 0 else 1 := by
  rw [sshiftRight_sign, lnot]
  split <;> rfl

/-- What `subtractionOK` answers, in terms of the signs of its three numbers. -/
theorem subtractionOK_eq (x y : Long) : subtractionOK x y =
    if 0 ≤ (-y).toInt ∧ 0 ≤ x.toInt ∧ (x + -y).toInt < 0 ∨
      (-y).toInt < 0 ∧ x.toInt < 0 ∧ 0 ≤ (x + -y).toInt then 0 else 1 := by
  have negated : ~~~ y + 0x1 = -y := (BitVec.neg_eq_not_add y).symm
  simp only [subtractionOK, negated, lnot_sign, ← not_lt]
  generalize (-y).toInt = z, x.toInt = x, (x + -y).toInt = sum
  by_cases negZ : z < 0 <;> by_cases negX : x < 0 <;> by_cases negSum : sum < 0 <;>
    simp [negZ, negX, negSum, lnot]

/-- The sum of two numbers overflows where both have one sign and it has the other. -/
theorem isLong_add (a b : Long) : IsLong (a.toInt + b.toInt) ↔
    ¬ (0 ≤ b.toInt ∧ 0 ≤ a.toInt ∧ (a + b).toInt < 0 ∨ b.toInt < 0 ∧ a.toInt < 0 ∧ 0 ≤ (a + b).toInt) := by
  have rangeA := isLong_toInt a
  have rangeB := isLong_toInt b
  unfold IsLong at *
  rw [BitVec.toInt_add, Int.bmod_def]
  omega

/-- `subtractionOK` answers for the sum with what the machine makes of the negated `y`. -/
theorem subtractionOK_sum (x y : Long) :
    subtractionOK x y = if IsLong (x.toInt + (-y).toInt) then 1 else 0 := by
  rw [subtractionOK_eq, if_congr (isLong_add x (-y)) rfl rfl, ite_not]

/-- The reference answers the question. -/
theorem testSubtractionOK_eq (x y : Long) :
    testSubtractionOK x y = if IsLong (x.toInt - y.toInt) then 1 else 0 := by
  have rangeX := isLong_toInt x
  have rangeY := isLong_toInt y
  have diff : (x.signExtend 128 - y.signExtend 128).toInt = x.toInt - y.toInt := by
    rw [BitVec.toInt_sub, BitVec.toInt_signExtend_of_le (by decide), BitVec.toInt_signExtend_of_le (by decide)]
    unfold IsLong at *
    rw [Int.bmod_def]
    omega
  unfold testSubtractionOK
  refine if_congr ?_ rfl rfl
  rw [← BitVec.toInt_inj, BitVec.toInt_signExtend_of_le (by decide), BitVec.toInt_setWidth]
  generalize x.signExtend 128 - y.signExtend 128 = ldiff at diff ⊢
  have range := ldiff.isLt
  have read := BitVec.toInt_eq_toNat_cond ldiff
  unfold IsLong at *
  rw [Int.bmod_def]
  split at read <;> omega

/-- `subtractionOK` tells whether the difference is a `long`, as its reference does. -/
def SubtractionRight (x y : Long) : Prop :=
  subtractionOK x y = (if IsLong (x.toInt - y.toInt) then 1 else 0) ∧ subtractionOK x y = testSubtractionOK x y

/-- **`subtractionOK` is right for every `y` but the most negative one**, which its negation
leaves as it is: with that it is wrong for every `x`. -/
theorem subtractionOK_iff (x y : Long) : SubtractionRight x y ↔ y ≠ BitVec.intMin 64 := by
  unfold SubtractionRight
  rw [testSubtractionOK_eq, and_self, subtractionOK_sum]
  constructor
  · rintro right rfl
    have range := isLong_toInt x
    have least : (BitVec.intMin 64).toInt = - 2 ^ 63 := by decide
    have flipped : IsLong (x.toInt - (BitVec.intMin 64).toInt) ↔ ¬ IsLong (x.toInt + (BitVec.intMin 64).toInt) := by
      unfold IsLong at *
      omega
    rw [BitVec.neg_intMin, if_congr flipped rfl rfl, ite_not] at right
    split at right <;> exact absurd right (by decide)
  · intro notMin
    rw [BitVec.toInt_neg_of_ne_intMin notMin, Int.sub_eq_add_neg]

/-- The example of the source, of the most negative number and itself. -/
theorem subtractionOK_iff_counterexample : ¬ ∀ x y : Long, SubtractionRight x y := by
  intro claim
  have right := (claim (BitVec.intMin 64) (BitVec.intMin 64)).1
  exact absurd right (by decide)

/-! ## Counting bits -/

/-- `!!(y >> 2 ^ k) << k`: the step of the search by `2 ^ k`. -/
def searchStep (y : Long) (k : Nat) : Long := lnot (lnot (y.sshiftRight (2 ^ k))) <<< k

def howManyBits (x : Long) : Long :=
  let y := (~~~ x.sshiftRight 63 &&& x) ||| (x.sshiftRight 63 &&& ~~~ x)
  let b32 := searchStep y 5
  let y := y.sshiftRight b32.toNat
  let b16 := searchStep y 4
  let y := y.sshiftRight b16.toNat
  let b8 := searchStep y 3
  let y := y.sshiftRight b8.toNat
  let b4 := searchStep y 2
  let y := y.sshiftRight b4.toNat
  let b2 := searchStep y 1
  let y := y.sshiftRight b2.toNat
  let b1 := lnot (lnot (y.sshiftRight 1))
  let y := y.sshiftRight b1.toNat
  let b0 := y
  let sum := b0 + b1 + b2 + b4 + b8 + b16 + b32
  -- MSB is sign bit
  sum + 0x1

/-- The loop of the reference. -/
def countBits (a cnt : Long) : Long :=
  if ended : a = 0 then cnt else countBits (a >>> 1) (cnt + 1)
termination_by a.toNat
decreasing_by
  have positive : a.toNat ≠ 0 := fun zero => ended (BitVec.eq_of_toNat_eq zero)
  rw [BitVec.toNat_ushiftRight, Nat.shiftRight_eq_div_pow]
  omega

def testHowManyBits (x : Long) : Long :=
  -- Flip the bits if x is negative
  let x := if x.slt 0 then ~~~ x else x
  countBits x 1

/-- The number that is searched for its highest bit. -/
def magnitude (x : Long) : Nat := if x.toInt < 0 then (~~~ x).toNat else x.toNat

theorem magnitude_lt (x : Long) : magnitude x < 2 ^ 63 := by
  have read := BitVec.toInt_eq_toNat_cond x
  have range := x.isLt
  unfold magnitude
  rw [BitVec.toNat_not]
  split at read <;> split <;> omega

theorem size_div {n k : Nat} (long : k ≤ n.size) : n.size = (n / 2 ^ k).size + k := by
  have shifted : ∀ m, n / 2 ^ k < 2 ^ m ↔ n < 2 ^ (m + k) := fun m => by
    rw [Nat.div_lt_iff_lt_mul (Nat.two_pow_pos k), Nat.pow_add]
  apply Nat.le_antisymm
  · rw [Nat.size_le, ← shifted]
    exact Nat.lt_size_self _
  · have short : (n / 2 ^ k).size ≤ n.size - k := by
      rw [Nat.size_le, shifted, Nat.sub_add_cancel long]
      exact Nat.lt_size_self n
    omega

theorem toNat_sshiftRight_of_lt {y : Long} (positive : y.toNat < 2 ^ 63) (n : Nat) :
    (y.sshiftRight n).toNat = y.toNat / 2 ^ n := by
  have sign : y.msb = false := BitVec.msb_eq_false_iff_two_mul_lt.mpr (by omega)
  rw [BitVec.toNat_sshiftRight_of_msb_false sign, Nat.shiftRight_eq_div_pow]

theorem searchStep_toNat {y : Long} {k : Nat} (small : k ≤ 5) (positive : y.toNat < 2 ^ 63) :
    (searchStep y k).toNat = if y.toNat < 2 ^ 2 ^ k then 0 else 2 ^ k := by
  have zero : y.sshiftRight (2 ^ k) = 0 ↔ y.toNat < 2 ^ 2 ^ k := by
    rw [← BitVec.toNat_inj, toNat_sshiftRight_of_lt positive]
    exact Nat.div_eq_zero_iff_lt (Nat.two_pow_pos _)
  unfold searchStep lnot
  by_cases short : y.toNat < 2 ^ 2 ^ k
  · rw [if_pos (zero.mpr short), if_neg (by decide), if_pos short, BitVec.toNat_shiftLeft]
    exact congrArg (· % 2 ^ 64) (Nat.zero_shiftLeft k)
  · have power : 2 ^ k < 2 ^ 64 := Nat.pow_lt_pow_right (by decide) (by omega)
    rw [if_neg (mt zero.mp short), if_pos rfl, if_neg short, BitVec.toNat_shiftLeft, Nat.shiftLeft_eq]
    simpa using Nat.mod_eq_of_lt power

/-- A shift by what a step finds leaves a number of half as many bits, and the step counts
the others. -/
theorem searchStep_spec {y : Long} {k : Nat} (small : k ≤ 5) (positive : y.toNat < 2 ^ 63)
    (range : y.toNat < 2 ^ 2 ^ (k + 1)) :
    (y.sshiftRight (searchStep y k).toNat).toNat < 2 ^ 2 ^ k ∧
      y.toNat.size = (y.sshiftRight (searchStep y k).toNat).toNat.size + (searchStep y k).toNat := by
  rw [toNat_sshiftRight_of_lt positive, searchStep_toNat small positive]
  by_cases short : y.toNat < 2 ^ 2 ^ k
  · rw [if_pos short, Nat.pow_zero, Nat.div_one]
    exact ⟨short, rfl⟩
  · rw [if_neg short]
    refine ⟨?_, size_div (Nat.lt_size.mpr (Nat.not_lt.mp short)).le⟩
    rwa [Nat.div_lt_iff_lt_mul (Nat.two_pow_pos _), ← Nat.pow_add, ← Nat.two_mul, ← Nat.pow_succ']

theorem countBits_toNat (a cnt : Long) (fits : cnt.toNat + a.toNat.size < 2 ^ 64) :
    (countBits a cnt).toNat = cnt.toNat + a.toNat.size := by
  induction a, cnt using countBits.induct with
  | case1 cnt =>
      rw [countBits, dif_pos rfl]
      simp
  | case2 a cnt positive ih =>
      have long : 1 ≤ a.toNat.size :=
        Nat.size_pos.mpr (Nat.pos_of_ne_zero fun zero => positive (BitVec.eq_of_toNat_eq zero))
      have shifted : (a >>> 1).toNat = a.toNat / 2 ^ 1 := by
        rw [BitVec.toNat_ushiftRight, Nat.shiftRight_eq_div_pow]
      have one := size_div long
      have next : (cnt + 1).toNat = cnt.toNat + 1 := by
        rw [BitVec.toNat_add]
        exact Nat.mod_eq_of_lt (show cnt.toNat + 1 < 2 ^ 64 by omega)
      rw [shifted] at ih
      rw [countBits, dif_neg positive, ih (by omega), next]
      omega

/-- The first line of the puzzle complements a negative number. -/
theorem folded_toNat (x : Long) :
    ((~~~ x.sshiftRight 63 &&& x) ||| (x.sshiftRight 63 &&& ~~~ x)).toNat = magnitude x := by
  unfold magnitude
  rw [sshiftRight_sign]
  split
  · rw [BitVec.not_allOnes, BitVec.zero_and, BitVec.allOnes_and, BitVec.zero_or]
  · rw [show ~~~ (0 : Long) = BitVec.allOnes 64 from BitVec.not_zero, BitVec.allOnes_and,
      show (0 : Long) &&& ~~~ x = 0 from BitVec.zero_and, show x ||| (0 : Long) = x from BitVec.or_zero]

theorem howManyBits_toNat (x : Long) : (howManyBits x).toNat = (magnitude x).size + 1 := by
  have range := magnitude_lt x
  rw [← folded_toNat] at range ⊢
  unfold howManyBits
  extract_lets y b32 y₁ b16 y₂ b8 y₃ b4 y₄ b2 y₅ b1 y₆ b0 sum
  have last : searchStep y₅ 0 = b1 := BitVec.shiftLeft_zero _
  -- each step halves the range and counts the bits it drops
  have step₁ : y₁.toNat < 2 ^ 32 ∧ y.toNat.size = y₁.toNat.size + b32.toNat :=
    searchStep_spec le_rfl range (Nat.lt_trans range (by decide))
  have step₂ : y₂.toNat < 2 ^ 16 ∧ y₁.toNat.size = y₂.toNat.size + b16.toNat :=
    searchStep_spec (by decide) (by omega) step₁.1
  have step₃ : y₃.toNat < 2 ^ 8 ∧ y₂.toNat.size = y₃.toNat.size + b8.toNat :=
    searchStep_spec (by decide) (by omega) step₂.1
  have step₄ : y₄.toNat < 2 ^ 4 ∧ y₃.toNat.size = y₄.toNat.size + b4.toNat :=
    searchStep_spec (by decide) (by omega) step₃.1
  have step₅ : y₅.toNat < 2 ^ 2 ∧ y₄.toNat.size = y₅.toNat.size + b2.toNat :=
    searchStep_spec (by decide) (by omega) step₄.1
  have step₆ : y₆.toNat < 2 ∧ y₅.toNat.size = y₆.toNat.size + b1.toNat := by
    have step := searchStep_spec (k := 0) (by decide) (by omega) step₅.1
    rw [last] at step
    exact step
  have bit : y₆.toNat.size = y₆.toNat := by
    obtain zero | one : y₆.toNat = 0 ∨ y₆.toNat = 1 := by omega
    · rw [zero, Nat.size_zero]
    · rw [one, Nat.size_one]
  have total : y.toNat.size ≤ 63 := Nat.size_le.mpr range
  have digits : y.toNat.size = b0.toNat + b1.toNat + b2.toNat + b4.toNat + b8.toNat + b16.toNat + b32.toNat := by
    show _ = y₆.toNat + _ + _ + _ + _ + _ + _
    omega
  show (b0 + b1 + b2 + b4 + b8 + b16 + b32 + 1).toNat = _
  rw [digits] at total ⊢
  simp only [BitVec.toNat_add, show (1 : Long).toNat = 1 from rfl]
  omega

/-- How many bits a number needs is how many its magnitude has, and one for the sign. -/
theorem magnitude_size (x : Long) (n : Nat) :
    (magnitude x).size ≤ n ↔ - 2 ^ n ≤ x.toInt ∧ x.toInt < 2 ^ n := by
  have read := BitVec.toInt_eq_toNat_cond x
  have range := x.isLt
  have power : (2 : Int) ^ n = (2 ^ n : Nat) := by push_cast; rfl
  rw [Nat.size_le, power]
  unfold magnitude
  rw [BitVec.toNat_not]
  split at read <;> split <;> omega

theorem testHowManyBits_toNat (x : Long) : (testHowManyBits x).toNat = (magnitude x).size + 1 := by
  have short : (magnitude x).size ≤ 63 := Nat.size_le.mpr (magnitude_lt x)
  have flipped : (if x.slt 0 then ~~~ x else x).toNat = magnitude x := by
    unfold magnitude BitVec.slt
    simp only [decide_eq_true_eq]
    split <;> split <;> first | rfl | contradiction
  unfold testHowManyBits
  rw [countBits_toNat _ _ (by rw [flipped]; exact Nat.lt_of_le_of_lt (Nat.add_le_add_left short 1) (by decide)),
    flipped]
  exact Nat.add_comm 1 _

/-- **`howManyBits` is the least width** that holds the number in two's complement, and it is
what the loop of the reference counts. -/
theorem howManyBits_correct (x : Long) :
    IsLeast {n : Int | 1 ≤ n ∧ - 2 ^ (n - 1).toNat ≤ x.toInt ∧ x.toInt < 2 ^ (n - 1).toNat}
      (howManyBits x).toInt ∧ howManyBits x = testHowManyBits x := by
  have short : (magnitude x).size ≤ 63 := Nat.size_le.mpr (magnitude_lt x)
  have value : (howManyBits x).toInt = ((magnitude x).size + 1 : Nat) := by
    rw [BitVec.toInt_eq_toNat_of_lt (by rw [howManyBits_toNat]; omega), howManyBits_toNat]
  refine ⟨⟨?_, ?_⟩, BitVec.eq_of_toNat_eq (by rw [howManyBits_toNat, testHowManyBits_toNat])⟩
  · rw [value]
    refine ⟨by omega, ?_⟩
    have exponent : (((magnitude x).size + 1 : Nat) - 1 : Int).toNat = (magnitude x).size := by omega
    rw [exponent]
    exact (magnitude_size x _).mp le_rfl
  · rintro n ⟨positive, holds⟩
    have := (magnitude_size x _).mpr holds
    rw [value]
    omega

end SystemsLabs.Bits
