/-
# SystemsLabs.CacheSim.Address -- set index, tag and geometry

The masks of `main` and the sizes of `initCache` are shifts of the `int` literals -1 and 1.
`IntShifts` is what a machine makes of such a shift: below the width the language defines
it, and from there on any value may come out.

The masks cut an address into tag, set index and offset (`maskS_bit`, `maskTag_bit`) as long as
they fit an `int`, and for no other geometry, whatever the undefined shifts give
(`decodes_iff`).
-/
import SystemsLabs.CacheSim.Main

namespace SystemsLabs.CacheSim

set_option autoImplicit false

/-- The values of `-1 << n` and `1 << n`, of the type `int`. -/
structure IntShifts where
  ones : Nat → BitVec 32
  one : Nat → BitVec 32
  ones_eq : ∀ n, n < 32 → ones n = shiftedOnes n
  one_eq : ∀ n, n < 31 → one n = 1#32 <<< n

namespace IntShifts

variable (m : IntShifts) (s b : Nat) (addr : BitVec 64)

/-- `C->S` -/
def sets : Int := (m.one s).toInt

/-- `C->B` -/
def blockBytes : Int := (m.one b).toInt

def maskS : BitVec 64 := (~~~ m.ones (b + s) ^^^ ~~~ m.ones b).signExtend 64

def addrSetIndex : BitVec 64 := (addr &&& m.maskS s b) >>> b

/-- The parameter `addr_index` of `load`, an `int`. -/
def addrIndex : Int := ((m.addrSetIndex s b addr).setWidth 32).toInt

def maskTag : BitVec 64 := (m.ones (s + b)).signExtend 64

def addrTag : BitVec 64 := addr &&& m.maskTag s b

end IntShifts

/-- What `main` computes is what `decode` gives `load`. -/
theorem decode_eq (m : IntShifts) {s b : Nat} (inside : b + s < 32) (mode : Char) (addr : BitVec 64) :
    decode s b mode addr =
      some ⟨((m.addrSetIndex s b addr).setWidth 32).toNat, (m.addrTag s b addr).toInt, mode⟩ := by
  have outer := m.ones_eq (b + s) inside
  have inner := m.ones_eq b (by omega)
  rw [decode, if_pos inside, IntShifts.addrSetIndex, IntShifts.addrTag, IntShifts.maskS, IntShifts.maskTag,
    Nat.add_comm s b, outer, inner]

/-- The geometry is a cache of `2 ^ s` sets and blocks of `2 ^ b` bytes, set index and tag
name the block of an address, and the index is one of the sets. -/
structure Decodes (m : IntShifts) (s b : Nat) : Prop where
  index : ∀ addr, (m.addrSetIndex s b addr).toInt = addr.toNat / 2 ^ b % 2 ^ s
  passed : ∀ addr, m.addrIndex s b addr = (m.addrSetIndex s b addr).toInt
  inside : ∀ addr, 0 ≤ m.addrIndex s b addr ∧ m.addrIndex s b addr < m.sets s
  block : ∀ addr addr', (m.addrIndex s b addr, m.addrTag s b addr) =
    (m.addrIndex s b addr', m.addrTag s b addr') ↔ addr.toNat / 2 ^ b = addr'.toNat / 2 ^ b
  blockBytes : m.blockBytes b = 2 ^ b

/-! ## The masks -/

section Masks

variable {m : IntShifts} {s b : Nat}

theorem shiftedOnes_bit (n i : Nat) : (shiftedOnes n).getLsbD i = (decide (i < 32) && decide (n ≤ i)) := by
  rw [shiftedOnes, BitVec.getLsbD_shiftLeft, BitVec.getLsbD_allOnes]
  by_cases low : i < n
  · simp [low, Nat.not_le.mpr low]
  · by_cases inside : i < 32
    · simp [low, inside, Nat.not_lt.mp low, Nat.lt_of_le_of_lt (Nat.sub_le i n) inside]
    · simp [inside]

theorem maskS_bit (fits : b + s < 32) (i : Nat) :
    (m.maskS s b).getLsbD i = (decide (b ≤ i) && decide (i < b + s)) := by
  rw [IntShifts.maskS, m.ones_eq _ fits, m.ones_eq b (by omega), BitVec.getLsbD_signExtend,
    BitVec.msb_eq_getLsbD_last]
  simp only [BitVec.getLsbD_xor, BitVec.getLsbD_not, shiftedOnes_bit]
  grind

theorem maskTag_bit (fits : s + b < 32) (i : Nat) :
    (m.maskTag s b).getLsbD i = (decide (i < 64) && decide (s + b ≤ i)) := by
  rw [IntShifts.maskTag, m.ones_eq _ fits, BitVec.getLsbD_signExtend, BitVec.msb_eq_getLsbD_last]
  simp only [shiftedOnes_bit]
  grind

theorem addrSetIndex_toNat (fits : s + b < 32) (addr : BitVec 64) :
    (m.addrSetIndex s b addr).toNat = addr.toNat / 2 ^ b % 2 ^ s := by
  apply Nat.eq_of_testBit_eq
  intro i
  rw [BitVec.testBit_toNat, IntShifts.addrSetIndex, BitVec.getLsbD_ushiftRight, BitVec.getLsbD_and,
    maskS_bit (by omega), Nat.testBit_mod_two_pow, Nat.testBit_div_two_pow, BitVec.testBit_toNat, Nat.add_comm i b]
  simp [Bool.and_comm]

theorem addrTag_toNat (fits : s + b < 32) (addr : BitVec 64) :
    (m.addrTag s b addr).toNat = 2 ^ (s + b) * (addr.toNat / 2 ^ (s + b)) := by
  apply Nat.eq_of_testBit_eq
  intro i
  rw [BitVec.testBit_toNat, IntShifts.addrTag, BitVec.getLsbD_and, maskTag_bit fits, Nat.testBit_two_pow_mul,
    Nat.testBit_div_two_pow]
  by_cases high : s + b ≤ i
  · rw [Nat.sub_add_cancel high, BitVec.testBit_toNat]
    by_cases inside : i < 64
    · simp [high, inside]
    · simp [inside, BitVec.getLsbD_of_ge addr i (Nat.not_lt.mp inside)]
  · simp [high]

theorem index_lt (addr : BitVec 64) (s b : Nat) : addr.toNat / 2 ^ b % 2 ^ s < 2 ^ s :=
  Nat.mod_lt _ (Nat.two_pow_pos s)

theorem one_toInt {n : Nat} (below : n < 31) : (m.one n).toInt = 2 ^ n := by
  have small : 2 ^ n < 2 ^ 31 := Nat.pow_lt_pow_right (by decide) below
  have value : (m.one n).toNat = 2 ^ n := by
    rw [m.one_eq n below, BitVec.toNat_shiftLeft, Nat.shiftLeft_eq]
    simp only [BitVec.toNat_ofNat]
    omega
  rw [BitVec.toInt_eq_toNat_of_lt (by omega), value]
  exact Nat.cast_pow 2 n

end Masks

/-! ## When the geometry is right -/

section Geometry

variable {m : IntShifts} {s b : Nat}

/-- The masks of a geometry that fits an `int` are right. -/
theorem decodes_of_small (sets : s < 31) (bytes : b < 31) (fits : s + b < 32) : Decodes m s b := by
  have small : 2 ^ s < 2 ^ 31 := Nat.pow_lt_pow_right (by decide) sets
  have value : ∀ addr, (m.addrSetIndex s b addr).toNat < 2 ^ 31 := fun addr => by
    rw [addrSetIndex_toNat fits]
    exact Nat.lt_trans (index_lt addr s b) small
  have long : ∀ addr, (m.addrSetIndex s b addr).toInt = (addr.toNat / 2 ^ b % 2 ^ s : Nat) := fun addr => by
    have := value addr
    rw [BitVec.toInt_eq_toNat_of_lt (by omega), addrSetIndex_toNat fits]
  have int : ∀ addr, m.addrIndex s b addr = (addr.toNat / 2 ^ b % 2 ^ s : Nat) := fun addr => by
    have low := value addr
    have kept : ((m.addrSetIndex s b addr).setWidth 32).toNat = (m.addrSetIndex s b addr).toNat := by
      rw [BitVec.toNat_setWidth, Nat.mod_eq_of_lt (by omega)]
    rw [IntShifts.addrIndex, BitVec.toInt_eq_toNat_of_lt (by omega), kept, addrSetIndex_toNat fits]
  refine ⟨fun addr => ?_, fun addr => ?_, fun addr => ?_, fun addr addr' => ?_, one_toInt bytes⟩
  · rw [long]
    push_cast
    rfl
  · rw [int, long]
  · have bound := index_lt addr s b
    rw [int, IntShifts.sets, one_toInt sets]
    exact ⟨Int.natCast_nonneg _, by exact_mod_cast bound⟩
  · rw [Prod.mk.injEq, int, int, Int.ofNat_inj, ← BitVec.toNat_inj, addrTag_toNat fits, addrTag_toNat fits]
    have outer : ∀ a : Nat, a / 2 ^ (s + b) = a / 2 ^ b / 2 ^ s := fun a => by
      rw [Nat.div_div_eq_div_mul, ← Nat.pow_add, Nat.add_comm]
    constructor
    · rintro ⟨index, tag⟩
      have upper := Nat.eq_of_mul_eq_mul_left (Nat.two_pow_pos (s + b)) tag
      rw [outer, outer] at upper
      rw [← Nat.div_add_mod (addr.toNat / 2 ^ b) (2 ^ s), upper, index, Nat.div_add_mod]
    · intro block
      rw [outer, outer, block]
      exact ⟨rfl, rfl⟩

theorem one_toInt_lt (m : IntShifts) (n : Nat) : (m.one n).toInt < 2 ^ 31 := by
  have := BitVec.toInt_lt (x := m.one n)
  simpa using this

theorem two_pow_lt {n : Nat} (bound : (2 ^ n : Int) < 2 ^ 31) : n < 31 := by
  have bound : 2 ^ n < 2 ^ 31 := by exact_mod_cast bound
  exact (Nat.pow_lt_pow_iff_right (by decide)).mp bound

/-- The bits of the mask that has an `int` as its source are the same from the sign bit on. -/
theorem maskS_sign (m : IntShifts) {i : Nat} (sign : 31 ≤ i) (inside : i < 64) :
    (m.maskS s b).getLsbD i = (~~~ m.ones (b + s) ^^^ ~~~ m.ones b).msb := by
  rw [IntShifts.maskS, BitVec.getLsbD_signExtend]
  by_cases last : i = 31
  · subst last
    rw [BitVec.msb_eq_getLsbD_last]
    simp
  · have wide : ¬ i < 32 := by omega
    simp [inside, wide]

/-- The set index of an address with one bit set tells the bit of the mask. -/
theorem maskS_of_index (decodes : Decodes m s b) {i : Nat} (inside : b + i < 64) :
    (m.maskS s b).getLsbD (b + i) = true ↔ i < s := by
  have address : (BitVec.twoPow 64 (b + i)).toNat / 2 ^ b = 2 ^ i := by
    rw [BitVec.toNat_twoPow_of_lt inside, Nat.pow_div (Nat.le_add_right b i) (by decide), Nat.add_sub_cancel_left]
  have value : (m.addrSetIndex s b (BitVec.twoPow 64 (b + i))).toInt = (2 ^ i % 2 ^ s : Nat) := by
    rw [decodes.index, ← address]
    push_cast
    rfl
  rw [IntShifts.addrSetIndex, BitVec.and_comm, BitVec.and_twoPow] at value
  cases bit : (m.maskS s b).getLsbD (b + i) with
  | true =>
      rw [bit, if_pos rfl] at value
      refine iff_of_true rfl ?_
      by_contra high
      have multiple : 2 ^ i % 2 ^ s = 0 := Nat.mod_eq_zero_of_dvd (Nat.pow_dvd_pow 2 (Nat.not_lt.mp high))
      rw [multiple] at value
      have isZero : BitVec.twoPow 64 (b + i) >>> b = 0#64 := BitVec.eq_of_toInt_eq value
      have zero : (BitVec.twoPow 64 (b + i) >>> b).toNat = 0 := congrArg BitVec.toNat isZero
      rw [BitVec.toNat_ushiftRight, Nat.shiftRight_eq_div_pow, address] at zero
      exact absurd zero (Nat.two_pow_pos i).ne'
  | false =>
      rw [bit, if_neg (by decide)] at value
      refine iff_of_false (by decide) fun low => ?_
      rw [Nat.mod_eq_of_lt (Nat.pow_lt_pow_right (by decide) low)] at value
      have zero : 2 ^ i = 0 := by simpa using value.symm
      exact absurd zero (Nat.two_pow_pos i).ne'

/-- The last set is one of those allocated. -/
theorem lastSet_lt (decodes : Decodes m s b) (width : s + b < 64) : (2 : Int) ^ s - 1 < m.sets s := by
  have positive := Nat.two_pow_pos s
  have fits : (2 ^ s - 1) * 2 ^ b < 2 ^ 64 := by
    calc (2 ^ s - 1) * 2 ^ b < 2 ^ s * 2 ^ b := Nat.mul_lt_mul_of_pos_right (by omega) (Nat.two_pow_pos b)
      _ = 2 ^ (s + b) := (Nat.pow_add 2 s b).symm
      _ < 2 ^ 64 := Nat.pow_lt_pow_right (by decide) width
  have address : (BitVec.ofNat 64 ((2 ^ s - 1) * 2 ^ b)).toNat / 2 ^ b % 2 ^ s = 2 ^ s - 1 := by
    rw [BitVec.toNat_ofNat, Nat.mod_eq_of_lt fits, Nat.mul_div_cancel _ (Nat.two_pow_pos b), Nat.mod_eq_of_lt (by omega)]
  have index := (decodes.inside (BitVec.ofNat 64 ((2 ^ s - 1) * 2 ^ b))).2
  rw [decodes.passed, decodes.index] at index
  have value : (2 : Int) ^ s - 1 = (2 ^ s - 1 : Nat) := by
    rw [Nat.cast_sub (by omega)]
    push_cast
    rfl
  rw [value, ← address]
  push_cast
  exact index

/-- **The geometries for which set index, tag and block size are right**: those whose masks
and sizes fit an `int`, whatever the undefined shifts give. -/
theorem decodes_iff (m : IntShifts) {s b : Nat} (width : s + b < 64) :
    Decodes m s b ↔ s < 31 ∧ b < 31 ∧ s + b < 32 := by
  refine ⟨fun decodes => ?_, fun small => decodes_of_small small.1 small.2.1 small.2.2⟩
  have bytes : b < 31 := two_pow_lt (decodes.blockBytes ▸ one_toInt_lt m b)
  have sets : s < 31 := two_pow_lt (by
    have index := lastSet_lt decodes width
    have := one_toInt_lt m s
    rw [IntShifts.sets] at index
    omega)
  refine ⟨sets, bytes, ?_⟩
  by_contra wide
  -- the upper bit of the set index would be the sign bit of the mask or above it
  have upper := (maskS_of_index decodes (i := s - 1) (by omega)).mpr (by omega)
  have above := mt (maskS_of_index decodes (i := s) (by omega)).mp (Nat.lt_irrefl s)
  rw [maskS_sign m (by omega) (by omega)] at upper above
  exact above upper

end Geometry

/-- The shift instruction of the x86 looks at the count modulo the width. -/
def IntShifts.x86 : IntShifts where
  ones n := shiftedOnes (n % 32)
  one n := 1#32 <<< (n % 32)
  ones_eq n below := by rw [Nat.mod_eq_of_lt below]
  one_eq n below := by rw [Nat.mod_eq_of_lt (by omega)]

theorem decodes_iff_small : Decodes .x86 4 4 ↔ 4 < 31 ∧ 4 < 31 ∧ 4 + 4 < 32 :=
  decodes_iff .x86 (by decide)

/-- With 32 sets of `2 ^ 27` bytes a block, the second block gets the index of the first. -/
theorem decodes_iff_counterexample :
    ¬ ∀ (m : IntShifts) (s b : Nat), s + b < 64 → Decodes m s b := by
  intro claim
  have index := (claim .x86 5 27 (by decide)).index (BitVec.ofNat 64 (2 ^ 27))
  exact absurd index (by decide)

end SystemsLabs.CacheSim
