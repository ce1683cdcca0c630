/-
# SystemsLabs.Malloc.PackedWord -- the headers and footers of `mm.c`

A header is one 64-bit word: the block size, a multiple of 16, with three flags in
the low bits.  This module has the word-level helpers of `mm.c` and what each of
them does to a packed word.  `size_t` arithmetic wraps at `2 ^ 64` and is written
with `wadd`, `wsub` and `wmul`; pointers are plain numbers, since C leaves an
overflowing pointer undefined.
-/
import Mathlib.Data.Nat.Bitwise
import Mathlib.Tactic.Common

namespace SystemsLabs.Malloc

set_option autoImplicit false

/-! ## Constants and `size_t` arithmetic -/

def wordMod : Nat := 2 ^ 64

def wadd (a b : Nat) : Nat := (a + b) % wordMod

def wsub (a b : Nat) : Nat := (a + (wordMod - b % wordMod)) % wordMod

def wmul (a b : Nat) : Nat := (a * b) % wordMod

def wsize : Nat := 8

def dsize : Nat := 2 * wsize

def minBlockSize : Nat := 1 * dsize

def chunksize : Nat := 2 ^ 12

def allocMask : Nat := 0x1

def prevAllocMask : Nat := 0x2

def prevMinMask : Nat := 0x4

/-- `~(word_t)0xF`. -/
def sizeMask : Nat := wordMod - 1 - 0xF

theorem wordMod_pos : 0 < wordMod := by decide

theorem wadd_of_lt {a b : Nat} (fits : a + b < wordMod) : wadd a b = a + b :=
  Nat.mod_eq_of_lt fits

theorem wsub_of_le {a b : Nat} (le : b ≤ a) (fits : a < wordMod) : wsub a b = a - b := by
  have small : b % wordMod = b := Nat.mod_eq_of_lt (by omega)
  have shifted : a + (wordMod - b) = (a - b) + wordMod := by omega
  rw [wsub, small, shifted, Nat.add_mod_right, Nat.mod_eq_of_lt (by omega)]

theorem wmul_of_lt {a b : Nat} (fits : a * b < wordMod) : wmul a b = a * b :=
  Nat.mod_eq_of_lt fits

/-! ## The helpers of `mm.c` on words -/

def max (x y : Nat) : Nat := if x > y then x else y

def roundUp (size n : Nat) : Nat := wmul n (wadd size (wsub n 1) / n)

def pack (size : Nat) (prevMin prevAlloc alloc : Bool) : Nat :=
  let word := size
  let word := if prevMin then word ||| prevMinMask else word
  let word := if prevAlloc then word ||| prevAllocMask else word
  if alloc then word ||| allocMask else word

def extractSize (word : Nat) : Nat := word &&& sizeMask

def extractAlloc (word : Nat) : Bool := word &&& allocMask != 0

def extractPrevAlloc (word : Nat) : Bool := word &&& prevAllocMask != 0

def extractPrevMin (word : Nat) : Bool := word &&& prevMinMask != 0

/-- `word & ~mask`. -/
def clearMask (word mask : Nat) : Nat := word &&& (wordMod - 1 - mask)

/-! ## What they compute -/

/-- The flags of a header as the low four bits of the word. -/
def tag (prevMin prevAlloc alloc : Bool) : Nat :=
  4 * prevMin.toNat + 2 * prevAlloc.toNat + alloc.toNat

/-- A block size: a multiple of 16 that fits in a word. -/
def IsSize (size : Nat) : Prop := size % 16 = 0 ∧ size < wordMod

theorem tag_lt (pm pa al : Bool) : tag pm pa al < 16 := by
  cases pm <;> cases pa <;> cases al <;> decide

theorem testBit_mul_add (k t i : Nat) (small : t < 16) :
    (16 * k + t).testBit i = if i < 4 then t.testBit i else k.testBit (i - 4) :=
  Nat.testBit_two_pow_mul_add k (i := 4) small i

/-- The bits of a word with a multiple of 16 above four flag bits, under a mask. -/
theorem and_low (k t mask : Nat) (small : t < 16) (low : mask < 16) :
    (16 * k + t) &&& mask = t &&& mask := by
  apply Nat.eq_of_testBit_eq
  intro i
  rw [Nat.testBit_and, Nat.testBit_and, testBit_mul_add k t i small]
  by_cases inTag : i < 4
  · rw [if_pos inTag]
  · have off : mask.testBit i = false :=
      Nat.testBit_lt_two_pow (lt_of_lt_of_le low (by
        calc 16 = 2 ^ 4 := rfl
          _ ≤ 2 ^ i := Nat.pow_le_pow_right (by omega) (by omega)))
    simp [off]

theorem or_low (k t mask : Nat) (small : t < 16) (low : mask < 16) :
    (16 * k + t) ||| mask = 16 * k + (t ||| mask) := by
  have joined : t ||| mask < 16 := Nat.or_lt_two_pow (n := 4) small low
  apply Nat.eq_of_testBit_eq
  intro i
  rw [Nat.testBit_or, testBit_mul_add k t i small, testBit_mul_add k _ i joined, Nat.testBit_or]
  by_cases inTag : i < 4
  · rw [if_pos inTag, if_pos inTag]
  · have off : mask.testBit i = false :=
      Nat.testBit_lt_two_pow (lt_of_lt_of_le low (by
        calc 16 = 2 ^ 4 := rfl
          _ ≤ 2 ^ i := Nat.pow_le_pow_right (by omega) (by omega)))
    simp [inTag, off]

/-- A mask that keeps everything above the low four bits, and `keep` of those. -/
theorem and_high (k t keep : Nat) (small : t < 16) (low : keep < 16) (fits : 16 * k < wordMod) :
    (16 * k + t) &&& (wordMod - 16 + keep) = 16 * k + (t &&& keep) := by
  have kBound : k < 2 ^ 60 := by
    have : 16 * k < 16 * 2 ^ 60 := by simpa [wordMod] using fits
    omega
  have maskShape : wordMod - 16 + keep = 16 * (2 ^ 60 - 1) + keep := by
    simp [wordMod]
  have both : t &&& keep < 16 := lt_of_le_of_lt Nat.and_le_left small
  apply Nat.eq_of_testBit_eq
  intro i
  rw [maskShape, Nat.testBit_and, testBit_mul_add k t i small, testBit_mul_add _ keep i low,
    testBit_mul_add k _ i both, Nat.testBit_and]
  by_cases inTag : i < 4
  · simp [inTag]
  · rw [if_neg inTag, if_neg inTag, if_neg inTag, Nat.testBit_two_pow_sub_one]
    by_cases inWord : i - 4 < 60
    · simp [inWord]
    · have off : k.testBit (i - 4) = false :=
        Nat.testBit_lt_two_pow (lt_of_lt_of_le kBound (Nat.pow_le_pow_right (by omega) (by omega)))
      simp [off]

theorem pack_eq {size : Nat} (isSize : IsSize size) (pm pa al : Bool) :
    pack size pm pa al = size + tag pm pa al := by
  obtain ⟨k, rfl⟩ : ∃ k, size = 16 * k := ⟨size / 16, by have := isSize.1; omega⟩
  have joined := or_low k
  have zero := joined 0
  simp only [Nat.add_zero, Nat.zero_or] at zero
  cases pm <;> cases pa <;> cases al <;>
    simp [pack, tag, prevMinMask, prevAllocMask, allocMask, zero, joined]

section Packed

variable {size : Nat} (isSize : IsSize size) (pm pa al : Bool)

include isSize

theorem exists_quotient : ∃ k, size = 16 * k ∧ 16 * k < wordMod :=
  ⟨size / 16, by have := isSize.1; omega, by have := isSize.2; omega⟩

theorem pack_lt : pack size pm pa al < 2 ^ 64 := by
  rw [pack_eq isSize]
  obtain ⟨multiple, fits⟩ := isSize
  have := tag_lt pm pa al
  simp only [wordMod] at fits
  omega

theorem extractSize_pack : extractSize (pack size pm pa al) = size := by
  rw [pack_eq isSize]
  obtain ⟨k, rfl, fits⟩ := exists_quotient isSize
  have := and_high k _ 0 (tag_lt pm pa al) (by omega) fits
  simpa [extractSize, sizeMask, wordMod] using this

theorem extractAlloc_pack : extractAlloc (pack size pm pa al) = al := by
  rw [pack_eq isSize]
  obtain ⟨k, rfl, -⟩ := exists_quotient isSize
  rw [extractAlloc, and_low k _ _ (tag_lt pm pa al) (by decide)]
  cases pm <;> cases pa <;> cases al <;> decide

theorem extractPrevAlloc_pack : extractPrevAlloc (pack size pm pa al) = pa := by
  rw [pack_eq isSize]
  obtain ⟨k, rfl, -⟩ := exists_quotient isSize
  rw [extractPrevAlloc, and_low k _ _ (tag_lt pm pa al) (by decide)]
  cases pm <;> cases pa <;> cases al <;> decide

theorem extractPrevMin_pack : extractPrevMin (pack size pm pa al) = pm := by
  rw [pack_eq isSize]
  obtain ⟨k, rfl, -⟩ := exists_quotient isSize
  rw [extractPrevMin, and_low k _ _ (tag_lt pm pa al) (by decide)]
  cases pm <;> cases pa <;> cases al <;> decide

theorem pack_clear_prevAlloc :
    clearMask (pack size pm pa al) prevAllocMask = pack size pm false al := by
  rw [pack_eq isSize, pack_eq isSize]
  obtain ⟨k, rfl, fits⟩ := exists_quotient isSize
  have := and_high k _ 13 (tag_lt pm pa al) (by omega) fits
  have low : tag pm pa al &&& 13 = tag pm false al := by
    cases pm <;> cases pa <;> cases al <;> decide
  simpa [clearMask, prevAllocMask, wordMod, low] using this

theorem pack_clear_prevMin :
    clearMask (pack size pm pa al) prevMinMask = pack size false pa al := by
  rw [pack_eq isSize, pack_eq isSize]
  obtain ⟨k, rfl, fits⟩ := exists_quotient isSize
  have := and_high k _ 11 (tag_lt pm pa al) (by omega) fits
  have low : tag pm pa al &&& 11 = tag false pa al := by
    cases pm <;> cases pa <;> cases al <;> decide
  simpa [clearMask, prevMinMask, wordMod, low] using this

theorem pack_set_prevAlloc : pack size pm pa al ||| prevAllocMask = pack size pm true al := by
  rw [pack_eq isSize, pack_eq isSize]
  obtain ⟨k, rfl, -⟩ := exists_quotient isSize
  rw [or_low k _ _ (tag_lt pm pa al) (by decide)]
  cases pm <;> cases pa <;> cases al <;> simp [tag, prevAllocMask]

theorem pack_set_prevMin : pack size pm pa al ||| prevMinMask = pack size true pa al := by
  rw [pack_eq isSize, pack_eq isSize]
  obtain ⟨k, rfl, -⟩ := exists_quotient isSize
  rw [or_low k _ _ (tag_lt pm pa al) (by decide)]
  cases pm <;> cases pa <;> cases al <;> simp [tag, prevMinMask]

/-- The word `0x1` that `mm.c` tests for is the header of an epilogue whose predecessor
is free and not known to be of minimum size. -/
theorem pack_eq_one_iff : pack size pm pa al = 1 ↔ size = 0 ∧ pm = false ∧ pa = false ∧ al = true := by
  rw [pack_eq isSize]
  obtain ⟨multiple, -⟩ := isSize
  cases pm <;> cases pa <;> cases al <;> simp [tag]
  omega

end Packed

/-- `round_up` to a double word, where neither the addition nor the product wraps. -/
theorem roundUp_dsize {size : Nat} (fits : size + 15 < wordMod) :
    roundUp size dsize = 16 * ((size + 15) / 16) := by
  have minusOne : wsub dsize 1 = 15 := by decide
  rw [roundUp, minusOne, wadd_of_lt fits, wmul_of_lt]
  · rfl
  · simp only [dsize, wsize]
    omega

end SystemsLabs.Malloc
