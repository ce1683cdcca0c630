/-
# SystemsLabs.Theory.ByteMemory -- a flat byte memory and its little-endian words

Memory is a total map from addresses to bytes.  `readLE` and `writeLE` are the
`n`-byte little-endian accesses a machine makes to it; `fill` and `copy` are the
effects of `memset` and of a non-overlapping `memcpy`.

Everything a client needs is a frame rule: an access reads only its own bytes
(`readLE_congr`, `readLE_shift`), a write changes only its own bytes (`writeLE_of_lt`,
`writeLE_of_ge`), and a word that was written is read back (`readLE_writeLE`).
-/
import Mathlib.Data.Nat.Init
import Mathlib.Tactic.Ring
import Mathlib.Tactic.Common

namespace SystemsLabs.Theory.ByteMemory

set_option autoImplicit false

/-- Address to byte.  What an address outside every object holds is arbitrary. -/
abbrev Mem := Nat → UInt8

/-- The `n` bytes from `a` on, least significant first. -/
def readLE (m : Mem) : Nat → Nat → Nat
  | _, 0 => 0
  | a, n + 1 => (m a).toNat + 256 * readLE m (a + 1) n

/-- The low `n` bytes of `v` stored from `a` on, least significant first. -/
def writeLE (m : Mem) (a n v : Nat) : Mem := fun x =>
  if a ≤ x ∧ x < a + n then UInt8.ofNat (v / 256 ^ (x - a)) else m x

/-- `memset`. -/
def fill (m : Mem) (a : Nat) (c : UInt8) (n : Nat) : Mem := fun x =>
  if a ≤ x ∧ x < a + n then c else m x

/-- `memcpy` between ranges that do not overlap. -/
def copy (m : Mem) (dst src n : Nat) : Mem := fun x =>
  if dst ≤ x ∧ x < dst + n then m (src + (x - dst)) else m x

section Frame

variable (m : Mem) (a n v : Nat)

theorem writeLE_inside {x : Nat} (lo : a ≤ x) (hi : x < a + n) :
    writeLE m a n v x = UInt8.ofNat (v / 256 ^ (x - a)) := by
  rw [writeLE, if_pos ⟨lo, hi⟩]

theorem writeLE_outside {x : Nat} (out : x < a ∨ a + n ≤ x) : writeLE m a n v x = m x := by
  rw [writeLE, if_neg]
  omega

theorem fill_outside (c : UInt8) {x : Nat} (out : x < a ∨ a + n ≤ x) : fill m a c n x = m x := by
  rw [fill, if_neg]
  omega

theorem copy_outside (src : Nat) {x : Nat} (out : x < a ∨ a + n ≤ x) : copy m a src n x = m x := by
  rw [copy, if_neg]
  omega

theorem copy_inside (src : Nat) {i : Nat} (lt : i < n) : copy m a src n (a + i) = m (src + i) := by
  rw [copy, if_pos (by omega), Nat.add_sub_cancel_left]

end Frame

/-- A read depends only on the bytes it covers, wherever they are. -/
theorem readLE_shift {m m' : Mem} {a b n : Nat} (same : ∀ i < n, m' (b + i) = m (a + i)) :
    readLE m' b n = readLE m a n := by
  induction n generalizing a b with
  | zero => rfl
  | succ n ih =>
      have first : m' b = m a := same 0 (Nat.succ_pos n)
      have rest : readLE m' (b + 1) n = readLE m (a + 1) n := ih fun i lt => by
        rw [Nat.add_assoc, Nat.add_assoc, Nat.add_comm 1]
        exact same (i + 1) (Nat.succ_lt_succ lt)
      rw [readLE, readLE, first, rest]

theorem readLE_congr {m m' : Mem} {a n : Nat}
    (same : ∀ x, a ≤ x → x < a + n → m' x = m x) : readLE m' a n = readLE m a n :=
  readLE_shift fun i lt => same (a + i) (Nat.le_add_right a i) (Nat.add_lt_add_left lt a)

theorem readLE_lt (m : Mem) (a n : Nat) : readLE m a n < 256 ^ n := by
  induction n generalizing a with
  | zero => simp [readLE]
  | succ n ih =>
      have byte : (m a).toNat < 256 := UInt8.toNat_lt (m a)
      have rest := ih (a + 1)
      rw [readLE, pow_succ]
      omega

/-- A read in two parts. -/
theorem readLE_add (m : Mem) (a n k : Nat) :
    readLE m a (n + k) = readLE m a n + 256 ^ n * readLE m (a + n) k := by
  induction n generalizing a with
  | zero => simp [readLE]
  | succ n ih =>
      have next : a + 1 + n = a + (n + 1) := by omega
      rw [Nat.succ_add, readLE, readLE, ih, next]
      ring

/-- The low bytes of a word. -/
theorem readLE_mod (m : Mem) (a : Nat) {n k : Nat} (le : k ≤ n) : readLE m a n % 256 ^ k = readLE m a k := by
  obtain ⟨rest, rfl⟩ := Nat.exists_eq_add_of_le le
  rw [readLE_add, Nat.add_mul_mod_self_left, Nat.mod_eq_of_lt (readLE_lt m a k)]

/-- A byte of a word. -/
theorem readLE_byte (m : Mem) (a : Nat) {n i : Nat} (lt : i < n) : UInt8.ofNat (readLE m a n / 256 ^ i) = m (a + i) := by
  induction n generalizing a i with
  | zero => exact absurd lt (Nat.not_lt_zero i)
  | succ n ih =>
      have byte : (m a).toNat < 256 := UInt8.toNat_lt (m a)
      cases i with
      | zero =>
          rw [readLE, pow_zero, Nat.div_one, ← UInt8.toNat_inj, UInt8.toNat_ofNat', Nat.add_mul_mod_self_left,
            Nat.mod_eq_of_lt byte, Nat.add_zero]
      | succ i =>
          have next : a + (i + 1) = a + 1 + i := by omega
          rw [readLE, pow_succ', ← Nat.div_div_eq_div_mul, Nat.add_mul_div_left _ _ (by decide), Nat.div_eq_of_lt byte,
            Nat.zero_add, ih (a + 1) (by omega), next]

/-- A word that was written is read back, truncated to its width. -/
theorem readLE_writeLE (m : Mem) (a n v : Nat) : readLE (writeLE m a n v) a n = v % 256 ^ n := by
  induction n generalizing a v with
  | zero => simp [readLE, Nat.mod_one]
  | succ n ih =>
      have first : (writeLE m a (n + 1) v a).toNat = v % 256 := by
        rw [writeLE_inside m a (n + 1) v le_rfl (by omega)]
        simp
      have shifted : readLE (writeLE m a (n + 1) v) (a + 1) n =
          readLE (writeLE m (a + 1) n (v / 256)) (a + 1) n := by
        apply readLE_congr
        intro x lo hi
        have exponent : x - a = (x - (a + 1)) + 1 := by omega
        rw [writeLE_inside m a (n + 1) v (by omega) (by omega),
          writeLE_inside m (a + 1) n (v / 256) lo hi, exponent, pow_succ', Nat.div_div_eq_div_mul]
      rw [readLE, first, shifted, ih, pow_succ', Nat.mod_mul]

theorem readLE_writeLE_of_lt (m : Mem) {a n v : Nat} (fits : v < 256 ^ n) :
    readLE (writeLE m a n v) a n = v := by
  rw [readLE_writeLE, Nat.mod_eq_of_lt fits]

/-- Accesses to disjoint ranges do not interfere. -/
theorem readLE_writeLE_disjoint (m : Mem) {a n v b k : Nat} (apart : b + k ≤ a ∨ a + n ≤ b) :
    readLE (writeLE m a n v) b k = readLE m b k := by
  apply readLE_congr
  intro x lo hi
  exact writeLE_outside m a n v (by omega)

/-! ## Bytes that were never written -/

/-- A memory some bytes of which hold nothing yet. -/
abbrev PartialMem := Nat → Option UInt8

namespace PartialMem

/-- The low `n` bytes of `v` stored from `a` on. -/
def write (A : PartialMem) (a n v : Nat) : PartialMem := fun x =>
  if a ≤ x ∧ x < a + n then some (UInt8.ofNat (v / 256 ^ (x - a))) else A x

/-- The byte `c` stored `n` times from `a` on. -/
def fill (A : PartialMem) (a : Nat) (c : UInt8) (n : Nat) : PartialMem := fun x =>
  if a ≤ x ∧ x < a + n then some c else A x

/-- A range copied elsewhere, with the bytes of it that hold nothing. -/
def copy (A : PartialMem) (dst src n : Nat) : PartialMem := fun x =>
  if dst ≤ x ∧ x < dst + n then A (src + (x - dst)) else A x

/-- Every byte of the range was written. -/
def Known (A : PartialMem) (a n : Nat) : Prop := ∀ x, a ≤ x → x < a + n → A x ≠ none

/-- A memory holds what was written to the range. -/
def Agrees (A : PartialMem) (m : Mem) (a n : Nat) : Prop := ∀ x v, a ≤ x → x < a + n → A x = some v → m x = v

/-- A word was read from the range: it is no wider, and its bytes are those that were written. -/
def Reads (A : PartialMem) (a n w : Nat) : Prop :=
  w < 256 ^ n ∧ ∀ i < n, ∀ v, A (a + i) = some v → UInt8.ofNat (w / 256 ^ i) = v

/-- `B` holds what `A` holds. -/
def Sub (A B : PartialMem) : Prop := ∀ x v, A x = some v → B x = some v

variable {A A' A'' B : PartialMem} {m m' : Mem} {a n k v w dst src : Nat} {c : UInt8}

theorem Sub.refl (A : PartialMem) : Sub A A := fun _ _ held => held

theorem Sub.trans (first : Sub A A') (second : Sub A' A'') : Sub A A'' :=
  fun x v held => second x v (first x v held)

theorem Sub.write (sub : Sub A B) : Sub (write A a n v) (write B a n v) := by
  intro x w held
  rw [PartialMem.write] at held ⊢
  split at held
  · next inside => rwa [if_pos inside]
  · next outside =>
    rw [if_neg outside]
    exact sub x w held

theorem Sub.fill (sub : Sub A B) : Sub (fill A a c n) (fill B a c n) := by
  intro x w held
  rw [PartialMem.fill] at held ⊢
  split at held
  · next inside => rwa [if_pos inside]
  · next outside =>
    rw [if_neg outside]
    exact sub x w held

theorem Sub.copy (sub : Sub A B) : Sub (copy A dst src n) (copy B dst src n) := by
  intro x w held
  rw [PartialMem.copy] at held ⊢
  split at held
  · next inside =>
    rw [if_pos inside]
    exact sub _ w held
  · next outside =>
    rw [if_neg outside]
    exact sub x w held

theorem Sub.known (sub : Sub A B) (known : Known A a n) : Known B a n := by
  intro x lo hi
  obtain ⟨v, held⟩ := Option.ne_none_iff_exists'.mp (known x lo hi)
  rw [sub x v held]
  exact Option.some_ne_none v

theorem Sub.reads (sub : Sub A B) (reads : Reads B a n w) : Reads A a n w :=
  ⟨reads.1, fun i lt v held => reads.2 i lt v (sub _ v held)⟩

theorem write_outside {x : Nat} (out : x < a ∨ a + n ≤ x) : write A a n v x = A x := by
  rw [write, if_neg]
  omega

theorem copy_outside {x : Nat} (out : x < dst ∨ dst + n ≤ x) : copy A dst src n x = A x := by
  rw [copy, if_neg]
  omega

/-- A write in two parts. -/
theorem write_write (A : PartialMem) (a n k v : Nat) :
    write (write A a n v) (a + n) k (v / 256 ^ n) = write A a (n + k) v := by
  funext x
  by_cases second : a + n ≤ x ∧ x < a + n + k
  · have exponent : x - a = n + (x - (a + n)) := by omega
    rw [write, if_pos second, write, if_pos (by omega), exponent, pow_add, Nat.div_div_eq_div_mul]
  · rw [write, if_neg second, write, write]
    exact if_congr (by omega) rfl rfl

/-- A word all of whose bytes are the same. -/
theorem write_same (same : ∀ i < n, UInt8.ofNat (v / 256 ^ i) = c) : write A a n v = fill A a c n := by
  funext x
  rw [write, fill]
  split
  · next inside => rw [same _ (by omega)]
  · rfl

theorem fill_none (A : PartialMem) (a : Nat) (c : UInt8) : fill A a c 0 = A := by
  funext x
  rw [fill, if_neg (by omega)]

theorem fill_fill (A : PartialMem) (a n k : Nat) (c : UInt8) : fill (fill A a c n) (a + n) c k = fill A a c (n + k) := by
  funext x
  by_cases second : a + n ≤ x ∧ x < a + n + k
  · rw [fill, if_pos second, fill, if_pos (by omega)]
  · rw [fill, if_neg second, fill, fill]
    exact if_congr (by omega) rfl rfl

theorem copy_none (A : PartialMem) (dst src : Nat) : copy A dst src 0 = A := by
  funext x
  rw [copy, if_neg (by omega)]

/-- A copy in two parts; the first must not reach the rest of the source. -/
theorem copy_copy (A : PartialMem) (apart : src + (n + k) ≤ dst ∨ dst + (n + k) ≤ src) :
    copy (copy A dst src n) (dst + n) (src + n) k = copy A dst src (n + k) := by
  funext x
  by_cases second : dst + n ≤ x ∧ x < dst + n + k
  · have shifted : src + n + (x - (dst + n)) = src + (x - dst) := by omega
    rw [copy, if_pos second, copy_outside (by omega), copy, if_pos (by omega), shifted]
  · rw [copy, if_neg second, copy, copy]
    exact if_congr (by omega) rfl rfl

theorem Known.congr (known : Known A a n) (same : ∀ x, a ≤ x → x < a + n → A' x = A x) : Known A' a n :=
  fun x lo hi => by
    rw [same x lo hi]
    exact known x lo hi

theorem Known.first (known : Known A a (n + k)) : Known A a n := fun x lo hi => known x lo (by omega)

theorem Known.second (known : Known A a (n + k)) : Known A (a + n) k :=
  fun x lo hi => known x (by omega) (by omega)

theorem Agrees.reads (agrees : Agrees A m a n) : Reads A a n (readLE m a n) := by
  refine ⟨readLE_lt m a n, fun i lt v written => ?_⟩
  rw [readLE_byte m a lt]
  exact agrees (a + i) v (by omega) (by omega) written

/-- A read in two parts. -/
theorem Agrees.join (first : Agrees A m a n) (second : Agrees A m' (a + n) k) :
    ∃ m'', Agrees A m'' a (n + k) ∧ readLE m'' a (n + k) = readLE m a n + 256 ^ n * readLE m' (a + n) k := by
  refine ⟨fun x => if x < a + n then m x else m' x, fun x v lo hi written => ?_, ?_⟩
  · dsimp only
    split
    · next before => exact first x v lo before written
    · next after => exact second x v (by omega) (by omega) written
  · have low : readLE (fun x => if x < a + n then m x else m' x) a n = readLE m a n :=
      readLE_congr fun x _ hi => if_pos hi
    have high : readLE (fun x => if x < a + n then m x else m' x) (a + n) k = readLE m' (a + n) k :=
      readLE_congr fun x lo _ => if_neg (by omega)
    rw [readLE_add, low, high]

/-- A word that was read is written elsewhere. -/
theorem Reads.copied (reads : Reads A src n w) : Sub (copy A dst src n) (write A dst n w) := by
  intro x v held
  rw [copy] at held
  rw [write]
  split at held
  · next inside => rw [if_pos inside, reads.2 _ (by omega) v held]
  · next outside => rwa [if_neg outside]

end PartialMem

/-! ## Machine words -/

/-- The 64-bit load. -/
def read64 (m : Mem) (a : Nat) : Nat := readLE m a 8

/-- The 64-bit store. -/
def write64 (m : Mem) (a v : Nat) : Mem := writeLE m a 8 v

theorem read64_lt (m : Mem) (a : Nat) : read64 m a < 2 ^ 64 := by
  have := readLE_lt m a 8
  simpa [read64] using this

theorem read64_congr {m m' : Mem} {a : Nat} (same : ∀ x, a ≤ x → x < a + 8 → m' x = m x) :
    read64 m' a = read64 m a := readLE_congr same

theorem read64_write64 (m : Mem) {a v : Nat} (fits : v < 2 ^ 64) :
    read64 (write64 m a v) a = v := readLE_writeLE_of_lt m (by simpa using fits)

theorem read64_write64_disjoint (m : Mem) {a v b : Nat} (apart : b + 8 ≤ a ∨ a + 8 ≤ b) :
    read64 (write64 m a v) b = read64 m b := readLE_writeLE_disjoint m apart

theorem write64_outside (m : Mem) {a v x : Nat} (out : x < a ∨ a + 8 ≤ x) :
    write64 m a v x = m x := writeLE_outside m a 8 v out

end SystemsLabs.Theory.ByteMemory
