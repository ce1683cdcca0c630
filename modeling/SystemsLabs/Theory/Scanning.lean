/-
# SystemsLabs.Theory.Scanning -- reading text with conversions, and writing it

The conversions of the C library for decimal numbers and words, on the text that is left.  A
conversion that matches nothing reads the white space before it and, of a number, the sign.  A number
that its type does not hold is undefined (`none`).

What is written as a numeral or as a word with white space around it is read back
(`scanNumber_numeral`, `scanWord_word`).
-/
import Mathlib.Algebra.Group.Nat.Defs
import Mathlib.Algebra.Group.Int.Defs
import Mathlib.Data.List.TakeWhile

namespace SystemsLabs.Theory.Scanning

set_option autoImplicit false

/-- `isspace` in the C locale. -/
def isSpace (c : Char) : Bool := c = ' ' || c = '\t' || c = '\n' || c = '\x0b' || c = '\x0c' || c = '\r'

/-- The number with its sign. -/
def numeral (v : Int) : List Char := if v < 0 then '-' :: Nat.toDigits 10 v.natAbs else Nat.toDigits 10 v.natAbs

def readSign : List Char → Bool × List Char
  | '-' :: text => (true, text)
  | '+' :: text => (false, text)
  | text => (false, text)

/-- A decimal number, if there is one. -/
def scanNumber (text : List Char) : Option Int × List Char :=
  let (negative, text) := readSign (text.dropWhile isSpace)
  let digits := text.takeWhile Char.isDigit
  let number : Int := Nat.ofDigitChars 10 digits 0
  (if digits = [] then none else some (if negative then -number else number), text.dropWhile Char.isDigit)

/-- `"%d"` for a type of `w` bits. -/
def scanSigned (w : Nat) (text : List Char) : Option (Option (BitVec w) × List Char) :=
  match scanNumber text with
  | (none, text) => some (none, text)
  | (some v, text) => if -2 ^ (w - 1) ≤ v ∧ v < 2 ^ (w - 1) then some (some (BitVec.ofInt w v), text) else none

/-- `"%u"` for a type of `w` bits; the negation of a number is one of the type. -/
def scanUnsigned (w : Nat) (text : List Char) : Option (Option (BitVec w) × List Char) :=
  match scanNumber text with
  | (none, text) => some (none, text)
  | (some v, text) => if v.natAbs < 2 ^ w then some (some (BitVec.ofInt w v), text) else none

/-- `"%s"`; `none` is the end of the text. -/
def scanWord (text : List Char) : Option (List Char × List Char) :=
  match text.dropWhile isSpace with
  | [] => none
  | c :: text => some ((c :: text).takeWhile (!isSpace ·), (c :: text).dropWhile (!isSpace ·))

/-! ## Reading back -/

variable {α : Type} {p : α → Bool} {space run text : List Char} {xs rest : List α} {v : Int} {w : Nat}

/-- What follows does not go on with `p`. -/
def Ends (p : α → Bool) (rest : List α) : Prop := ∀ x ∈ rest.head?, p x = false

theorem takeWhile_run (all : ∀ x ∈ xs, p x) (ends : Ends p rest) : (xs ++ rest).takeWhile p = xs := by
  rw [List.takeWhile_append_of_pos all]
  rcases rest with _ | ⟨x, rest⟩
  · simp
  · rw [List.takeWhile_cons_of_neg (by simp [ends x rfl]), List.append_nil]

theorem dropWhile_run (all : ∀ x ∈ xs, p x) (ends : Ends p rest) : (xs ++ rest).dropWhile p = rest := by
  rw [List.dropWhile_append_of_pos all]
  rcases rest with _ | ⟨x, rest⟩
  · rfl
  · exact List.dropWhile_cons_of_neg (by simp [ends x rfl])

theorem not_isSpace_of_isDigit {c : Char} (digit : c.isDigit = true) : isSpace c = false := by
  rw [Char.isDigit, Bool.and_eq_true, decide_eq_true_iff, decide_eq_true_iff] at digit
  simp only [isSpace, Bool.or_eq_false_iff, decide_eq_false_iff_not]
  refine ⟨⟨⟨⟨⟨?_, ?_⟩, ?_⟩, ?_⟩, ?_⟩, ?_⟩ <;> rintro rfl <;> revert digit <;> decide

theorem toDigits_isDigit (n : Nat) : ∀ c ∈ Nat.toDigits 10 n, c.isDigit = true :=
  fun _ member => Nat.isDigit_of_mem_toDigits (by decide) (by decide) member

/-- **A numeral is read back**, with white space before it and no digit after it. -/
theorem scanNumber_numeral (spaces : ∀ c ∈ space, isSpace c) (ends : Ends Char.isDigit text) :
    scanNumber (space ++ (numeral v ++ text)) = (some v, text) := by
  have digits (n : Nat) : ∃ c more, Nat.toDigits 10 n = c :: more ∧ c.isDigit = true := by
    rcases whole : Nat.toDigits 10 n with _ | ⟨c, more⟩
    · exact absurd whole Nat.toDigits_ne_nil
    · exact ⟨c, more, rfl, toDigits_isDigit n c (by rw [whole]; exact List.mem_cons_self ..)⟩
  have taken (n : Nat) : (Nat.toDigits 10 n ++ text).takeWhile Char.isDigit = Nat.toDigits 10 n :=
    takeWhile_run (toDigits_isDigit n) ends
  have dropped (n : Nat) : (Nat.toDigits 10 n ++ text).dropWhile Char.isDigit = text :=
    dropWhile_run (toDigits_isDigit n) ends
  rw [scanNumber, numeral]
  by_cases negative : v < 0
  · have skipped : (space ++ ('-' :: Nat.toDigits 10 v.natAbs ++ text)).dropWhile isSpace = '-' :: (Nat.toDigits 10 v.natAbs ++ text) :=
      dropWhile_run spaces fun c here => by obtain rfl := Option.some.inj here; rfl
    rw [if_pos negative, skipped]
    simp only [readSign, taken, dropped, Nat.ofDigitChars_ten_toDigits, Nat.toDigits_ne_nil, if_false, if_true]
    rw [Int.ofNat_natAbs_of_nonpos (by omega), Int.neg_neg]
  · obtain ⟨c, more, whole, digit⟩ := digits v.natAbs
    have skipped : (space ++ (Nat.toDigits 10 v.natAbs ++ text)).dropWhile isSpace = Nat.toDigits 10 v.natAbs ++ text :=
      dropWhile_run spaces fun x here => by
        rw [whole] at here
        obtain rfl := Option.some.inj here
        exact not_isSpace_of_isDigit digit
    have unsigned : readSign (Nat.toDigits 10 v.natAbs ++ text) = (false, Nat.toDigits 10 v.natAbs ++ text) := by
      rw [whole, List.cons_append]
      unfold readSign
      split
      · next same => obtain rfl := (List.cons.inj same).1; cases digit
      · next same => obtain rfl := (List.cons.inj same).1; cases digit
      · rfl
    rw [if_neg negative, skipped, unsigned]
    simp only [taken, dropped, Nat.ofDigitChars_ten_toDigits, Nat.toDigits_ne_nil, if_false, Bool.false_eq_true]
    rw [Int.natAbs_of_nonneg (by omega)]

theorem scanSigned_numeral (spaces : ∀ c ∈ space, isSpace c) (ends : Ends Char.isDigit text) (lower : -2 ^ (w - 1) ≤ v)
    (upper : v < 2 ^ (w - 1)) : scanSigned w (space ++ (numeral v ++ text)) = some (some (BitVec.ofInt w v), text) := by
  simp [scanSigned, scanNumber_numeral spaces ends, lower, upper]

theorem scanUnsigned_numeral (spaces : ∀ c ∈ space, isSpace c) (ends : Ends Char.isDigit text) (small : v.natAbs < 2 ^ w) :
    scanUnsigned w (space ++ (numeral v ++ text)) = some (some (BitVec.ofInt w v), text) := by
  simp [scanUnsigned, scanNumber_numeral spaces ends, small]

/-- **A word is read back**, with white space on both sides. -/
theorem scanWord_word (spaces : ∀ c ∈ space, isSpace c) (nonempty : run ≠ []) (all : ∀ c ∈ run, isSpace c = false)
    (ends : Ends (!isSpace ·) text) : scanWord (space ++ (run ++ text)) = some (run, text) := by
  obtain ⟨c, more, rfl⟩ := List.exists_cons_of_ne_nil nonempty
  have skipped : (space ++ (c :: more ++ text)).dropWhile isSpace = c :: more ++ text :=
    dropWhile_run spaces fun x here => by
      obtain rfl := Option.some.inj here
      exact all _ (List.mem_cons_self ..)
  have all' : ∀ x ∈ c :: more, (!isSpace x) = true := fun x member => by rw [all x member]; rfl
  rw [scanWord, skipped, List.cons_append]
  dsimp only
  rw [← List.cons_append, takeWhile_run all' ends, dropWhile_run all' ends]

theorem scanWord_space (spaces : ∀ c ∈ space, isSpace c) : scanWord space = none := by
  have ends : Ends isSpace ([] : List Char) := by simp [Ends]
  have skipped := dropWhile_run spaces ends
  rw [List.append_nil] at skipped
  rw [scanWord, skipped]

end SystemsLabs.Theory.Scanning
