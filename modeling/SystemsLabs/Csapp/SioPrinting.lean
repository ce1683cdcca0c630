/-
# SystemsLabs.Csapp.SioPrinting -- what the formatted output prints

`Prints fmt argp text` says what a format stands for, character by character: a conversion of the
table prints its argument (numbers as their digits in the base), every other character prints itself.
`sio_vdprintf` writes that text and returns its length (`sioVdprintf_prints`), the digits of the
smallest and largest numbers fit in its buffer.
-/
import SystemsLabs.Csapp.Sio
import SystemsLabs.Theory.Scanning

namespace SystemsLabs.Csapp

set_option autoImplicit false

open Theory.Buffers
open Theory.Scanning (numeral)

/-! ## Purpose -/

inductive Conversion where
  | char
  | string
  | percent
  | pointer
  | signed (long : Bool)
  | unsigned (long : Bool) (base : Nat)
deriving DecidableEq, Repr

/-- What may follow a `'%'`. -/
def conversions : List (List Char × Conversion) :=
  [(['c'], .char), (['s'], .string), (['%'], .percent), (['p'], .pointer),
   (['d'], .signed false), (['i'], .signed false),
   (['u'], .unsigned false 10), (['x'], .unsigned false 16), (['o'], .unsigned false 8),
   (['l', 'd'], .signed true), (['l', 'i'], .signed true),
   (['l', 'u'], .unsigned true 10), (['l', 'x'], .unsigned true 16), (['l', 'o'], .unsigned true 8),
   (['z', 'd'], .signed true), (['z', 'i'], .signed true),
   (['z', 'u'], .unsigned true 10), (['z', 'x'], .unsigned true 16), (['z', 'o'], .unsigned true 8)]

/-- The text of a conversion and the arguments after it. -/
def Conversion.print (argp : List Arg) : Conversion → Option (List Char × List Arg)
  | .char => (vaInt argp).map fun (v, argp) => ([Char.ofNat (v.toNat % 256)], argp)
  | .string => (vaString argp).map fun (s, argp) => (s.getD "(null)".toList, argp)
  | .percent => some (['%'], argp)
  | .pointer => (vaPointer argp).map fun (p, argp) =>
      (if p = 0 then "(nil)".toList else '0' :: 'x' :: Nat.toDigits 16 p.toNat, argp)
  | .signed false => (vaInt argp).map fun (v, argp) => (numeral v.toInt, argp)
  | .signed true => (vaLong argp).map fun (v, argp) => (numeral v.toInt, argp)
  | .unsigned false base => (vaInt argp).map fun (v, argp) => (Nat.toDigits base v.toNat, argp)
  | .unsigned true base => (vaLong argp).map fun (v, argp) => (Nat.toDigits base v.toNat, argp)

/-- A format prints a text with these arguments, or more. -/
inductive Prints : List Char → List Arg → List Char → Prop where
  | nil (argp : List Arg) : Prints [] argp []
  | conversion {spelling rest text out : List Char} {c : Conversion} {argp argp' : List Arg}
      (row : (spelling, c) ∈ conversions) (print : c.print argp = some (text, argp')) (others : Prints rest argp' out) :
      Prints ('%' :: (spelling ++ rest)) argp (text ++ out)
  | plain {x : Char} {rest out : List Char} {argp : List Arg}
      (noRow : x = '%' → ∀ row ∈ conversions, ¬ row.1 <+: rest) (others : Prints rest argp out) :
      Prints (x :: rest) argp (x :: out)

variable {s i j b v fuel : Nat} {before mid after rest : List Char}

/-! ## Numbers -/

theorem reverseLoop_spec (place : before.length = s + i) (size : i + mid.length = j + 1) (enough : mid.length < 2 * fuel) :
    reverseLoop s fuel i j (before ++ (mid ++ after)) = some (before ++ (mid.reverse ++ after)) := by
  induction fuel generalizing before mid after i j with
  | zero => omega
  | succ fuel ih =>
      rw [reverseLoop]
      rcases mid with _ | ⟨x, mid⟩
      · rw [if_neg (by simp at size; omega), List.reverse_nil]
      rcases List.eq_nil_or_concat mid with rfl | ⟨mid, y, rfl⟩
      · rw [if_neg (by simp at size; omega), List.reverse_singleton]
      simp only [List.length_cons, List.length_append, List.length_nil, List.concat_eq_append] at size enough
      have outer (x y : Char) : before ++ (x :: (mid ++ [y]) ++ after) = before ++ x :: (mid ++ y :: after) := by simp
      have inner (x y : Char) : before ++ x :: (mid ++ y :: after) = (before ++ x :: mid) ++ y :: after := by simp
      have placeY (x : Char) : (before ++ x :: mid).length = s + j := by simp; omega
      rw [if_pos (by omega), List.concat_eq_append, outer, load_at _ place, inner, load_at _ (placeY x), ← inner]
      simp only [Option.bind_eq_bind, Option.bind_some]
      rw [store_at _ place, Option.bind_some, inner, store_at _ (placeY y), Option.bind_some]
      have next : before ++ y :: mid ++ x :: after = (before ++ [y]) ++ (mid ++ (x :: after)) := by simp
      rw [next, ih (by simp; omega) (by omega) (by omega)]
      simp

theorem sioReverse_spec (mid after : List Char) (place : before.length = s) (nonempty : mid ≠ []) :
    sioReverse s mid.length (before ++ (mid ++ after)) = some (before ++ (mid.reverse ++ after)) := by
  have pos := List.length_pos_of_ne_nil nonempty
  exact reverseLoop_spec (by omega) (by omega) (by omega)

theorem digit_char {c : Nat} (small : c < 16) :
    (if c < 10 then Char.ofNat (c + '0'.toNat) else Char.ofNat (c - 10 + 'a'.toNat)) = Nat.digitChar c := by
  revert c
  decide

theorem digitsLoop_spec (base : 1 < b) (base' : b ≤ 16) (place : before.length = s + i)
    (room : mid.length = (Nat.toDigits b v).length) (enough : (Nat.toDigits b v).length ≤ fuel) :
    digitsLoop s b fuel v i (before ++ (mid ++ after)) =
      some (i + (Nat.toDigits b v).length, before ++ ((Nat.toDigits b v).reverse ++ after)) := by
  induction fuel generalizing before mid i v with
  | zero => exact absurd (Nat.length_toDigits_pos (b := b) (n := v)) (by omega)
  | succ fuel ih =>
      have digit := digit_char (Nat.lt_of_lt_of_le (Nat.mod_lt v (by omega)) base')
      rcases mid with _ | ⟨old, mid⟩
      · exact absurd (Nat.length_toDigits_pos (b := b) (n := v)) (by rw [← room]; simp)
      rw [digitsLoop, digit, List.cons_append, store_at _ place]
      rw [Nat.toDigits_eq_if base] at room enough ⊢
      simp only [Option.bind_eq_bind, Option.bind_some]
      by_cases last : v < b
      · obtain rfl : mid = [] := by simpa [last] using room
        rw [if_neg (by simp [Nat.div_eq_of_lt last]), if_pos last, Nat.mod_eq_of_lt last]
        simp
      · rw [if_neg last] at room enough ⊢
        simp only [List.length_append, List.length_cons, List.length_nil] at room enough
        rw [if_pos (Nat.div_pos (by omega) (by omega))]
        have next : before ++ Nat.digitChar (v % b) :: (mid ++ after) = (before ++ [Nat.digitChar (v % b)]) ++ (mid ++ after) := by
          simp
        rw [next, ih (by simp; omega) (by omega) (by omega)]
        simp
        omega

/-- The longest numeral, that of the largest number in base 8. -/
theorem length_toDigits_le (base : 8 ≤ b) (v : BitVec 64) : (Nat.toDigits b v.toNat).length ≤ 22 := by
  rw [Nat.length_toDigits_le_iff (by omega) (by decide)]
  calc v.toNat < 2 ^ 64 := v.isLt
    _ ≤ 8 ^ 22 := by decide
    _ ≤ b ^ 22 := Nat.pow_le_pow_left base 22

variable {w : BitVec 64}

theorem writeDigits_spec (w : BitVec 64) (base : 8 ≤ b) (base' : b ≤ 16) (place : before.length = s) (room : 24 ≤ rest.length) :
    ∃ old nul' after, writeDigits w s b (before ++ rest) = some ((Nat.toDigits b w.toNat).length,
      before ++ ((Nat.toDigits b w.toNat).reverse ++ old :: nul' :: after)) := by
  have short := length_toDigits_le base w
  obtain ⟨mid, beyond, rfl, size⟩ : ∃ mid beyond, rest = mid ++ beyond ∧ mid.length = (Nat.toDigits b w.toNat).length :=
    ⟨rest.take (Nat.toDigits b w.toNat).length, rest.drop _, (List.take_append_drop _ _).symm, by rw [List.length_take]; omega⟩
  rw [List.length_append] at room
  obtain ⟨old, nul', after, rfl⟩ : ∃ old nul' after, beyond = old :: nul' :: after := by
    rcases beyond with _ | ⟨old, _ | ⟨nul', after⟩⟩
    · simp at room; omega
    · simp at room; omega
    · exact ⟨old, nul', after, rfl⟩
  refine ⟨old, nul', after, ?_⟩
  rw [writeDigits, digitsLoop_spec (by omega) base' (by omega) size (by omega), Nat.zero_add]

/-- The string is closed and turned round. -/
theorem closed_spec {digits : List Char} {old : Char} (place : before.length = s) (nonempty : digits ≠ []) :
    (do let buf ← store (before ++ (digits.reverse ++ old :: after)) (s + digits.length) nul
        let buf ← sioReverse s digits.length buf
        some (digits.length, buf)) =
      some (digits.length, before ++ (digits ++ nul :: after)) := by
  have reassoc (x : Char) : before ++ (digits.reverse ++ x :: after) = (before ++ digits.reverse) ++ x :: after := by simp
  have reversed := sioReverse_spec digits.reverse (nul :: after) place (by simpa using nonempty)
  rw [List.length_reverse, List.reverse_reverse] at reversed
  rw [reassoc, store_at _ (by simp [place])]
  simp only [Option.bind_eq_bind, Option.bind_some]
  rw [← reassoc, reversed, Option.bind_some]

theorem uintmaxToString_spec (before rest : List Char) (w : BitVec 64) (base : 8 ≤ b) (base' : b ≤ 16) (place : before.length = s) (room : 24 ≤ rest.length) :
    ∃ after, uintmaxToString w s b (before ++ rest) =
      some ((Nat.toDigits b w.toNat).length, before ++ (Nat.toDigits b w.toNat ++ after)) := by
  obtain ⟨old, nul', after, written⟩ := writeDigits_spec w base base' place room
  refine ⟨nul :: nul' :: after, ?_⟩
  rw [uintmaxToString, written]
  exact closed_spec place (by simp)

/-- The absolute value of a negative number, also of the smallest. -/
theorem toNat_neg_of_neg (negative : w.toInt < 0) : (-w).toNat = w.toInt.natAbs := by
  have := w.isLt
  rw [BitVec.toInt_eq_toNat_cond] at negative ⊢
  rw [BitVec.toNat_neg]
  split at negative
  · omega
  · next large =>
    rw [if_neg large, Nat.mod_eq_of_lt (by omega)]
    omega

theorem toNat_of_nonneg (positive : ¬ w.toInt < 0) : w.toNat = w.toInt.natAbs := by
  have := w.isLt
  rw [BitVec.toInt_eq_toNat_cond] at positive ⊢
  split at positive
  · next small => rw [if_pos small, Int.natAbs_natCast]
  · omega

theorem intmaxToString_spec (before rest : List Char) (w : BitVec 64) (place : before.length = s) (room : 24 ≤ rest.length) :
    ∃ after, intmaxToString w s 10 (before ++ rest) =
      some ((numeral w.toInt).length, before ++ (numeral w.toInt ++ after)) := by
  rw [intmaxToString, numeral]
  by_cases negative : w.toInt < 0
  · obtain ⟨old, nul', after, written⟩ := writeDigits_spec (-w) (b := 10) (by decide) (by decide) place room
    rw [toNat_neg_of_neg negative] at written
    refine ⟨nul :: after, ?_⟩
    have reassoc (x : Char) (beyond : List Char) : before ++ ((Nat.toDigits 10 w.toInt.natAbs).reverse ++ x :: beyond) =
        (before ++ (Nat.toDigits 10 w.toInt.natAbs).reverse) ++ x :: beyond := by simp
    have signed : before ++ ((Nat.toDigits 10 w.toInt.natAbs).reverse ++ '-' :: nul' :: after) =
        before ++ (('-' :: Nat.toDigits 10 w.toInt.natAbs).reverse ++ nul' :: after) := by simp
    rw [if_pos negative, if_pos negative, written]
    simp only [Option.bind_eq_bind, Option.bind_some]
    rw [reassoc, store_at _ (by simp [place]), Option.bind_some, ← reassoc, signed]
    exact closed_spec place (by simp)
  · obtain ⟨old, nul', after, written⟩ := writeDigits_spec w (b := 10) (by decide) (by decide) place room
    rw [toNat_of_nonneg negative] at written
    refine ⟨nul :: nul' :: after, ?_⟩
    rw [if_neg negative, if_neg negative, written]
    exact closed_spec place (by simp)

/-! ## Pieces of the format -/

/-- A piece is taken from the format: how far, the arguments after it, and its text. -/
def Takes (fmt : List Char) (argp : List Arg) (pos : Nat) (argp' : List Arg) (text : List Char) : Prop :=
  ∃ tail buf, handleFormat fmt argp .zero = some (pos, argp', ⟨text ++ tail, text.length, buf⟩)

/-- The variables before the switch over `fmt[1]`. -/
def Handling.start (argp : List Arg) : Handling := ⟨0, false, nul, 0, argp, .zero⟩

variable {st : Handling} {fmt : List Char} {argp argp' : List Arg} {x : Char}

/-- The buffer of a conversion has room for every number. -/
theorem intmaxToString_zero (w : BitVec 64) : ∃ tail,
    intmaxToString w 0 10 FormatData.zero.buf = some ((numeral w.toInt).length, numeral w.toInt ++ tail) :=
  intmaxToString_spec [] (List.replicate 128 nul) w rfl (by simp)

theorem uintmaxToString_zero (base : 8 ≤ b) (base' : b ≤ 16) (w : BitVec 64) : ∃ tail,
    uintmaxToString w 0 b FormatData.zero.buf = some ((Nat.toDigits b w.toNat).length, Nat.toDigits b w.toNat ++ tail) :=
  uintmaxToString_spec [] (List.replicate 128 nul) w base base' rfl (by simp)

/-- The letters of the unsigned conversions. -/
def bases : List (Char × Nat) := [('u', 10), ('x', 16), ('o', 8)]

/-- After a conversion. -/
def Handling.printing (st : Handling) (text tail buf : List Char) : Handling :=
  { st with handled := true, data := ⟨text ++ tail, text.length, buf⟩ }

theorem Takes.of_scan {st' : Handling} {text tail buf : List Char} (scan : (Handling.start argp).scan ('%' :: fmt) = some st)
    (convert : st.convert = some (st'.printing text tail buf)) : Takes ('%' :: fmt) argp st'.pos st'.argp text := by
  refine ⟨tail, buf, ?_⟩
  rw [handleFormat]
  change (do let st ← (do let st ← (Handling.start argp).scan ('%' :: fmt); st.convert); _) = _
  rw [scan]
  simp only [Option.bind_eq_bind, Option.bind_some]
  rw [convert]
  rfl

theorem Handling.convert_none (kind : st.convertType = nul) : st.convert = some st := by
  rw [convert, kind]
  rfl

/-- No number is to be converted. -/
theorem Takes.of_handled {text tail buf : List Char}
    (scan : (Handling.start argp).scan ('%' :: fmt) = some (st.printing text tail buf)) (kind : st.convertType = nul) :
    Takes ('%' :: fmt) argp st.pos st.argp text :=
  Takes.of_scan scan (Handling.convert_none kind)

theorem Takes.signed (scan : (Handling.start argp).scan ('%' :: fmt) = some st) (kind : st.convertType = 'd')
    (zero : st.data = .zero) : Takes ('%' :: fmt) argp st.pos st.argp (numeral st.convertValue.toInt) := by
  obtain ⟨tail, converted⟩ := intmaxToString_zero st.convertValue
  have convert : st.convert = some (st.printing (numeral st.convertValue.toInt) tail (numeral st.convertValue.toInt ++ tail)) := by
    rw [Handling.convert, zero, converted]
    simp [kind, Handling.printing]
  exact .of_scan scan convert

theorem Takes.unsigned (scan : (Handling.start argp).scan ('%' :: fmt) = some st) (kind : (st.convertType, b) ∈ bases)
    (zero : st.data = .zero) : Takes ('%' :: fmt) argp st.pos st.argp (Nat.toDigits b st.convertValue.toNat) := by
  simp only [bases, List.mem_cons, Prod.mk.injEq, List.not_mem_nil, or_false] at kind
  obtain ⟨base, base'⟩ : 8 ≤ b ∧ b ≤ 16 := by omega
  obtain ⟨tail, converted⟩ := uintmaxToString_zero base base' st.convertValue
  have convert : st.convert =
      some (st.printing (Nat.toDigits b st.convertValue.toNat) tail (Nat.toDigits b st.convertValue.toNat ++ tail)) := by
    rcases kind with ⟨kind, rfl⟩ | ⟨kind, rfl⟩ | ⟨kind, rfl⟩
    all_goals
      rw [Handling.convert, zero, converted]
      simp [kind, Handling.printing]
  exact .of_scan scan convert

theorem Takes.pointer (scan : (Handling.start argp).scan ('%' :: fmt) = some st) (kind : st.convertType = 'p')
    (zero : st.data = .zero) : Takes ('%' :: fmt) argp st.pos st.argp ('0' :: 'x' :: Nat.toDigits 16 st.convertValue.toNat) := by
  obtain ⟨tail, converted⟩ := uintmaxToString_spec ['0', 'x'] (nul :: List.replicate 125 nul) (b := 16) st.convertValue
    (by decide) (by decide) rfl (by simp)
  have first : store FormatData.zero.buf 0 '0' = some ('0' :: nul :: nul :: List.replicate 125 nul) := store_append [] _ _ _
  have second : store ('0' :: nul :: nul :: List.replicate 125 nul) 1 'x' = some ('0' :: 'x' :: nul :: List.replicate 125 nul) :=
    store_append ['0'] _ _ _
  have third : store ('0' :: 'x' :: nul :: List.replicate 125 nul) 2 nul = some (['0', 'x'] ++ nul :: List.replicate 125 nul) :=
    store_append ['0', 'x'] _ _ _
  rw [List.length_cons, List.length_singleton] at converted
  have convert : st.convert = some (st.printing ('0' :: 'x' :: Nat.toDigits 16 st.convertValue.toNat) tail
      (['0', 'x'] ++ (Nat.toDigits 16 st.convertValue.toNat ++ tail))) := by
    rw [Handling.convert, zero, first]
    simp only [Option.bind_eq_bind, Option.bind_some]
    rw [second, Option.bind_some, third, Option.bind_some, converted]
    simp [kind, Handling.printing]
  exact .of_scan scan convert

section conversions

variable {v : BitVec 32} {w : BitVec 64} {z : Char}

theorem takes_signed (letter : x = 'd' ∨ x = 'i') (took : vaInt argp = some (v, argp')) :
    Takes ('%' :: x :: fmt) argp 2 argp' (numeral v.toInt) := by
  have scan : (Handling.start argp).scan ('%' :: x :: fmt) =
      some { Handling.start argp with convertType := 'd', convertValue := v.signExtend 64, argp := argp', pos := 2 } := by
    rcases letter with rfl | rfl <;> simp [Handling.scan, Handling.start, took]
  have extended : (v.signExtend 64).toInt = v.toInt := BitVec.toInt_signExtend_of_le (by decide)
  rw [← extended]
  exact .signed scan rfl rfl

theorem takes_unsigned (letter : (x, b) ∈ bases) (took : vaInt argp = some (v, argp')) :
    Takes ('%' :: x :: fmt) argp 2 argp' (Nat.toDigits b v.toNat) := by
  have scan : (Handling.start argp).scan ('%' :: x :: fmt) =
      some { Handling.start argp with convertType := x, convertValue := v.setWidth 64, argp := argp', pos := 2 } := by
    simp only [bases, List.mem_cons, Prod.mk.injEq, List.not_mem_nil, or_false] at letter
    rcases letter with ⟨rfl, -⟩ | ⟨rfl, -⟩ | ⟨rfl, -⟩ <;> simp [Handling.scan, Handling.start, took]
  have extended : (v.setWidth 64).toNat = v.toNat := BitVec.toNat_setWidth_of_le (by decide)
  rw [← extended]
  exact .unsigned scan letter rfl

theorem takes_long_signed (size : z = 'l' ∨ z = 'z') (letter : x = 'd' ∨ x = 'i') (took : vaLong argp = some (w, argp')) :
    Takes ('%' :: z :: x :: fmt) argp 3 argp' (numeral w.toInt) := by
  have scan : (Handling.start argp).scan ('%' :: z :: x :: fmt) =
      some { Handling.start argp with convertType := 'd', convertValue := w, argp := argp', pos := 3 } := by
    rcases size with rfl | rfl <;> rcases letter with rfl | rfl <;>
      simp [Handling.scan, Handling.sized, Handling.start, took]
  exact .signed scan rfl rfl

theorem takes_long_unsigned (size : z = 'l' ∨ z = 'z') (letter : (x, b) ∈ bases) (took : vaLong argp = some (w, argp')) :
    Takes ('%' :: z :: x :: fmt) argp 3 argp' (Nat.toDigits b w.toNat) := by
  have scan : (Handling.start argp).scan ('%' :: z :: x :: fmt) =
      some { Handling.start argp with convertType := x, convertValue := w, argp := argp', pos := 3 } := by
    simp only [bases, List.mem_cons, Prod.mk.injEq, List.not_mem_nil, or_false] at letter
    rcases size with rfl | rfl <;> rcases letter with ⟨rfl, -⟩ | ⟨rfl, -⟩ | ⟨rfl, -⟩ <;>
      simp [Handling.scan, Handling.sized, Handling.start, took]
  exact .unsigned scan letter rfl

theorem takes_pointer (took : vaPointer argp = some (w, argp')) :
    Takes ('%' :: 'p' :: fmt) argp 2 argp' (if w = 0 then "(nil)".toList else '0' :: 'x' :: Nat.toDigits 16 w.toNat) := by
  by_cases null : w = 0
  · have scan : (Handling.start argp).scan ('%' :: 'p' :: fmt) =
        some ({ Handling.start argp' with pos := 2 }.printing "(nil)".toList [] FormatData.zero.buf) := by
      simp [Handling.scan, Handling.start, Handling.printing, took, show w = 0#64 from null]
    rw [if_pos null]
    exact .of_handled scan rfl
  · have scan : (Handling.start argp).scan ('%' :: 'p' :: fmt) =
        some { Handling.start argp' with convertType := 'p', convertValue := w, pos := 2 } := by
      simp [Handling.scan, Handling.start, took, show ¬ w = 0#64 from null]
    rw [if_neg null]
    exact .pointer scan rfl rfl

theorem takes_char (took : vaInt argp = some (v, argp')) :
    Takes ('%' :: 'c' :: fmt) argp 2 argp' [Char.ofNat (v.toNat % 256)] := by
  obtain ⟨rest, first, second⟩ : ∃ rest, store FormatData.zero.buf 0 (Char.ofNat (v.toNat % 256)) =
      some (Char.ofNat (v.toNat % 256) :: nul :: rest) ∧
      store (Char.ofNat (v.toNat % 256) :: nul :: rest) 1 nul = some (Char.ofNat (v.toNat % 256) :: nul :: rest) :=
    ⟨List.replicate 126 nul, store_append [] _ _ _, store_append [_] _ _ _⟩
  have scan : (Handling.start argp).scan ('%' :: 'c' :: fmt) =
      some ({ Handling.start argp' with pos := 2 }.printing [Char.ofNat (v.toNat % 256)] (nul :: rest)
        (Char.ofNat (v.toNat % 256) :: nul :: rest)) := by
    simp [Handling.scan, Handling.start, Handling.printing, took, first, second]
  exact .of_handled scan rfl

theorem takes_string {str : Option (List Char)} (took : vaString argp = some (str, argp')) :
    Takes ('%' :: 's' :: fmt) argp 2 argp' (str.getD "(null)".toList) := by
  have scan : (Handling.start argp).scan ('%' :: 's' :: fmt) =
      some ({ Handling.start argp' with pos := 2 }.printing (str.getD "(null)".toList) [] FormatData.zero.buf) := by
    simp [Handling.scan, Handling.start, Handling.printing, took]
  exact .of_handled scan rfl

theorem takes_percent : Takes ('%' :: '%' :: fmt) argp 2 argp ['%'] := by
  have scan : (Handling.start argp).scan ('%' :: '%' :: fmt) =
      some ({ Handling.start argp with pos := 2 }.printing ['%'] ('%' :: fmt) FormatData.zero.buf) := by
    simp [Handling.scan, Handling.start, Handling.printing]
  exact .of_handled scan rfl

end conversions

theorem handleFormat_conversion {spelling text : List Char} {c : Conversion}
    (row : (spelling, c) ∈ conversions) (print : c.print argp = some (text, argp')) (rest : List Char) :
    Takes ('%' :: (spelling ++ rest)) argp (1 + spelling.length) argp' text := by
  simp only [conversions, List.mem_cons, Prod.mk.injEq, List.not_mem_nil, or_false] at row
  rcases row with ⟨rfl, rfl⟩ | ⟨rfl, rfl⟩ | ⟨rfl, rfl⟩ | ⟨rfl, rfl⟩ | ⟨rfl, rfl⟩ | ⟨rfl, rfl⟩ | ⟨rfl, rfl⟩ | ⟨rfl, rfl⟩ |
    ⟨rfl, rfl⟩ | ⟨rfl, rfl⟩ | ⟨rfl, rfl⟩ | ⟨rfl, rfl⟩ | ⟨rfl, rfl⟩ | ⟨rfl, rfl⟩ | ⟨rfl, rfl⟩ | ⟨rfl, rfl⟩ | ⟨rfl, rfl⟩ |
    ⟨rfl, rfl⟩ | ⟨rfl, rfl⟩
  · obtain ⟨⟨v, args⟩, took, done⟩ := Option.map_eq_some_iff.mp print
    obtain ⟨rfl, rfl⟩ := Prod.mk.inj done
    exact takes_char took
  · obtain ⟨⟨s, args⟩, took, done⟩ := Option.map_eq_some_iff.mp print
    obtain ⟨rfl, rfl⟩ := Prod.mk.inj done
    exact takes_string took
  · obtain ⟨rfl, rfl⟩ := Prod.mk.inj (Option.some.inj print)
    exact takes_percent
  · obtain ⟨⟨p, args⟩, took, done⟩ := Option.map_eq_some_iff.mp print
    obtain ⟨rfl, rfl⟩ := Prod.mk.inj done
    exact takes_pointer took
  all_goals
    obtain ⟨⟨v, args⟩, took, done⟩ := Option.map_eq_some_iff.mp print
    obtain ⟨rfl, rfl⟩ := Prod.mk.inj done
  iterate 2 exact takes_signed (by simp) took
  iterate 3 exact takes_unsigned (by simp [bases]) took
  iterate 2 exact takes_long_signed (by simp) (by simp) took
  iterate 3 exact takes_long_unsigned (by simp) (by simp [bases]) took
  iterate 2 exact takes_long_signed (by simp) (by simp) took
  iterate 3 exact takes_long_unsigned (by simp) (by simp [bases]) took

theorem Handling.scan_none (argp : List Arg) (plain : ∀ row ∈ conversions, ¬ row.1 <+: fmt) :
    (Handling.start argp).scan ('%' :: fmt) = some (Handling.start argp) := by
  simp only [conversions, List.forall_mem_cons] at plain
  rcases fmt with _ | ⟨y, fmt⟩
  · rfl
  rw [Handling.scan, List.getD_cons_succ, List.getD_cons_zero]
  split
  -- only the letters of a size are left, without their conversion
  all_goals simp at plain
  case h_10 | h_11 =>
    rcases fmt with _ | ⟨z, fmt⟩
    · rfl
    rw [List.getD_cons_succ, List.getD_cons_succ, List.getD_cons_zero]
    unfold Handling.sized
    split <;> simp at plain
    rfl
  rfl

/-- What is no conversion is written as it stands, up to the next `'%'`. -/
theorem handleFormat_plain (plain : x = '%' → ∀ row ∈ conversions, ¬ row.1 <+: fmt) (argp : List Arg) :
    Takes (x :: fmt) argp (1 + (fmt.takeWhile fun c => c ≠ '%').length) argp (x :: fmt.takeWhile fun c => c ≠ '%') := by
  refine ⟨fmt.dropWhile fun c => c ≠ '%', FormatData.zero.buf, ?_⟩
  rw [List.cons_append, List.takeWhile_append_dropWhile, handleFormat, List.getD_cons_zero, List.drop_one, List.tail_cons,
    List.length_cons, Nat.add_comm 1]
  by_cases percent : x = '%'
  · subst percent
    have scan := Handling.scan_none argp (plain rfl)
    rw [Handling.start] at scan
    simp only [if_pos, Option.bind_eq_bind, scan, Option.bind_some]
    rw [Handling.convert_none rfl]
    simp
  · simp [percent]

/-- Between two `'%'` each character prints itself. -/
theorem Prints.past {run rest text : List Char} (noRow : ∀ c ∈ run, c ≠ '%') (prints : Prints (run ++ rest) argp text) :
    ∃ out, text = run ++ out ∧ Prints rest argp out := by
  induction run generalizing text with
  | nil => exact ⟨text, rfl, prints⟩
  | cons c run ih =>
      obtain ⟨plain, others⟩ := List.forall_mem_cons.mp noRow
      obtain ⟨fmt, whole⟩ : ∃ fmt, fmt = run ++ rest := ⟨_, rfl⟩
      rw [List.cons_append, ← whole] at prints
      cases prints with
      | conversion => exact absurd rfl plain
      | plain _ next =>
          obtain ⟨out, rfl, prints⟩ := ih others (whole ▸ next)
          exact ⟨out, rfl, prints⟩

theorem Prints.literal {run out : List Char} (noRow : ∀ c ∈ run, c ≠ '%') (prints : Prints fmt argp out) :
    Prints (run ++ fmt) argp (run ++ out) := by
  induction run with
  | nil => exact prints
  | cons c run ih =>
      obtain ⟨plain, others⟩ := List.forall_mem_cons.mp noRow
      exact .plain (fun percent => absurd percent plain) (ih others)

/-- **One piece of the format** is what `_handle_format` takes. -/
theorem Prints.step {text : List Char} (prints : Prints (x :: fmt) argp text) :
    ∃ pos argp' piece out, Takes (x :: fmt) argp (pos + 1) argp' piece ∧ Prints (fmt.drop pos) argp' out ∧ text = piece ++ out := by
  cases prints with
  | @conversion spelling rest _ _ c _ argp' row print others =>
      refine ⟨spelling.length, argp', _, _, ?_, ?_, rfl⟩
      · rw [Nat.add_comm]
        exact handleFormat_conversion row print rest
      · rwa [List.drop_left]
  | plain noRow others =>
      have takes := handleFormat_plain noRow argp
      obtain ⟨run, tail, isRun, whole⟩ : ∃ run tail, (fmt.takeWhile fun c => c ≠ '%') = run ∧ run ++ tail = fmt :=
        ⟨_, _, rfl, List.takeWhile_append_dropWhile⟩
      have plain : ∀ c ∈ run, c ≠ '%' := by
        intro c member
        rw [← isRun] at member
        simpa using List.mem_takeWhile_imp member
      rw [← whole] at others
      obtain ⟨out, rfl, rest⟩ := others.past plain
      refine ⟨run.length, argp, x :: run, out, ?_, ?_, rfl⟩
      · rwa [isRun, Nat.add_comm] at takes
      · rwa [← whole, List.drop_left]

/-! ## Printing -/

section printing

variable {peer peer' peer'' : Peer} {a b part : List UInt8} {text : List Char} {m n : Nat} {ret : Int}

/-- After a piece that is written, the others. -/
theorem Peer.Written.append (first : peer'.accepted = peer.accepted ++ a) (rest : Peer.Written peer' peer'' b part n ret) :
    Peer.Written peer peer'' (a ++ b) (a ++ part) n ret := by
  refine ⟨?_, (List.prefix_append_right_inj a).mpr rest.isPrefix, rest.result.imp (And.imp_right ?_) (And.imp_right (And.imp_left ?_))⟩
  · rw [rest.accepted, first, List.append_assoc]
  · rintro rfl
    rfl
  · exact fun other same => other (List.append_cancel_left same)

/-- A piece that is not written is the last. -/
theorem Peer.Written.abandon (failed : Peer.Written peer peer' a part m (-1)) (b : List UInt8) (n : Nat) :
    Peer.Written peer peer' (a ++ b) part n (-1) := by
  obtain ⟨accepted, isPrefix, ⟨ret, -⟩ | ⟨-, unfinished, errno⟩⟩ := failed
  · omega
  refine ⟨accepted, isPrefix.trans (List.prefix_append a b), Or.inr ⟨rfl, ?_, errno⟩⟩
  rintro rfl
  exact unfinished ((List.prefix_append a b).eq_of_length_le isPrefix.length_le).symm

theorem toBytes_append (s t : List Char) : toBytes (s ++ t) = toBytes s ++ toBytes t := List.map_append

@[simp] theorem length_toBytes (s : List Char) : (toBytes s).length = s.length := List.length_map ..

theorem vdprintfLoop_written (prints : Prints fmt argp text) (whole : nul ∉ fmt)
    (done : vdprintfLoop fuel fmt argp n peer = some (ret, peer')) :
    ∃ part, Peer.Written peer peer' (toBytes text) part (n + text.length) ret := by
  induction fuel generalizing fmt argp text n peer with
  | zero => cases done
  | succ fuel ih =>
      rw [vdprintfLoop] at done
      rcases fmt with _ | ⟨x, fmt⟩
      · cases prints
        rw [List.getD_nil, if_neg (not_not_intro rfl)] at done
        obtain ⟨rfl, rfl⟩ := Prod.mk.inj (Option.some.inj done)
        exact ⟨[], (List.append_nil _).symm, List.nil_prefix, Or.inl ⟨by simp, rfl⟩⟩
      obtain ⟨pos, argp', piece, out, ⟨tail, buf, taken⟩, others, rfl⟩ := prints.step
      have notEnd : x ≠ nul := fun isEnd => whole (isEnd ▸ List.mem_cons_self ..)
      have restWhole : nul ∉ fmt.drop pos := fun member => whole (List.mem_cons_of_mem _ (List.mem_of_mem_drop member))
      rw [List.getD_cons_zero, if_pos notEnd, taken] at done
      simp only [Option.bind_eq_bind, Option.bind_some, List.drop_succ_cons, List.take_left] at done
      rw [toBytes_append, List.length_append, ← Nat.add_assoc]
      split at done
      · obtain ⟨⟨ret', next⟩, wrote, done⟩ := Option.bind_eq_some_iff.mp done
        obtain ⟨part, written⟩ := Peer.rioWriten_spec wrote
        dsimp only at done
        split at done
        · next failed =>
          obtain ⟨rfl, rfl⟩ := Prod.mk.inj (Option.some.inj done)
          have answer : ret' = -1 := by
            rcases written.result with ⟨all, -⟩ | ⟨plain, -⟩
            · rw [length_toBytes] at all
              omega
            · exact plain
          rw [answer] at written
          exact ⟨part, written.abandon _ _⟩
        · next complete =>
          obtain ⟨-, rfl⟩ | ⟨failed, -⟩ := written.result
          · rw [← Int.natCast_add] at done
            obtain ⟨rest, written'⟩ := ih others restWhole done
            exact ⟨_, written'.append written.accepted⟩
          · omega
      · next empty =>
        obtain rfl : piece = [] := List.length_eq_zero_iff.mp (by omega)
        exact ih others restWhole done

theorem vdprintfLoop_returns (prints : Prints fmt argp text) (whole : nul ∉ fmt) (accepts : peer.Accepts (text.length + m))
    (enough : fmt.length < fuel) :
    ∃ peer', vdprintfLoop fuel fmt argp n peer = some (((n + text.length : Nat) : Int), peer') ∧ peer'.Accepts m := by
  induction fuel generalizing fmt argp text n peer with
  | zero => exact absurd enough (Nat.not_lt_zero _)
  | succ fuel ih =>
      rw [vdprintfLoop]
      rcases fmt with _ | ⟨x, fmt⟩
      · cases prints
        rw [List.getD_nil, if_neg (not_not_intro rfl)]
        exact ⟨peer, by simp, by simpa using accepts⟩
      obtain ⟨pos, argp', piece, out, ⟨tail, buf, taken⟩, others, rfl⟩ := prints.step
      have notEnd : x ≠ nul := fun isEnd => whole (isEnd ▸ List.mem_cons_self ..)
      have restWhole : nul ∉ fmt.drop pos := fun member => whole (List.mem_cons_of_mem _ (List.mem_of_mem_drop member))
      have shorter : (fmt.drop pos).length < fuel := by
        rw [List.length_drop]
        rw [List.length_cons] at enough
        omega
      rw [List.length_append, Nat.add_assoc] at accepts
      rw [List.getD_cons_zero, if_pos notEnd, taken]
      simp only [Option.bind_eq_bind, Option.bind_some, List.drop_succ_cons, List.take_left]
      rw [List.length_append, ← Nat.add_assoc]
      split
      · rw [← length_toBytes piece] at accepts
        obtain ⟨next, wrote, accepts, -⟩ := Peer.rioWriten_returns accepts
        rw [wrote, Option.bind_some]
        dsimp only
        rw [if_neg (by rw [length_toBytes]; omega), ← Int.natCast_add]
        exact ih others restWhole accepts shorter
      · next empty =>
        obtain rfl : piece = [] := List.length_eq_zero_iff.mp (by omega)
        rw [List.length_nil, Nat.zero_add] at accepts
        exact ih others restWhole accepts shorter

/-- **The formatted output is what the format stands for**: where `sio_vdprintf` returns, the text is
written and its length returned, or a proper beginning of it and -1; and it returns where the
descriptor goes on accepting. -/
theorem sioVdprintf_prints (prints : Prints fmt argp text) (whole : nul ∉ fmt) (peer : Peer) :
    (∀ ret peer', sioVdprintf peer fmt argp = some (ret, peer') → ∃ part, Peer.Written peer peer' (toBytes text) part text.length ret) ∧
      (peer.Accepts text.length → ∃ peer', sioVdprintf peer fmt argp = some ((text.length : Int), peer') ∧
        peer'.accepted = peer.accepted ++ toBytes text) := by
  have written (ret : Int) (peer' : Peer) (done : sioVdprintf peer fmt argp = some (ret, peer')) :
      ∃ part, Peer.Written peer peer' (toBytes text) part text.length ret := by
    simpa using vdprintfLoop_written (n := 0) prints whole done
  refine ⟨written, fun accepts => ?_⟩
  obtain ⟨peer', done, -⟩ := vdprintfLoop_returns (m := 0) (n := 0) prints whole accepts (Nat.lt_succ_self _)
  rw [Nat.zero_add] at done
  obtain ⟨part, accepted, -, ⟨-, rfl⟩ | ⟨failed, -⟩⟩ := written _ _ done
  · exact ⟨peer', done, accepted⟩
  · omega

/-- A report with the smallest number, a `'%'` of its own and one that starts no conversion. -/
def report : List Char := "%s%%: %ld%".toList

def reportArgs : List Arg := [.string none, .long (BitVec.ofNat 64 (2 ^ 63))]

def reported : List Char := "(null)%: -9223372036854775808%".toList

def slowTerminal : Peer := ⟨[], [.upTo 2, .error eintr, .upTo 100, .error 5], 0⟩

theorem report_prints : Prints report reportArgs reported := by
  have format : report = '%' :: (['s'] ++ '%' :: (['%'] ++ (": ".toList ++ '%' :: (['l', 'd'] ++ ['%'])))) := by decide
  have text : reported = "(null)".toList ++ (['%'] ++ (": ".toList ++ ("-9223372036854775808".toList ++ ['%']))) := by decide
  have string : (['s'], .string) ∈ conversions := by decide
  have percent : (['%'], .percent) ∈ conversions := by decide
  have number : (['l', 'd'], .signed true) ∈ conversions := by decide
  rw [format, text]
  have smallest : Conversion.print [.long (BitVec.ofNat 64 (2 ^ 63))] (.signed true) = some ("-9223372036854775808".toList, []) := by
    decide
  refine .conversion string rfl (.conversion percent rfl (.literal (by simp) (.conversion number smallest ?_)))
  exact .plain (fun _ => by decide) (.nil [])

theorem sioVdprintf_prints_report :
    (∀ ret peer', sioVdprintf slowTerminal report reportArgs = some (ret, peer') →
      ∃ part, Peer.Written slowTerminal peer' (toBytes reported) part reported.length ret) ∧
    (slowTerminal.Accepts reported.length → ∃ peer', sioVdprintf slowTerminal report reportArgs = some ((reported.length : Int), peer') ∧
      peer'.accepted = slowTerminal.accepted ++ toBytes reported) :=
  sioVdprintf_prints report_prints (by decide) slowTerminal

/-- What a failed assertion prints. -/
theorem assertFailed_prints (progname assertion file function : List Char) (line : BitVec 32) :
    Prints assertFailed [.string (some progname), .string (some file), .int line, .string (some function), .string (some assertion)]
      (progname ++ (": ".toList ++ (file ++ (":".toList ++ (Nat.toDigits 10 line.toNat ++ (": ".toList ++ (function ++
        (": Assertion `".toList ++ (assertion ++ ("' failed.\n".toList ++ [])))))))))) := by
  have split : assertFailed = '%' :: (['s'] ++ (": ".toList ++ '%' :: (['s'] ++ (":".toList ++ '%' :: (['u'] ++ (": ".toList ++
    '%' :: (['s'] ++ (": Assertion `".toList ++ '%' :: (['s'] ++ ("' failed.\n".toList ++ [])))))))))) := by decide
  have string : (['s'], .string) ∈ conversions := by decide
  rw [split]
  refine .conversion string rfl (.literal (by simp) ?_)
  refine .conversion string rfl (.literal (by simp) ?_)
  refine .conversion (show (['u'], .unsigned false 10) ∈ conversions by decide) rfl (.literal (by simp) ?_)
  refine .conversion string rfl (.literal (by simp) ?_)
  exact .conversion string rfl (.literal (by simp) (.nil []))

theorem sioAssertFail_written {stderr : Peer} {progname assertion file function : List Char} {line : BitVec 32}
    (done : sioAssertFail stderr progname assertion file function line = some (ret, peer')) :
    ∃ part text, Prints assertFailed
        [.string (some progname), .string (some file), .int line, .string (some function), .string (some assertion)] text ∧
      Peer.Written stderr peer' (toBytes text) part text.length ret := by
  have prints := assertFailed_prints progname assertion file function line
  obtain ⟨part, written⟩ := vdprintfLoop_written (n := 0) prints (by decide) done
  rw [Nat.zero_add] at written
  exact ⟨part, _, prints, written⟩

end printing

end SystemsLabs.Csapp
