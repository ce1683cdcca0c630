/-
# SystemsLabs.Csapp.Sio -- formatted output of `csapp.c`

The signal-safe printing functions: numbers are converted in a buffer on the stack of the caller,
with the digits written backwards and the buffer then reversed in place, and each piece of the format
is written at once.

A C string is the list of its characters without the `'\0'`.  `none` is what C leaves undefined (a
store outside the buffer, an argument of another type) and a call that does not return.
-/
import SystemsLabs.Csapp.RioWriting
import SystemsLabs.Theory.Buffers

namespace SystemsLabs.Csapp

set_option autoImplicit false

open Theory.Buffers

/-- `'\0'`. -/
abbrev nul : Char := Char.ofNat 0

/-! ## Numbers -/

/-- The loop of `sio_reverse`; `s` is where the string is in the buffer. -/
def reverseLoop (s : Nat) : Nat → Nat → Nat → List Char → Option (List Char)
  | 0, _, _, _ => none
  | fuel + 1, i, j, buf =>
      if i < j then do
        let c ← buf[s + i]?
        let other ← buf[s + j]?
        let buf ← store buf (s + i) other
        let buf ← store buf (s + j) c
        reverseLoop s fuel (i + 1) (j - 1) buf
      else some buf

/-- `len` is not 0 where this is called. -/
def sioReverse (s len : Nat) (buf : List Char) : Option (List Char) := reverseLoop s len 0 (len - 1) buf

/-- The loop of `write_digits`, with `i` digits written. -/
def digitsLoop (s b : Nat) : Nat → Nat → Nat → List Char → Option (Nat × List Char)
  | 0, _, _, _ => none
  | fuel + 1, v, i, buf => do
      let c := v % b
      let buf ← store buf (s + i)
        (if c < 10 then Char.ofNat (c + '0'.toNat) else Char.ofNat (c - 10 + 'a'.toNat))
      if v / b > 0 then digitsLoop s b fuel (v / b) (i + 1) buf else some (i + 1, buf)

def writeDigits (v : BitVec 64) (s b : Nat) (buf : List Char) : Option (Nat × List Char) :=
  digitsLoop s b 64 v.toNat 0 buf

def intmaxToString (v : BitVec 64) (s b : Nat) (buf : List Char) : Option (Nat × List Char) := do
  let (len, buf) ←
    if v.toInt < 0 then do
      -- the negation wraps: `INTMAX_MIN` stays what it is, which is its absolute value when unsigned
      let (len, buf) ← writeDigits (-v) s b buf
      let buf ← store buf (s + len) '-'
      some (len + 1, buf)
    else writeDigits v s b buf
  let buf ← store buf (s + len) nul
  let buf ← sioReverse s len buf
  some (len, buf)

def uintmaxToString (v : BitVec 64) (s b : Nat) (buf : List Char) : Option (Nat × List Char) := do
  let (len, buf) ← writeDigits v s b buf
  let buf ← store buf (s + len) nul
  let buf ← sioReverse s len buf
  some (len, buf)

/-! ## Arguments -/

/-- What the caller passed: an `int` or `unsigned`, a `long`, `unsigned long` or `size_t`, a `char *` and
another pointer. -/
inductive Arg where
  | int (v : BitVec 32)
  | long (v : BitVec 64)
  | string (s : Option (List Char))
  | pointer (p : BitVec 64)
deriving DecidableEq, Repr

def vaInt : List Arg → Option (BitVec 32 × List Arg)
  | .int v :: argp => some (v, argp)
  | _ => none

def vaLong : List Arg → Option (BitVec 64 × List Arg)
  | .long v :: argp => some (v, argp)
  | _ => none

def vaString : List Arg → Option (Option (List Char) × List Arg)
  | .string s :: argp => some (s, argp)
  | _ => none

def vaPointer : List Arg → Option (BitVec 64 × List Arg)
  | .pointer p :: argp => some (p, argp)
  | _ => none

/-! ## Pieces of the format -/

/-- `struct _format_data`; of `str` the characters from there on. -/
structure FormatData where
  str : List Char
  len : Nat
  buf : List Char
deriving DecidableEq, Repr

/-- After the `memset`. -/
def FormatData.zero : FormatData := ⟨[], 0, List.replicate 128 nul⟩

/-- The variables of `_handle_format`, with `va_list` and `data`. -/
structure Handling where
  pos : Nat
  handled : Bool
  convertType : Char
  convertValue : BitVec 64
  argp : List Arg
  data : FormatData
deriving DecidableEq, Repr

/-- An `'l'` or a `'z'`, before the character at 2. -/
def Handling.sized (st : Handling) (c : Char) : Option Handling :=
  match c with
  | 'd' | 'i' => do
      let (v, argp) ← vaLong st.argp
      some { st with convertType := 'd', convertValue := v, argp := argp, pos := st.pos + 3 }
  | 'u' | 'x' | 'o' => do
      let (v, argp) ← vaLong st.argp
      some { st with convertType := c, convertValue := v, argp := argp, pos := st.pos + 3 }
  | _ => some st

/-- The switch over `fmt[1]`. -/
def Handling.scan (st : Handling) (fmt : List Char) : Option Handling :=
  match fmt.getD 1 nul with
  | 'c' => do
      let (v, argp) ← vaInt st.argp
      let buf ← store st.data.buf 0 (Char.ofNat (v.toNat % 256))
      let buf ← store buf 1 nul
      some { st with argp := argp, data := ⟨buf, 1, buf⟩, handled := true, pos := st.pos + 2 }
  | 's' => do
      let (s, argp) ← vaString st.argp
      let str := s.getD "(null)".toList
      some { st with argp := argp, data := ⟨str, str.length, st.data.buf⟩, handled := true, pos := st.pos + 2 }
  | '%' => some { st with data := ⟨fmt, 1, st.data.buf⟩, handled := true, pos := st.pos + 2 }
  | 'p' => do
      let (ptr, argp) ← vaPointer st.argp
      if ptr = 0 then
        let str := "(nil)".toList
        some { st with argp := argp, data := ⟨str, str.length, st.data.buf⟩, handled := true, pos := st.pos + 2 }
      else some { st with argp := argp, convertType := 'p', convertValue := ptr, pos := st.pos + 2 }
  | 'd' | 'i' => do
      let (v, argp) ← vaInt st.argp
      some { st with convertType := 'd', convertValue := v.signExtend 64, argp := argp, pos := st.pos + 2 }
  | 'u' | 'x' | 'o' => do
      let (v, argp) ← vaInt st.argp
      some { st with convertType := fmt.getD 1 nul, convertValue := v.setWidth 64, argp := argp, pos := st.pos + 2 }
  | 'l' => st.sized (fmt.getD 2 nul)
  | 'z' => st.sized (fmt.getD 2 nul)
  | _ => some st

/-- The switch over `convert_type`. -/
def Handling.convert (st : Handling) : Option Handling :=
  match st.convertType with
  | 'd' => do
      let (len, buf) ← intmaxToString st.convertValue 0 10 st.data.buf
      some { st with data := ⟨buf, len, buf⟩, handled := true }
  | 'u' => do
      let (len, buf) ← uintmaxToString st.convertValue 0 10 st.data.buf
      some { st with data := ⟨buf, len, buf⟩, handled := true }
  | 'x' => do
      let (len, buf) ← uintmaxToString st.convertValue 0 16 st.data.buf
      some { st with data := ⟨buf, len, buf⟩, handled := true }
  | 'o' => do
      let (len, buf) ← uintmaxToString st.convertValue 0 8 st.data.buf
      some { st with data := ⟨buf, len, buf⟩, handled := true }
  | 'p' => do
      -- `strcpy(data->buf, "0x")`
      let buf ← store st.data.buf 0 '0'
      let buf ← store buf 1 'x'
      let buf ← store buf 2 nul
      let (len, buf) ← uintmaxToString st.convertValue 2 16 buf
      some { st with data := ⟨buf, len + 2, buf⟩, handled := true }
  | _ => some st

/-- `_handle_format`: how far it goes in the format, the arguments left and what is to be written. -/
def handleFormat (fmt : List Char) (argp : List Arg) (data : FormatData) : Option (Nat × List Arg × FormatData) := do
  let st : Handling := ⟨0, false, nul, 0, argp, data⟩
  let st ← if fmt.getD 0 nul = '%' then (do let st ← st.scan fmt; st.convert) else some st
  if st.handled then some (st.pos, st.argp, st.data)
  else
    -- up to the next `'%'`
    let len := 1 + ((fmt.drop 1).takeWhile fun c => c ≠ '%').length
    some (st.pos + len, st.argp, ⟨fmt, len, st.data.buf⟩)

/-! ## Printing -/

/-- A character as the byte that is written. -/
def toBytes (s : List Char) : List UInt8 := s.map Char.toUInt8

/-- The loop of `sio_vdprintf` on what is left of the format. -/
def vdprintfLoop : Nat → List Char → List Arg → Int → Peer → Option (Int × Peer)
  | 0, _, _, _, _ => none
  | fuel + 1, fmt, argp, numWritten, fileno =>
      if fmt.getD 0 nul ≠ nul then do
        let (pos, argp, data) ← handleFormat fmt argp .zero
        if data.len > 0 then
          let (ret, fileno) ← fileno.rioWriten (toBytes (data.str.take data.len))
          if ret < 0 ∨ ret ≠ data.len then some (-1, fileno)
          else vdprintfLoop fuel (fmt.drop pos) argp (numWritten + data.len) fileno
        else vdprintfLoop fuel (fmt.drop pos) argp numWritten fileno
      else some (numWritten, fileno)

def sioVdprintf (fileno : Peer) (fmt : List Char) (argp : List Arg) : Option (Int × Peer) :=
  vdprintfLoop (fmt.length + 1) fmt argp 0 fileno

/-- The format of `__sio_assert_fail`. -/
def assertFailed : List Char := "%s: %s:%u: %s: Assertion `%s' failed.\n".toList

/-- `__sio_assert_fail`, which aborts after this. -/
def sioAssertFail (stderr : Peer) (progname assertion file function : List Char) (line : BitVec 32) : Option (Int × Peer) :=
  sioVdprintf stderr assertFailed
    [.string (some progname), .string (some file), .int line, .string (some function), .string (some assertion)]

end SystemsLabs.Csapp
