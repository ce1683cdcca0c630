/-
# SystemsLabs.Shell.Parseline -- `parseline` of `tsh_helper.c`

The parser of the shell.  A string is the list of its characters up to the terminating NUL.
A pointer into the buffer is the rest of the line behind it: the parser writes only behind
its pointers, so it never reads what it wrote.
-/
import Mathlib.Tactic.Common
import Mathlib.Data.List.Basic

namespace SystemsLabs.Shell

set_option autoImplicit false

/-- `MAXLINE_TSH` -/
abbrev maxLineTsh : Nat := 1024

/-- `MAXARGS` -/
abbrev maxArgs : Nat := 128

/-- `ST_NORMAL`, `ST_INFILE` and `ST_OUTFILE` -/
inductive ParseState where
  | normal
  | infile
  | outfile
deriving DecidableEq, Repr

inductive ParselineReturn where
  | fg
  | bg
  | empty
  | error
deriving DecidableEq, Repr

inductive BuiltinState where
  | none
  | quit
  | jobs
  | bg
  | fg
deriving DecidableEq, Repr

/-- `struct cmdline_tokens`; `argc` is the length of the list `argv` of the arguments. -/
structure CmdlineTokens where
  argv : List (List Char)
  /-- the array `argv` as far as it has been stored into; `none` is `NULL` -/
  cells : List (Option (List Char))
  infile : Option (List Char)
  outfile : Option (List Char)
  builtin : BuiltinState
deriving DecidableEq, Repr

namespace CmdlineTokens

def initial : CmdlineTokens := ⟨[], [], none, none, .none⟩

/-- `token->argv[i] = arg` -/
def store (token : CmdlineTokens) (i : Nat) (arg : Option (List Char)) : CmdlineTokens :=
  { token with cells := token.cells.take i ++ arg :: token.cells.drop (i + 1) }

/-- Record the word as the next argument or as a file. -/
def record (token : CmdlineTokens) (word : List Char) : ParseState → CmdlineTokens
  | .normal => { token.store token.argv.length (some word) with argv := token.argv ++ [word] }
  | .infile => { token with infile := some word }
  | .outfile => { token with outfile := some word }

end CmdlineTokens

/-- The argument delimiters. -/
def isDelim (c : Char) : Bool := c ∈ [' ', '\t', '\r', '\n']

def isQuote (c : Char) : Bool := c = '\'' || c = '"'

/-- The word that starts with `c`, and what follows it.  There is none where the closing quote
is not found. -/
def nextWord (c : Char) (rest : List Char) : Option (List Char × List Char) :=
  if isQuote c then
    if c ∈ rest then some (rest.takeWhile (· ≠ c), (rest.dropWhile (· ≠ c)).tail) else none
  else some ((c :: rest).takeWhile (!isDelim ·), ((c :: rest).dropWhile (!isDelim ·)).tail)

/-- The loop of `parseline`, in which each pass reads a character at least; `none` is
`PARSELINE_ERROR`. -/
def parseLoop : Nat → List Char → ParseState → CmdlineTokens → Option (ParseState × CmdlineTokens)
  | 0, _, state, token => some (state, token)
  | fuel + 1, buf, state, token =>
      -- skip the white-spaces
      match buf.dropWhile isDelim with
      | [] => some (state, token)
      | c :: rest =>
          if c = '<' then
            if token.infile.isSome then none else parseLoop fuel rest .infile token
          else if c = '>' then
            if token.outfile.isSome then none else parseLoop fuel rest .outfile token
          else
            match nextWord c rest with
            | none => none
            | some (word, next) =>
                let token := token.record word state
                -- check if argv is full
                if token.argv.length ≥ maxArgs - 1 then some (.normal, token)
                else parseLoop fuel next .normal token

/-! ## What is read of a line -/

theorem nextWord_length {c : Char} {rest word next : List Char} (read : nextWord c rest = some (word, next)) :
    next.length ≤ rest.length := by
  unfold nextWord at read
  split at read
  · split at read
    · cases read
      have dropped := (List.dropWhile_sublist (p := (· ≠ c)) (l := rest)).length_le
      simp only [List.length_tail]
      omega
    · cases read
  · cases read
    have dropped := (List.dropWhile_sublist (p := (!isDelim ·)) (l := c :: rest)).length_le
    simp only [List.length_tail]
    simp only [List.length_cons] at dropped
    omega

theorem dropWhile_length {buf rest : List Char} {c : Char} (skipped : buf.dropWhile isDelim = c :: rest) :
    rest.length < buf.length := by
  have dropped := (List.dropWhile_sublist (p := isDelim) (l := buf)).length_le
  rw [skipped, List.length_cons] at dropped
  exact dropped

/-- The loop ends at the end of the line: with more fuel than characters none is missing. -/
theorem parseLoop_fuel (fuel : Nat) : ∀ (buf : List Char) (state : ParseState) (token : CmdlineTokens),
    buf.length < fuel → parseLoop fuel buf state token = parseLoop (fuel + 1) buf state token := by
  induction fuel with
  | zero => intro buf state token enough; omega
  | succ fuel ih =>
      intro buf state token enough
      rw [parseLoop, parseLoop]
      cases skipped : buf.dropWhile isDelim with
      | nil => rfl
      | cons c rest =>
          have shorter := dropWhile_length skipped
          dsimp only
          rw [← ih rest .infile token (by omega), ← ih rest .outfile token (by omega)]
          cases read : nextWord c rest with
          | none => rfl
          | some pair =>
              obtain ⟨word, next⟩ := pair
              have left := nextWord_length read
              dsimp only
              rw [← ih next .normal (token.record word state) (by omega)]

/-! ## The array `argv` -/

namespace CmdlineTokens

variable {token : CmdlineTokens} {i : Nat} {arg : Option (List Char)}

@[simp] theorem store_argv : (token.store i arg).argv = token.argv := rfl

@[simp] theorem store_infile : (token.store i arg).infile = token.infile := rfl

@[simp] theorem store_outfile : (token.store i arg).outfile = token.outfile := rfl

@[simp] theorem store_builtin : (token.store i arg).builtin = token.builtin := rfl

/-- The array holds the arguments. -/
def Stored (token : CmdlineTokens) : Prop := token.cells = token.argv.map some

/-- The array holds the arguments and a `NULL` after them. -/
def Terminated (token : CmdlineTokens) : Prop := token.argv.map some ++ [none] <+: token.cells

theorem Stored.store (stored : token.Stored) (arg : Option (List Char)) :
    (token.store token.argv.length arg).cells = token.argv.map some ++ [arg] := by
  rw [CmdlineTokens.store, stored, List.take_of_length_le (by simp), List.drop_eq_nil_of_le (by simp)]

theorem Stored.record (stored : token.Stored) (word : List Char) (state : ParseState) : (token.record word state).Stored := by
  cases state with
  | normal =>
      show (token.store token.argv.length (some word)).cells = (token.argv ++ [word]).map some
      rw [stored.store, List.map_append, List.map_singleton]
  | infile => exact stored
  | outfile => exact stored

end CmdlineTokens

theorem parseLoop_stored {fuel : Nat} {buf : List Char} {state state' : ParseState} {token token' : CmdlineTokens}
    (stored : token.Stored) (parsed : parseLoop fuel buf state token = some (state', token')) : token'.Stored := by
  induction fuel generalizing buf state token with
  | zero =>
      obtain ⟨-, rfl⟩ := Prod.mk.inj (Option.some.inj parsed)
      exact stored
  | succ fuel ih =>
      rw [parseLoop] at parsed
      split at parsed
      · obtain ⟨-, rfl⟩ := Prod.mk.inj (Option.some.inj parsed)
        exact stored
      · split at parsed
        · split at parsed
          · cases parsed
          · exact ih stored parsed
        · split at parsed
          · split at parsed
            · cases parsed
            · exact ih stored parsed
          · split at parsed
            · cases parsed
            · dsimp only at parsed
              split at parsed
              · obtain ⟨-, rfl⟩ := Prod.mk.inj (Option.some.inj parsed)
                exact stored.record _ _
              · exact ih (stored.record _ _) parsed

/-! ## The result -/

def builtinOf (arg : List Char) : BuiltinState :=
  if arg = ['q', 'u', 'i', 't'] then .quit
  else if arg = ['j', 'o', 'b', 's'] then .jobs
  else if arg = ['b', 'g'] then .bg
  else if arg = ['f', 'g'] then .fg
  else .none

/-- The end of `parseline`: the `NULL` after the arguments, builtins, and the job is to run in the
background or not. -/
def classify (token : CmdlineTokens) : ParselineReturn × CmdlineTokens :=
  let ended := token.store token.argv.length none
  match token.argv with
  | [] => (.empty, ended)
  | arg :: args =>
      let token : CmdlineTokens := { ended with builtin := builtinOf arg }
      if ((arg :: args).getLastD []).head? = some '&' then
        let token : CmdlineTokens := { token.store args.length none with argv := (arg :: args).dropLast }
        if token.argv = [] then (.empty, token) else (.bg, token)
      else (.fg, token)

/-- What is parsed of a command line. -/
def buffer (cmdline : List Char) : List Char := (cmdline.takeWhile (· ≠ '\x00')).take (maxLineTsh - 1)

/-- After an error the contents of `token` are not to be used. -/
def parseline (cmdline : List Char) : ParselineReturn × CmdlineTokens :=
  let buf := buffer cmdline
  match parseLoop (buf.length + 1) buf .normal .initial with
  | none => (.error, .initial)
  | some (state, token) => if state ≠ .normal then (.error, token) else classify token

/-- The `&` leaves its place to a second `NULL`. -/
theorem CmdlineTokens.Stored.drop {token : CmdlineTokens} {front : List (List Char)} {last : List Char}
    (stored : token.Stored) (split : token.argv = front ++ [last]) :
    ((token.store token.argv.length none).store front.length none).cells = front.map some ++ [none, none] := by
  have ended := stored.store none
  unfold CmdlineTokens.store at ended ⊢
  dsimp only at ended ⊢
  have apart : (front ++ [last]).map some ++ [none] = front.map some ++ [some last, none] := by simp
  rw [ended, split, apart, List.take_left' (by simp), ← List.drop_drop, List.drop_left' (by simp)]
  rfl

theorem classify_terminated {token : CmdlineTokens} (stored : token.Stored) : (classify token).2.Terminated := by
  have ended := stored.store none
  unfold classify CmdlineTokens.Terminated
  dsimp only [CmdlineTokens.store] at ended ⊢
  split
  · next same =>
    exact ⟨[], by rw [List.append_nil, ended]⟩
  · next arg args same =>
    have front : (arg :: args).dropLast ++ [(arg :: args).getLast (by simp)] = arg :: args :=
      List.dropLast_append_getLast (by simp)
    have length : (arg :: args).dropLast.length = args.length := by simp
    have dropped := stored.drop (same.trans front.symm)
    rw [length] at dropped
    have ampersand : (arg :: args).dropLast.map some ++ [none] <+:
        ((token.store token.argv.length none).store args.length none).cells :=
      ⟨[none], by rw [dropped]; simp⟩
    split
    · split
      · exact ampersand
      · exact ampersand
    · exact ⟨[], by rw [List.append_nil, ended]⟩

/-- **The argument list ends with a `NULL` pointer**, on every line that is not rejected. -/
theorem parseline_terminated {cmdline : List Char} (accepted : (parseline cmdline).1 ≠ .error) :
    (parseline cmdline).2.Terminated := by
  unfold parseline at accepted ⊢
  dsimp only at accepted ⊢
  cases parsed : parseLoop ((buffer cmdline).length + 1) (buffer cmdline) .normal .initial with
  | none =>
      rw [parsed] at accepted
      exact absurd rfl accepted
  | some result =>
      obtain ⟨state, token⟩ := result
      rw [parsed] at accepted
      dsimp only at accepted ⊢
      split at accepted
      · exact absurd rfl accepted
      · next normal =>
        rw [if_neg normal]
        exact classify_terminated (parseLoop_stored (show CmdlineTokens.initial.Stored from rfl) parsed)

end SystemsLabs.Shell
