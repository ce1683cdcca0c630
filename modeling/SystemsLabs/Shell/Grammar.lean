/-
# SystemsLabs.Shell.Grammar -- which command lines `parseline` accepts

A command line is first cut into lexemes: words, quoted or not, and the redirection operators
at the start of a word.  The parser is then a fold over the lexemes, and what it has read
after each of them is read off the lexemes alone.
-/
import SystemsLabs.Shell.Parseline
import Mathlib.Data.List.Infix
import Mathlib.Data.List.Count

namespace SystemsLabs.Shell

set_option autoImplicit false

/-- A word, an operator at the start of a word, or a quote that is not closed. -/
inductive Lexeme where
  | input
  | output
  | word (quoted : Bool) (text : List Char)
  | unmatched
deriving DecidableEq, Repr

namespace Lexeme

def isOperator : Lexeme → Bool
  | .input => true
  | .output => true
  | _ => false

def isWord : Lexeme → Bool
  | .word _ _ => true
  | _ => false

end Lexeme

/-- Cut a line into lexemes, each of a character at least. -/
def lex : Nat → List Char → List Lexeme
  | 0, _ => []
  | fuel + 1, buf =>
      match buf.dropWhile isDelim with
      | [] => []
      | c :: rest =>
          if c = '<' then .input :: lex fuel rest
          else if c = '>' then .output :: lex fuel rest
          else
            match nextWord c rest with
            | none => [.unmatched]
            | some (word, next) => .word (isQuote c) word :: lex fuel next

def lexemes (cmdline : List Char) : List Lexeme :=
  lex ((buffer cmdline).length + 1) (buffer cmdline)

/-! ## The parser as a fold -/

/-- What the loop of `parseline` does with one lexeme. -/
def stepLexeme : ParseState × CmdlineTokens → Lexeme → Option (ParseState × CmdlineTokens)
  | (_, token), .input => if token.infile.isSome then none else some (.infile, token)
  | (_, token), .output => if token.outfile.isSome then none else some (.outfile, token)
  | (state, token), .word _ text => some (.normal, token.record text state)
  | _, .unmatched => none

def consume (l : List Lexeme) : Option (ParseState × CmdlineTokens) :=
  l.foldlM stepLexeme (.normal, .initial)

/-- The words of a line, file names included. -/
def words (l : List Lexeme) : Nat := l.countP Lexeme.isWord

theorem CmdlineTokens.record_argv_length (token : CmdlineTokens) (text : List Char) (state : ParseState) :
    (token.record text state).argv.length ≤ token.argv.length + 1 := by
  cases state <;> simp [CmdlineTokens.record]

/-- The loop folds over the lexemes, as long as `argv` is not full. -/
theorem parseLoop_eq_foldlM (fuel : Nat) : ∀ (buf : List Char) (state : ParseState) (token : CmdlineTokens),
    token.argv.length + words (lex fuel buf) < maxArgs - 1 →
      parseLoop fuel buf state token = (lex fuel buf).foldlM stepLexeme (state, token) := by
  induction fuel with
  | zero => intro buf state token few; rfl
  | succ fuel ih =>
      intro buf state token few
      rw [lex] at few ⊢
      rw [parseLoop]
      cases skipped : buf.dropWhile isDelim with
      | nil => rfl
      | cons c rest =>
          simp only [skipped] at few ⊢
          by_cases input : c = '<'
          · simp only [if_pos input, words, List.countP_cons] at few ⊢
            by_cases ambiguous : token.infile.isSome
            · simp [stepLexeme, ambiguous]
            · have tail := ih rest .infile token (by simpa [words, Lexeme.isWord] using few)
              simp [stepLexeme, ambiguous, tail]
          by_cases output : c = '>'
          · simp only [if_neg input, if_pos output, words, List.countP_cons] at few ⊢
            by_cases ambiguous : token.outfile.isSome
            · simp [stepLexeme, ambiguous]
            · have tail := ih rest .outfile token (by simpa [words, Lexeme.isWord] using few)
              simp [stepLexeme, ambiguous, tail]
          simp only [if_neg input, if_neg output] at few ⊢
          cases read : nextWord c rest with
          | none => simp [stepLexeme]
          | some pair =>
              obtain ⟨word, next⟩ := pair
              have recorded := token.record_argv_length word state
              simp only [read, words, List.countP_cons, Lexeme.isWord, if_true] at few
              have notFull : ¬ (token.record word state).argv.length ≥ maxArgs - 1 := by omega
              have tail := ih next .normal (token.record word state) (by simp only [words]; omega)
              dsimp only
              rw [if_neg notFull, tail]
              rfl

/-! ## What has been read after some lexemes -/

/-- `op` has been followed by the file name `text`. -/
def Given (op : Lexeme) (l : List Lexeme) (text : List Char) : Prop :=
  ∃ before quoted after, l = before ++ op :: .word quoted text :: after

/-- `op` occurs after it has been given a file name. -/
def Again (op : Lexeme) (l : List Lexeme) : Prop :=
  ∃ before after text, l = before ++ op :: after ∧ Given op before text

/-- The last lexeme is an operator. -/
def pending (l : List Lexeme) : Bool := l.getLast?.any Lexeme.isOperator

/-- The words that are not file names, the first of which follows an operator or not. -/
def argsAfter : Bool → List Lexeme → List (Bool × List Char)
  | _, [] => []
  | file, .word quoted text :: l =>
      if file then argsAfter false l else (quoted, text) :: argsAfter false l
  | _, .unmatched :: l => argsAfter false l
  | _, _ :: l => argsAfter true l

/-- The arguments of a line, quoted or not. -/
def args (l : List Lexeme) : List (Bool × List Char) := argsAfter false l

theorem given_concat {op : Lexeme} {l : List Lexeme} {x : Lexeme} {text : List Char} :
    Given op (l ++ [x]) text ↔ Given op l text ∨ l.getLast? = some op ∧ ∃ quoted, x = .word quoted text := by
  constructor
  · intro given
    obtain ⟨before, quoted, after, split⟩ := given
    rcases List.eq_nil_or_concat after with rfl | ⟨rest, last, rfl⟩
    · have same : l ++ [x] = (before ++ [op]) ++ [.word quoted text] := by simp [split]
      obtain ⟨rfl, ends⟩ := List.append_inj' same rfl
      exact Or.inr ⟨by simp, quoted, List.cons.inj ends |>.1⟩
    · have same : l ++ [x] = (before ++ op :: .word quoted text :: rest) ++ [last] := by simp [split]
      obtain ⟨rfl, -⟩ := List.append_inj' same rfl
      exact Or.inl ⟨before, quoted, rest, rfl⟩
  · rintro (⟨before, quoted, after, rfl⟩ | ⟨last, quoted, rfl⟩)
    · exact ⟨before, quoted, after ++ [x], by simp⟩
    · obtain ⟨before, rfl⟩ := List.getLast?_eq_some_iff.mp last
      exact ⟨before, quoted, [], by simp⟩

theorem again_concat {op : Lexeme} {l : List Lexeme} {x : Lexeme} :
    Again op (l ++ [x]) ↔ Again op l ∨ x = op ∧ ∃ text, Given op l text := by
  constructor
  · rintro ⟨before, after, text, split, given⟩
    rcases List.eq_nil_or_concat after with rfl | ⟨rest, last, rfl⟩
    · obtain ⟨rfl, ends⟩ := List.append_inj' split rfl
      exact Or.inr ⟨List.cons.inj ends |>.1, text, given⟩
    · have same : l ++ [x] = (before ++ op :: rest) ++ [last] := by simp [split]
      obtain ⟨rfl, -⟩ := List.append_inj' same rfl
      exact Or.inl ⟨before, rest, text, rfl, given⟩
  · rintro (⟨before, after, text, rfl, given⟩ | ⟨rfl, text, given⟩)
    · exact ⟨before, after ++ [x], text, by simp, given⟩
    · exact ⟨l, [], text, rfl, given⟩

@[simp] theorem pending_concat (l : List Lexeme) (x : Lexeme) : pending (l ++ [x]) = x.isOperator := by
  simp [pending]

theorem argsAfter_concat (x : Lexeme) : ∀ (l : List Lexeme) (file : Bool),
    argsAfter file (l ++ [x]) =
      argsAfter file l ++ argsAfter (l.getLast?.elim file Lexeme.isOperator) [x] := by
  intro l
  induction l with
  | nil => intro file; simp [argsAfter]
  | cons y l ih =>
      intro file
      have last : (y :: l).getLast?.elim file Lexeme.isOperator = l.getLast?.elim y.isOperator Lexeme.isOperator := by
        cases l with
        | nil => rfl
        | cons z l => rw [List.getLast?_cons_cons]; simp [List.getLast?_cons]
      rw [last]
      cases y with
      | word quoted text =>
          cases file <;> simp [argsAfter, ih, Lexeme.isOperator]
      | _ => simp [argsAfter, ih, Lexeme.isOperator]

theorem args_concat (l : List Lexeme) (x : Lexeme) : args (l ++ [x]) = args l ++ argsAfter (pending l) [x] := by
  rw [args, argsAfter_concat, args, pending]
  cases l.getLast? <;> rfl

/-- The parser stops at the lexemes `l` before their end, or would at the next. -/
def Rejected (l : List Lexeme) : Prop := .unmatched ∈ l ∨ Again .input l ∨ Again .output l

/-- What the parser has recorded after the lexemes `l`. -/
structure Parsed (l : List Lexeme) (state : ParseState) (token : CmdlineTokens) : Prop where
  infile : ∀ text, token.infile = some text ↔ Given .input l text
  outfile : ∀ text, token.outfile = some text ↔ Given .output l text
  argv : token.argv = (args l).map Prod.snd
  expectsInput : state = .infile ↔ l.getLast? = some .input
  expectsOutput : state = .outfile ↔ l.getLast? = some .output

theorem Parsed.pending_iff {l : List Lexeme} {state : ParseState} {token : CmdlineTokens}
    (parsed : Parsed l state token) : pending l = true ↔ state ≠ .normal := by
  have input := parsed.expectsInput
  have output := parsed.expectsOutput
  unfold pending
  cases last : l.getLast? with
  | none => cases state <;> simp_all
  | some x => cases x <;> cases state <;> simp_all [Lexeme.isOperator]

/-- An operator that has been given its file is not read again. -/
theorem again_of_last {op : Lexeme} {l : List Lexeme} {text : List Char} (operator : op.isOperator = true)
    (given : Given op l text) (last : l.getLast? = some op) : Again op l := by
  obtain ⟨before, rfl⟩ := List.getLast?_eq_some_iff.mp last
  obtain earlier | ⟨_, quoted, rfl⟩ := given_concat.mp given
  · exact ⟨before, [], text, rfl, earlier⟩
  · cases operator

/-- A word goes where the operator before it says. -/
theorem Parsed.word {l : List Lexeme} {state : ParseState} {token : CmdlineTokens}
    (parsed : Parsed l state token) (accepted : ¬ Rejected l) (quoted : Bool) (text : List Char) :
    Parsed (l ++ [.word quoted text]) .normal (token.record text state) := by
  have waits := parsed.pending_iff
  have input := parsed.expectsInput
  have output := parsed.expectsOutput
  constructor
  · intro other
    rw [given_concat, ← parsed.infile, ← input]
    cases state with
    | infile =>
        have none : token.infile = none := by
          rw [Option.eq_none_iff_forall_ne_some]
          intro given set
          exact accepted (Or.inr (Or.inl (again_of_last rfl ((parsed.infile given).mp set) (input.mp rfl))))
        simp [CmdlineTokens.record, none]
    | _ => simp [CmdlineTokens.record]
  · intro other
    rw [given_concat, ← parsed.outfile, ← output]
    cases state with
    | outfile =>
        have none : token.outfile = none := by
          rw [Option.eq_none_iff_forall_ne_some]
          intro given set
          exact accepted (Or.inr (Or.inr (again_of_last rfl ((parsed.outfile given).mp set) (output.mp rfl))))
        simp [CmdlineTokens.record, none]
    | _ => simp [CmdlineTokens.record]
  · rw [args_concat]
    cases state <;> simp_all [CmdlineTokens.record, argsAfter, parsed.argv]
  · simp
  · simp

theorem consume_concat (l : List Lexeme) (x : Lexeme) :
    consume (l ++ [x]) = (consume l).bind (stepLexeme · x) := by
  unfold consume
  rw [List.foldlM_append]
  cases List.foldlM stepLexeme (ParseState.normal, CmdlineTokens.initial) l with
  | none => rfl
  | some pair => simp

theorem rejected_concat {l : List Lexeme} {x : Lexeme} :
    Rejected (l ++ [x]) ↔ Rejected l ∨ x = .unmatched ∨ (x = .input ∧ ∃ text, Given .input l text) ∨
      (x = .output ∧ ∃ text, Given .output l text) := by
  unfold Rejected
  rw [again_concat, again_concat, List.mem_append, List.mem_singleton, eq_comm (b := x)]
  tauto

theorem rejected_operator {l : List Lexeme} {op : Lexeme} (operator : op.isOperator = true) :
    Rejected (l ++ [op]) ↔ Rejected l ∨ ∃ text, Given op l text := by
  rw [rejected_concat]
  cases op with
  | input => simp
  | output => simp
  | word quoted text => cases operator
  | unmatched => cases operator

theorem rejected_word {l : List Lexeme} {quoted : Bool} {text : List Char} :
    Rejected (l ++ [.word quoted text]) ↔ Rejected l := by
  rw [rejected_concat]
  simp

/-- After an operator its file name is expected. -/
theorem Parsed.operator {l : List Lexeme} {op : Lexeme} {state next : ParseState} {token : CmdlineTokens}
    (parsed : Parsed l state token) (expects : op = .input ∧ next = .infile ∨ op = .output ∧ next = .outfile) :
    Parsed (l ++ [op]) next token := by
  constructor
  · intro text
    rw [given_concat, parsed.infile]
    obtain ⟨rfl, _⟩ | ⟨rfl, _⟩ := expects <;> simp
  · intro text
    rw [given_concat, parsed.outfile]
    obtain ⟨rfl, _⟩ | ⟨rfl, _⟩ := expects <;> simp
  · rw [args_concat, parsed.argv]
    obtain ⟨rfl, _⟩ | ⟨rfl, _⟩ := expects <;> simp [argsAfter]
  · obtain ⟨rfl, rfl⟩ | ⟨rfl, rfl⟩ := expects <;> simp
  · obtain ⟨rfl, rfl⟩ | ⟨rfl, rfl⟩ := expects <;> simp

theorem isSome_iff_of {α : Type} {o : Option α} {p : α → Prop} (known : ∀ a, o = some a ↔ p a) :
    o.isSome = true ↔ ∃ a, p a := by
  rw [Option.isSome_iff_exists]
  exact exists_congr known

/-- The parser rejects exactly the rejected lexemes, and has recorded what was given of the others. -/
theorem consume_spec (l : List Lexeme) :
    (consume l = none ∧ Rejected l) ∨
      ∃ state token, consume l = some (state, token) ∧ ¬ Rejected l ∧ Parsed l state token := by
  induction l using List.reverseRecOn with
  | nil =>
      refine Or.inr ⟨.normal, .initial, rfl, ?_, ?_⟩
      · rintro (impossible | ⟨before, after, text, split, _⟩ | ⟨before, after, text, split, _⟩)
        · cases impossible
        · simp at split
        · simp at split
      · constructor <;> simp [Given, CmdlineTokens.initial, args, argsAfter]
  | append_singleton l x ih =>
      rw [consume_concat]
      obtain ⟨failed, rejected⟩ | ⟨state, token, read, accepted, parsed⟩ := ih
      · rw [failed]
        exact Or.inl ⟨rfl, rejected_concat.mpr (Or.inl rejected)⟩
      rw [read, Option.bind_some]
      have infile := isSome_iff_of parsed.infile
      have outfile := isSome_iff_of parsed.outfile
      cases x with
      | unmatched => exact Or.inl ⟨rfl, rejected_concat.mpr (Or.inr (Or.inl rfl))⟩
      | input =>
          by_cases again : token.infile.isSome
          · exact Or.inl ⟨by simp [stepLexeme, again], (rejected_operator rfl).mpr (Or.inr (infile.mp again))⟩
          · have kept : ¬ Rejected (l ++ [Lexeme.input]) := by
              rw [rejected_operator rfl, ← infile]
              exact not_or.mpr ⟨accepted, again⟩
            exact Or.inr ⟨.infile, token, by simp [stepLexeme, again], kept, parsed.operator (Or.inl ⟨rfl, rfl⟩)⟩
      | output =>
          by_cases again : token.outfile.isSome
          · exact Or.inl ⟨by simp [stepLexeme, again], (rejected_operator rfl).mpr (Or.inr (outfile.mp again))⟩
          · have kept : ¬ Rejected (l ++ [Lexeme.output]) := by
              rw [rejected_operator rfl, ← outfile]
              exact not_or.mpr ⟨accepted, again⟩
            exact Or.inr ⟨.outfile, token, by simp [stepLexeme, again], kept, parsed.operator (Or.inr ⟨rfl, rfl⟩)⟩
      | word quoted text =>
          have kept : ¬ Rejected (l ++ [.word quoted text]) := by rwa [rejected_word]
          exact Or.inr ⟨.normal, token.record text state, rfl, kept, parsed.word accepted quoted text⟩

/-! ## The result of `parseline` -/

theorem parseline_eq_consume {cmdline : List Char} (few : words (lexemes cmdline) < maxArgs - 1) :
    parseline cmdline = match consume (lexemes cmdline) with
      | none => (.error, .initial)
      | some (state, token) => if state ≠ .normal then (.error, token) else classify token := by
  have folded := parseLoop_eq_foldlM ((buffer cmdline).length + 1) (buffer cmdline) .normal .initial
    (by simpa [CmdlineTokens.initial, lexemes] using few)
  dsimp only [parseline]
  rw [folded]
  rfl

/-- A line is an error where it is rejected or ends in an operator. -/
theorem parseline_spec {cmdline : List Char} (few : words (lexemes cmdline) < maxArgs - 1) :
    ((parseline cmdline).1 = .error ∧ (Rejected (lexemes cmdline) ∨ pending (lexemes cmdline) = true)) ∨
      ¬ Rejected (lexemes cmdline) ∧ pending (lexemes cmdline) = false ∧
        ∃ token, Parsed (lexemes cmdline) .normal token ∧ parseline cmdline = classify token := by
  rw [parseline_eq_consume few]
  obtain ⟨failed, rejected⟩ | ⟨state, token, read, accepted, parsed⟩ := consume_spec (lexemes cmdline)
  · rw [failed]
    exact Or.inl ⟨rfl, Or.inl rejected⟩
  rw [read]
  by_cases normal : state = .normal
  · subst normal
    have done : pending (lexemes cmdline) = false := by
      rw [Bool.eq_false_iff]
      intro waits
      exact parsed.pending_iff.mp waits rfl
    exact Or.inr ⟨accepted, done, token, parsed, by simp⟩
  · exact Or.inl ⟨by simp [normal], Or.inr (parsed.pending_iff.mpr normal)⟩

theorem classify_files (token : CmdlineTokens) :
    (classify token).2.infile = token.infile ∧ (classify token).2.outfile = token.outfile := by
  unfold classify
  cases token.argv with
  | nil => simp
  | cons arg args =>
      dsimp only
      split <;> [split; skip] <;> simp

theorem classify_ne_error (token : CmdlineTokens) : (classify token).1 ≠ .error := by
  unfold classify
  cases token.argv with
  | nil => simp
  | cons arg args =>
      dsimp only
      split <;> [split; skip] <;> simp

/-- A last argument that starts with `&` is dropped. -/
theorem classify_of_ampersand {token : CmdlineTokens} {text : List Char}
    (last : token.argv.getLast? = some ('&' :: text)) :
    (classify token).2.argv = token.argv.dropLast ∧ ((classify token).1 = .bg ↔ 2 ≤ token.argv.length) := by
  unfold classify
  cases same : token.argv with
  | nil => simp [same] at last
  | cons arg args =>
      rw [same] at last
      have starts : ((arg :: args).getLastD []).head? = some '&' := by
        rw [List.getLastD_eq_getLast?, last]; rfl
      dsimp only
      rw [if_pos starts]
      cases args with
      | nil => simp
      | cons next args => simp

theorem classify_otherwise {token : CmdlineTokens} (other : ∀ text, token.argv.getLast? ≠ some ('&' :: text)) :
    (classify token).2.argv = token.argv ∧ (classify token).1 ≠ .bg := by
  unfold classify
  cases same : token.argv with
  | nil => simp [same]
  | cons arg args =>
      rw [same] at other
      have starts : ((arg :: args).getLastD []).head? ≠ some '&' := by
        rw [List.getLastD_eq_getLast?]
        cases last : (arg :: args).getLast? with
        | none => simp
        | some word =>
            cases word with
            | nil => simp
            | cons c text =>
                intro ampersand
                have c_eq : c = '&' := by simpa using ampersand
                exact other text (by rw [last, c_eq])
      dsimp only
      rw [if_neg starts]
      exact ⟨same, by simp⟩

/-! ## The documented form -/

/-- An operator that no file name follows. -/
def Dangling (l : List Lexeme) : Prop :=
  ∃ before op after, l = before ++ op :: after ∧ op.isOperator = true ∧
    ∀ quoted text rest, after ≠ .word quoted text :: rest

/-- Two operators in a row. -/
def Adjacent (l : List Lexeme) : Prop :=
  ∃ before op next after, l = before ++ op :: next :: after ∧ op.isOperator = true ∧ next.isOperator = true

/-- The lines that are to be errors. -/
def Malformed (l : List Lexeme) : Prop :=
  .unmatched ∈ l ∨ Dangling l ∨ 2 ≤ l.count .input ∨ 2 ≤ l.count .output

theorem Adjacent.malformed {l : List Lexeme} (adjacent : Adjacent l) : Malformed l := by
  obtain ⟨before, op, next, after, split, operator, again⟩ := adjacent
  refine Or.inr (Or.inl ⟨before, op, next :: after, split, operator, ?_⟩)
  intro quoted text rest same
  obtain ⟨rfl, -⟩ := List.cons.inj same
  cases again

theorem Again.two_le_count {op : Lexeme} {l : List Lexeme} (again : Again op l) : 2 ≤ l.count op := by
  obtain ⟨before, after, text, rfl, start, quoted, rest, rfl⟩ := again
  simp only [List.count_append, List.count_cons_self, List.count_cons]
  omega

theorem Rejected.malformed {l : List Lexeme} (rejected : Rejected l) : Malformed l := by
  obtain unmatched | again | again := rejected
  · exact Or.inl unmatched
  · exact Or.inr (Or.inr (Or.inl again.two_le_count))
  · exact Or.inr (Or.inr (Or.inr again.two_le_count))

theorem malformed_of_pending {l : List Lexeme} (waits : pending l = true) : Malformed l := by
  obtain rfl | ⟨before, op, rfl⟩ := List.eq_nil_or_concat l
  · cases waits
  · refine Or.inr (Or.inl ⟨before, op, [], by simp, ?_, by simp⟩)
    simpa [pending] using waits

theorem exists_split_of_two_le_count {op : Lexeme} {l : List Lexeme} (twice : 2 ≤ l.count op) :
    ∃ before between after, l = before ++ op :: (between ++ op :: after) := by
  have occurs : op ∈ l := List.count_pos_iff.mp (by omega)
  obtain ⟨front, back, rfl⟩ := List.append_of_mem occurs
  rw [List.count_append, List.count_cons_self] at twice
  by_cases later : op ∈ back
  · obtain ⟨between, after, rfl⟩ := List.append_of_mem later
    exact ⟨front, between, after, rfl⟩
  · have earlier : op ∈ front := List.count_pos_iff.mp (by have none := List.count_eq_zero.mpr later; omega)
    obtain ⟨before, between, rfl⟩ := List.append_of_mem earlier
    exact ⟨before, between, back, by simp⟩

/-- What comes after an operator decides what is wrong with the line. -/
theorem adjacent_or_rejected_of_next {op x : Lexeme} (before after : List Lexeme)
    (operator : op.isOperator = true) (notWord : ∀ quoted text, x ≠ .word quoted text) :
    Adjacent (before ++ op :: x :: after) ∨ Rejected (before ++ op :: x :: after) := by
  cases x with
  | input => exact Or.inl ⟨before, op, .input, after, rfl, operator, rfl⟩
  | output => exact Or.inl ⟨before, op, .output, after, rfl, operator, rfl⟩
  | unmatched => exact Or.inr (Or.inl (by simp))
  | word quoted text => exact absurd rfl (notWord quoted text)

theorem adjacent_or_rejected_of_count {op : Lexeme} {l : List Lexeme} (operator : op.isOperator = true)
    (rejects : Again op l → Rejected l) (twice : 2 ≤ l.count op) : Adjacent l ∨ Rejected l := by
  obtain ⟨before, between, after, rfl⟩ := exists_split_of_two_le_count twice
  cases between with
  | nil => exact Or.inl ⟨before, op, op, after, rfl, operator, operator⟩
  | cons x between =>
      by_cases word : ∃ quoted text, x = .word quoted text
      · obtain ⟨quoted, text, rfl⟩ := word
        apply Or.inr
        apply rejects
        refine ⟨before ++ op :: .word quoted text :: between, after, text, by simp, ?_⟩
        exact ⟨before, quoted, between, rfl⟩
      · apply adjacent_or_rejected_of_next before (between ++ op :: after) operator
        intro quoted text same
        exact word ⟨quoted, text, same⟩

/-- The parser misses a malformed line only where two operators are next to each other. -/
theorem Malformed.adjacent_or {l : List Lexeme} (malformed : Malformed l) :
    Adjacent l ∨ Rejected l ∨ pending l = true := by
  obtain unmatched | ⟨before, op, after, rfl, operator, follows⟩ | twice | twice := malformed
  · exact Or.inr (Or.inl (Or.inl unmatched))
  · cases after with
    | nil => exact Or.inr (Or.inr (by simp [operator]))
    | cons x after =>
        rw [← or_assoc]
        apply Or.inl
        apply adjacent_or_rejected_of_next before after operator
        intro quoted text same
        exact follows quoted text after (by rw [same])
  · rw [← or_assoc]
    exact Or.inl (adjacent_or_rejected_of_count rfl (fun again => Or.inr (Or.inl again)) twice)
  · rw [← or_assoc]
    exact Or.inl (adjacent_or_rejected_of_count rfl (fun again => Or.inr (Or.inr again)) twice)

/-- The documented command form: `command [arguments...] [< infile] [> outfile] [&]`, where
only an unquoted `&` at the end of the line is not an argument. -/
structure Documented (l : List Lexeme) (result : ParselineReturn × CmdlineTokens) : Prop where
  error : result.1 = .error ↔ Malformed l
  background : result.1 = .bg → l.getLast? = some (.word false ['&'])
  ordinary : result.1 ≠ .error → ∃ kept dropped, args l = kept ++ dropped ∧
    result.2.argv = kept.map Prod.snd ∧ ∀ arg ∈ dropped, arg.1 = false
  infile : result.1 ≠ .error → ∀ text, result.2.infile = some text ↔ Given .input l text
  outfile : result.1 ≠ .error → ∀ text, result.2.outfile = some text ↔ Given .output l text

/-- Operators are next to each other only on a line that is rejected anyway, and a last
argument that starts with `&` is the unquoted `&` at the end of the line. -/
structure WellSpaced (l : List Lexeme) : Prop where
  apart : Adjacent l → Rejected l ∨ pending l = true
  ampersand : ¬ Rejected l → pending l = false → ∀ quoted text, (args l).getLast? = some (quoted, '&' :: text) →
    quoted = false ∧ (2 ≤ (args l).length → l.getLast? = some (.word false ['&']))

theorem error_iff_malformed {l : List Lexeme} {result : ParselineReturn × CmdlineTokens}
    (spec : result.1 = .error ↔ Rejected l ∨ pending l = true) :
    (result.1 = .error ↔ Malformed l) ↔ (Adjacent l → Rejected l ∨ pending l = true) := by
  rw [spec]
  constructor
  · intro same adjacent
    exact same.mpr adjacent.malformed
  · intro apart
    constructor
    · rintro (rejected | waits)
      · exact rejected.malformed
      · exact malformed_of_pending waits
    · intro malformed
      obtain adjacent | stops := malformed.adjacent_or
      · exact apart adjacent
      · exact stops

/-- Of an accepted line, the arguments and the last word decide. -/
theorem classify_documented_iff {l : List Lexeme} {token : CmdlineTokens} (parsed : Parsed l .normal token)
    (accepted : ¬ Rejected l) (done : pending l = false) :
    Documented l (classify token) ↔ WellSpaced l := by
  have noError := classify_ne_error token
  have argv := parsed.argv
  have spec : (classify token).1 = .error ↔ Rejected l ∨ pending l = true := by simp [noError, accepted, done]
  constructor
  · intro documented
    refine ⟨(error_iff_malformed spec).mp documented.error, ?_⟩
    intro _ _ quoted text last
    have ends : token.argv.getLast? = some ('&' :: text) := by simp [argv, last]
    obtain ⟨dropLast, background⟩ := classify_of_ampersand ends
    constructor
    · obtain ⟨kept, dropped, split, recorded, unquoted⟩ := documented.ordinary noError
      have length := congrArg List.length (recorded.symm.trans dropLast)
      have total := congrArg List.length split
      have nonempty := List.length_pos_of_mem (List.mem_of_getLast? last)
      simp only [argv, List.length_map, List.length_dropLast, List.length_append] at length total
      have some : dropped ≠ [] := List.ne_nil_of_length_pos (by omega)
      rw [split, List.getLast?_append_of_ne_nil _ some] at last
      exact unquoted _ (List.mem_of_getLast? last)
    · intro two
      exact documented.background (background.mpr (by simpa [argv] using two))
  · intro spaced
    obtain ⟨infile, outfile⟩ := classify_files token
    have error := (error_iff_malformed spec).mpr spaced.apart
    by_cases ends : ∃ quoted text, (args l).getLast? = some (quoted, '&' :: text)
    · obtain ⟨quoted, text, last⟩ := ends
      obtain ⟨rfl, two⟩ := spaced.ampersand accepted done quoted text last
      have recorded : token.argv.getLast? = some ('&' :: text) := by simp [argv, last]
      obtain ⟨dropLast, background⟩ := classify_of_ampersand recorded
      have split : args l = (args l).dropLast ++ [(false, '&' :: text)] :=
        (List.dropLast_append_getLast? _ last).symm
      refine ⟨error, ?_, ?_, ?_, ?_⟩
      · intro bg
        exact two (by simpa [argv] using background.mp bg)
      · intro _
        exact ⟨_, _, split, by rw [dropLast, argv, List.map_dropLast], by simp⟩
      · intro _ text; rw [infile]; exact parsed.infile text
      · intro _ text; rw [outfile]; exact parsed.outfile text
    · have other : ∀ text, token.argv.getLast? ≠ some ('&' :: text) := by
        intro text last
        rw [argv, List.getLast?_map] at last
        obtain ⟨⟨quoted, word⟩, found, rfl⟩ := Option.map_eq_some_iff.mp last
        exact ends ⟨quoted, text, found⟩
      obtain ⟨kept, foreground⟩ := classify_otherwise other
      refine ⟨error, ?_, ?_, ?_, ?_⟩
      · intro bg; exact absurd bg foreground
      · intro _
        exact ⟨args l, [], by simp, by rw [kept, argv], by simp⟩
      · intro _ text; rw [infile]; exact parsed.infile text
      · intro _ text; rw [outfile]; exact parsed.outfile text

/-- `parseline` accepts exactly the documented form, and reads of it what is documented, where
the line is well spaced. -/
theorem parseline_documented (cmdline : List Char) (few : words (lexemes cmdline) < maxArgs - 1) :
    Documented (lexemes cmdline) (parseline cmdline) ↔ WellSpaced (lexemes cmdline) := by
  obtain ⟨error, stops⟩ | ⟨accepted, done, token, parsed, result⟩ := parseline_spec few
  · have spec : (parseline cmdline).1 = .error ↔ Rejected (lexemes cmdline) ∨ pending (lexemes cmdline) = true := by
      simp [error, stops]
    constructor
    · intro documented
      refine ⟨fun _ => stops, ?_⟩
      intro accepted done
      simp [accepted, done] at stops
    · intro spaced
      refine ⟨(error_iff_malformed spec).mpr spaced.apart, ?_, ?_, ?_, ?_⟩ <;> simp [error]
  · rw [result]
    exact classify_documented_iff parsed accepted done

/-- `wc < in > out &` -/
theorem parseline_documented_redirected :
    Documented (lexemes "wc < in > out &".toList) (parseline "wc < in > out &".toList) ↔
      WellSpaced (lexemes "wc < in > out &".toList) :=
  parseline_documented _ (by decide)

/-- `cat < > out` is accepted, and runs in the foreground without an input file. -/
theorem parseline_documented_counterexample :
    words (lexemes "cat < > out".toList) < maxArgs - 1 ∧ Malformed (lexemes "cat < > out".toList) ∧
      (parseline "cat < > out".toList).1 = .fg ∧
        ¬ Documented (lexemes "cat < > out".toList) (parseline "cat < > out".toList) := by
  have cut : lexemes "cat < > out".toList =
      [.word false ['c', 'a', 't'], .input, .output, .word false ['o', 'u', 't']] := by decide
  have accepted : (parseline "cat < > out".toList).1 = .fg := by decide
  have malformed : Malformed (lexemes "cat < > out".toList) := by
    rw [cut]
    exact Adjacent.malformed ⟨[.word false ['c', 'a', 't']], .input, .output, _, rfl, rfl, rfl⟩
  refine ⟨by decide, malformed, accepted, ?_⟩
  intro documented
  have error := documented.error.mpr malformed
  rw [accepted] at error
  cases error

/-- A quoted `&` is dropped like the operator. -/
example : parseline "echo \"&\"".toList =
    (.bg, ⟨["echo".toList], [some "echo".toList, none, none], none, none, .none⟩) := by decide

end SystemsLabs.Shell
