/-
# SystemsLabs.Shell.Render -- commands that are written out and parsed again

A command is rendered with each word in double quotes, blanks and tabs between the words, the
redirections anywhere among them, and a bare `&` at the end of a background job.  `parseline`
reads every rendering of a command back, whatever the words contain (`parseline_render`).
-/
import SystemsLabs.Shell.Parseline
import Mathlib.Data.List.TakeWhile

namespace SystemsLabs.Shell

set_option autoImplicit false

/-! ## Commands and their renderings -/

/-- What may stand between double quotes. -/
structure Word where
  text : List Char
  unquoted : '"' ∉ text
  chars : '\x00' ∉ text

/-- What separates the words. -/
structure Gap where
  text : List Char
  blank : ∀ c ∈ text, c = ' ' ∨ c = '\t'

/-- Words as `parseline` can return them: a foreground job does not look like a background job. -/
structure Command where
  argv : List Word
  infile : Option Word
  outfile : Option Word
  background : Bool
  nonempty : argv ≠ []
  few : argv.length ≤ maxArgs - 2
  foreground : background = false → ∀ last ∈ argv.getLast?, last.text.head? ≠ some '&'

/-- An argument, or a redirection with its file. -/
inductive Item where
  | arg (word : Word)
  | input (gap : Gap) (name : Word)
  | output (gap : Gap) (name : Word)

def Word.quoted (word : Word) : List Char := '"' :: word.text ++ ['"']

namespace Item

def text : Item → List Char
  | .arg word => word.quoted
  | .input gap name => '<' :: gap.text ++ name.quoted
  | .output gap name => '>' :: gap.text ++ name.quoted

def arg? : Item → Option Word
  | .arg word => some word
  | _ => none

def input? : Item → Option Word
  | .input _ name => some name
  | _ => none

def output? : Item → Option Word
  | .output _ name => some name
  | _ => none

end Item

/-- Each item with what stands before it. -/
def render (items : List (Gap × Item)) : List Char := items.flatMap fun (gap, item) => gap.text ++ item.text

namespace Command

/-- The items are the arguments in their order and the redirections, in any place. -/
structure Renders (cmd : Command) (items : List (Gap × Item)) : Prop where
  argv : items.filterMap (fun (_, item) => item.arg?) = cmd.argv
  infile : items.filterMap (fun (_, item) => item.input?) = cmd.infile.toList
  outfile : items.filterMap (fun (_, item) => item.output?) = cmd.outfile.toList

def line (cmd : Command) (items : List (Gap × Item)) (last : Gap) : List Char :=
  render items ++ if cmd.background then last.text ++ ['&'] else []

/-- What `parseline` is to return: `NULL` follows the arguments, and stands where the `&` was. -/
def tokens (cmd : Command) : CmdlineTokens where
  argv := cmd.argv.map Word.text
  cells := (cmd.argv.map Word.text).map some ++ if cmd.background then [none, none] else [none]
  infile := cmd.infile.map Word.text
  outfile := cmd.outfile.map Word.text
  builtin := builtinOf ((cmd.argv.map Word.text).headD [])

/-- What the loop has recorded before a `&`. -/
def recorded (cmd : Command) : CmdlineTokens where
  argv := cmd.argv.map Word.text
  cells := (cmd.argv.map Word.text).map some
  infile := cmd.infile.map Word.text
  outfile := cmd.outfile.map Word.text
  builtin := .none

end Command

/-! ## The loop on what is left of the line -/

/-- The loop of `parseline` on the rest `buf` of the line. -/
def parseFrom (buf : List Char) (state : ParseState) (token : CmdlineTokens) : Option (ParseState × CmdlineTokens) :=
  parseLoop (buf.length + 1) buf state token

variable {buf rest : List Char} {state : ParseState} {token : CmdlineTokens} {fuel : Nat} {c : Char}

theorem parseLoop_eq_parseFrom (enough : buf.length < fuel) :
    parseLoop fuel buf state token = parseFrom buf state token := by
  obtain ⟨more, rfl⟩ := Nat.exists_eq_add_of_lt enough
  induction more with
  | zero => rfl
  | succ more ih =>
      rw [← ih (by omega), ← Nat.add_assoc, Nat.add_right_comm _ 1 1]
      exact (parseLoop_fuel _ buf state token (by omega)).symm

theorem Gap.delims (gap : Gap) : ∀ c ∈ gap.text, isDelim c = true := by
  intro c member
  obtain rfl | rfl := gap.blank c member <;> rfl

theorem parseFrom_gap (gap : Gap) : parseFrom gap.text state token = some (state, token) := by
  rw [parseFrom, parseLoop, List.dropWhile_eq_nil_iff.mpr gap.delims]

/-- A pass of the loop, from the character behind the blanks. -/
theorem parseFrom_cons (gap : Gap) (visible : isDelim c = false) :
    parseFrom (gap.text ++ c :: rest) state token =
      if c = '<' then if token.infile.isSome then none else parseFrom rest .infile token
      else if c = '>' then if token.outfile.isSome then none else parseFrom rest .outfile token
      else
        match nextWord c rest with
        | none => none
        | some (word, next) =>
            if (token.record word state).argv.length ≥ maxArgs - 1 then some (.normal, token.record word state)
            else parseFrom next .normal (token.record word state) := by
  have skipped : (gap.text ++ c :: rest).dropWhile isDelim = c :: rest := by
    rw [List.dropWhile_append_of_pos gap.delims, List.dropWhile_cons_of_neg (by simp [visible])]
  have shorter := dropWhile_length skipped
  rw [parseFrom, parseLoop, skipped]
  dsimp only
  rw [parseLoop_eq_parseFrom shorter, parseLoop_eq_parseFrom shorter]
  cases read : nextWord c rest with
  | none => rfl
  | some pair =>
      obtain ⟨word, next⟩ := pair
      have left := nextWord_length read
      dsimp only
      rw [parseLoop_eq_parseFrom (show next.length < _ by omega)]

theorem nextWord_quoted (word : Word) (rest : List Char) :
    nextWord '"' (word.text ++ '"' :: rest) = some (word.text, rest) := by
  have inside : ∀ c ∈ word.text, decide (c ≠ '"') = true := fun c member =>
    decide_eq_true fun quote => word.unquoted (quote ▸ member)
  rw [nextWord, if_pos (by decide), if_pos (by simp), List.takeWhile_append_of_pos inside,
    List.dropWhile_append_of_pos inside]
  simp

/-- A quoted word is recorded whole. -/
theorem parseFrom_quoted (gap : Gap) (word : Word) (rest : List Char)
    (room : (token.record word.text state).argv.length < maxArgs - 1) :
    parseFrom (gap.text ++ (word.quoted ++ rest)) state token =
      parseFrom rest .normal (token.record word.text state) := by
  have shape : word.quoted ++ rest = '"' :: (word.text ++ '"' :: rest) := by simp [Word.quoted]
  rw [shape, parseFrom_cons gap rfl, if_neg (by decide), if_neg (by decide), nextWord_quoted]
  exact if_neg (Nat.not_le_of_gt room)

/-- An input file is recorded if there was none. -/
theorem parseFrom_input (gap between : Gap) (name : Word) (rest : List Char) (first : token.infile = none)
    (room : token.argv.length < maxArgs - 1) :
    parseFrom (gap.text ++ ((Item.input between name).text ++ rest)) state token =
      parseFrom rest .normal { token with infile := some name.text } := by
  rw [Item.text, List.append_assoc, List.cons_append, parseFrom_cons gap rfl, if_pos rfl, first]
  exact parseFrom_quoted between name rest room

theorem parseFrom_output (gap between : Gap) (name : Word) (rest : List Char) (first : token.outfile = none)
    (room : token.argv.length < maxArgs - 1) :
    parseFrom (gap.text ++ ((Item.output between name).text ++ rest)) state token =
      parseFrom rest .normal { token with outfile := some name.text } := by
  rw [Item.text, List.append_assoc, List.cons_append, parseFrom_cons gap rfl, if_neg (by decide), if_pos rfl,
    first]
  exact parseFrom_quoted between name rest room

/-! ## The items -/

theorem eq_of_toList_eq {α : Type} {o o' : Option α} (same : o.toList = o'.toList) : o = o' := by
  cases o <;> cases o' <;> simp_all

theorem toList_append_cons {α : Type} {o o' : Option α} {a : α} {l : List α}
    (given : o.toList ++ a :: l = o'.toList) : o = none ∧ o' = some a ∧ l = [] := by
  cases o <;> cases o' <;> simp_all

/-- **The items are read in order**: each argument is recorded, and each file where it belongs. -/
theorem parseFrom_render {argv : List (List Char)} {infile outfile : Option (List Char)}
    (items : List (Gap × Item)) (stored : token.Stored)
    (args : token.argv ++ (items.filterMap fun (_, item) => item.arg?).map Word.text = argv)
    (inputs : token.infile.toList ++ (items.filterMap fun (_, item) => item.input?).map Word.text = infile.toList)
    (outputs : token.outfile.toList ++ (items.filterMap fun (_, item) => item.output?).map Word.text =
      outfile.toList)
    (few : argv.length < maxArgs - 1) :
    parseFrom (render items ++ rest) .normal token =
      parseFrom rest .normal ⟨argv, argv.map some, infile, outfile, token.builtin⟩ := by
  induction items generalizing token with
  | nil =>
      have cells : token.cells = token.argv.map some := stored
      simp only [List.filterMap_nil, List.map_nil, List.append_nil] at args inputs outputs
      rw [← args, ← eq_of_toList_eq inputs, ← eq_of_toList_eq outputs, ← cells]
      rfl
  | cons first items ih =>
      obtain ⟨gap, item⟩ := first
      have shape : render ((gap, item) :: items) ++ rest = gap.text ++ (item.text ++ (render items ++ rest)) := by
        simp [render]
      have room : token.argv.length < maxArgs - 1 := by
        rw [← args, List.length_append] at few
        omega
      rw [shape]
      cases item with
      | arg word =>
          have next : (token.record word.text .normal).argv.length < maxArgs - 1 := by
            simp only [← args, List.filterMap_cons, Item.arg?, List.map_cons, List.length_append,
              List.length_cons] at few
            simp only [CmdlineTokens.record, List.length_append, List.length_cons, List.length_nil]
            omega
          rw [Item.text, parseFrom_quoted gap word _ next]
          exact ih (stored.record _ _) (by simpa [CmdlineTokens.record, Item.arg?] using args) inputs outputs
      | input between name =>
          obtain ⟨first, given, done⟩ := toList_append_cons inputs
          rw [parseFrom_input gap between name _ first room]
          refine ih (stored.record name.text .infile) args ?_ outputs
          rw [done, given]
          rfl
      | output between name =>
          obtain ⟨first, given, done⟩ := toList_append_cons outputs
          rw [parseFrom_output gap between name _ first room]
          refine ih (stored.record name.text .outfile) args inputs ?_
          rw [done, given]
          rfl

/-! ## The result -/

/-- The bare `&` is an argument, the last one. -/
theorem parseFrom_ampersand (gap : Gap) :
    parseFrom (gap.text ++ ['&']) .normal token = some (.normal, token.record ['&'] .normal) := by
  have read : nextWord '&' [] = some (['&'], []) := rfl
  rw [parseFrom_cons gap rfl, if_neg (by decide), if_neg (by decide), read]
  dsimp only
  split
  · rfl
  · rfl

theorem classify_background {front : List (List Char)} (nonempty : front ≠ []) (stored : token.Stored)
    (split : token.argv = front ++ [['&']]) :
    classify token = (.bg,
      ⟨front, front.map some ++ [none, none], token.infile, token.outfile, builtinOf (front.headD [])⟩) := by
  cases front with
  | nil => exact absurd rfl nonempty
  | cons arg args =>
      have last : ((arg :: (args ++ [['&']])).getLastD []).head? = some '&' := by
        rw [← List.cons_append, List.getLastD_concat]
        rfl
      have dropped : (arg :: (args ++ [['&']])).dropLast = arg :: args := by
        rw [← List.cons_append, List.dropLast_concat]
      have cells := stored.drop split
      have length : (args ++ [['&']]).length = (arg :: args).length := by simp
      unfold classify
      rw [split, List.cons_append]
      dsimp only
      rw [if_pos last, dropped, length, if_neg (List.cons_ne_nil arg args)]
      rw [split] at cells
      rw [← cells]
      rfl

theorem classify_foreground {arg : List Char} {args : List (List Char)} (stored : token.Stored)
    (split : token.argv = arg :: args) (last : ((arg :: args).getLastD []).head? ≠ some '&') :
    classify token =
      (.fg, ⟨arg :: args, (arg :: args).map some ++ [none], token.infile, token.outfile, builtinOf arg⟩) := by
  have ended := stored.store none
  unfold classify
  rw [split] at ended ⊢
  dsimp only
  rw [if_neg last, ← ended, ← split]
  rfl

namespace Command

variable {cmd : Command} {items : List (Gap × Item)} {last : Gap}

theorem parseFrom_line (renders : cmd.Renders items) (last : Gap) :
    parseFrom (cmd.line items last) .normal .initial =
      some (.normal, if cmd.background then cmd.recorded.record ['&'] .normal else cmd.recorded) := by
  have few := cmd.few
  have inputs : cmd.infile.toList.map Word.text = (cmd.infile.map Word.text).toList := by
    cases cmd.infile <;> rfl
  have outputs : cmd.outfile.toList.map Word.text = (cmd.outfile.map Word.text).toList := by
    cases cmd.outfile <;> rfl
  have room : (CmdlineTokens.initial.argv ++ cmd.argv.map Word.text).length < maxArgs - 1 := by
    rw [List.length_append, List.length_map]
    change 0 + _ < 127
    change _ ≤ 126 at few
    omega
  have stored : CmdlineTokens.initial.Stored := rfl
  rw [line, parseFrom_render items stored rfl (by rw [renders.infile, inputs]; rfl)
    (by rw [renders.outfile, outputs]; rfl) (renders.argv ▸ room), renders.argv]
  cases cmd.background with
  | false =>
      simp only [Bool.false_eq_true, if_false]
      exact parseFrom_gap ⟨[], by simp⟩
  | true => exact parseFrom_ampersand last

theorem not_mem_quoted (word : Word) : '\x00' ∉ word.quoted := by
  simp [Word.quoted, word.chars]

theorem not_mem_gap (gap : Gap) : '\x00' ∉ gap.text := by
  intro member
  obtain is | is := gap.blank _ member <;> cases is

theorem not_mem_item (item : Item) : '\x00' ∉ item.text := by
  cases item <;> simp [Item.text, not_mem_quoted, not_mem_gap]

/-- A line that is not too long is parsed as it is. -/
theorem buffer_line (short : (cmd.line items last).length ≤ maxLineTsh - 1) :
    buffer (cmd.line items last) = cmd.line items last := by
  have chars : '\x00' ∉ cmd.line items last := by
    cases mode : cmd.background <;> simp [line, mode, render, not_mem_gap, not_mem_item]
  have all : (cmd.line items last).takeWhile (· ≠ '\x00') = cmd.line items last :=
    List.takeWhile_eq_self_iff.mpr fun c member => decide_eq_true fun null => chars (null ▸ member)
  rw [buffer, all, List.take_of_length_le short]

theorem parseline_line (renders : cmd.Renders items) (short : (cmd.line items last).length ≤ maxLineTsh - 1) :
    parseline (cmd.line items last) = (if cmd.background then .bg else .fg, cmd.tokens) := by
  have read := parseFrom_line renders last
  rw [parseFrom] at read
  have stored : cmd.recorded.Stored := rfl
  have nonempty : cmd.argv.map Word.text ≠ [] := List.map_eq_nil_iff.not.mpr cmd.nonempty
  dsimp only [parseline]
  rw [buffer_line short, read]
  dsimp only
  rw [if_neg (not_not.mpr rfl)]
  unfold tokens
  cases mode : cmd.background with
  | true => exact classify_background nonempty (stored.record ['&'] .normal) rfl
  | false =>
      obtain ⟨front, w, concat⟩ := (List.eq_nil_or_concat' cmd.argv).resolve_left cmd.nonempty
      obtain ⟨arg, args, split⟩ := List.exists_cons_of_ne_nil nonempty
      have ordinary : ((arg :: args).getLastD []).head? ≠ some '&' := by
        rw [← split, concat, List.map_append, List.map_singleton, List.getLastD_concat]
        exact cmd.foreground mode w (by simp [concat])
      rw [split]
      exact classify_foreground stored split ordinary

/-- **Rendered and parsed again**, a command is what it was: its arguments with a `NULL` after
them, its files and its job mode. -/
theorem parseline_render (renders : cmd.Renders items)
    (short : (cmd.line items last).length ≤ maxLineTsh - 1) :
    parseline (cmd.line items last) = (if cmd.background then .bg else .fg, cmd.tokens) ∧
      cmd.tokens.cells.take cmd.argv.length = cmd.argv.map (some ·.text) ∧
        cmd.tokens.cells[cmd.argv.length]? = some none := by
  refine ⟨parseline_line renders short, ?_, ?_⟩
  · simp [tokens]
  · cases mode : cmd.background <;> simp [tokens, mode]

/-- Two arguments with blanks, operators and a single quote in them, in the background. -/
def quotedJob : Command where
  argv := [⟨['a', ' ', '&'], by decide, by decide⟩, ⟨['<', 'x', '\''], by decide, by decide⟩]
  infile := some ⟨['i', 'n'], by decide, by decide⟩
  outfile := none
  background := true
  nonempty := by simp
  few := by decide
  foreground := nofun

def quotedItems : List (Gap × Item) :=
  [(⟨[], by simp⟩, .arg ⟨['a', ' ', '&'], by decide, by decide⟩),
    (⟨[' '], by simp⟩, .input ⟨['\t'], by simp⟩ ⟨['i', 'n'], by decide, by decide⟩),
    (⟨[' ', ' '], by simp⟩, .arg ⟨['<', 'x', '\''], by decide, by decide⟩)]

theorem parseline_render_quoted :
    parseline (quotedJob.line quotedItems ⟨[' '], by simp⟩) = (.bg, quotedJob.tokens) ∧
      quotedJob.tokens.cells.take 2 = [some ['a', ' ', '&'], some ['<', 'x', '\'']] ∧
        quotedJob.tokens.cells[2]? = some none :=
  parseline_render ⟨rfl, rfl, rfl⟩ (by decide)

end Command

end SystemsLabs.Shell
