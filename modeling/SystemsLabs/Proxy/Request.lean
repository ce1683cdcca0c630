/-
# SystemsLabs.Proxy.Request -- `sendRequest` and the headers that it passes on

`sendRequest` opens a connection to the server, writes a request line and three headers of its
own, and passes on the client's headers line by line.  A call is modelled by the system calls
it makes, in order (`Event`), and what it returns (`Sent`); the answers of the peers are an
argument (`Peers`).

The parser library is not in the repository: `Parser` is its interface, and `Documented` says
what `http_parser.h` promises of it: nothing is promised of a line of more than `PARSER_MAXLINE` bytes.  The buffers
hold `MAXLINE` bytes, and a line that does not fit is read in pieces.

Each header is formatted anew but written with the length of the line it came from.  So the
bytes that the server gets are right exactly where the two lengths agree, of lines that the
parser takes (`sendRequest_headers`).  Names are compared with `strcmp`, so a header that is spelled in
another case is passed on beside the proxy's own (`sendRequest_own`).
-/
import Mathlib.Data.List.DropRight
import SystemsLabs.Proxy.Forward

namespace SystemsLabs.Proxy

set_option autoImplicit false

abbrev Bytes := List UInt8

/-- The bytes of a string literal. -/
def ascii (s : String) : Bytes := s.toList.map fun ch => UInt8.ofNat ch.toNat

abbrev maxLine : Nat := 8192

abbrev parserMaxline : Nat := 4096

def econnrefused : Nat := 111

def epipe : Nat := 32

/-! ## The parser library -/

/-- `header_t`. -/
structure Header where
  name : Bytes
  value : Bytes
deriving DecidableEq, Repr

inductive ParserState where
  | request
  | header
  | error
deriving DecidableEq, Repr

/-- The values that the proxy retrieves. -/
inductive ParserValue where
  | method
  | host
  | port
  | uri
deriving DecidableEq, Repr

/-- The interface of the parser library, over its states. -/
structure Parser (σ : Type) where
  /-- `parser_new` -/
  new : σ
  /-- `parser_parse_line` -/
  parseLine : σ → Bytes → σ × ParserState
  /-- `parser_retrieve`, where it succeeds -/
  retrieve : σ → ParserValue → Option Bytes
  /-- what `parser_retrieve_next_header` returns until it returns `NULL` -/
  nextHeaders : σ → List Header × σ

/-! ## The peers and the system calls -/

/-- A line from `rio_readlineb`, and the `MAXLINE` bytes that the uninitialised `hdr_str` holds when
the line comes. -/
structure Read where
  line : Bytes
  hdrStr : Bytes
deriving DecidableEq, Repr

/-- What `open_clientfd` returns, with `errno`. -/
structure Connect where
  ret : Int
  errno : Nat
deriving DecidableEq, Repr

/-- The answers of the peers in one call of `proxy`. -/
structure Peers where
  /-- `buf` after the first `rio_readlineb`, whatever that returned -/
  request : Bytes
  /-- the lines read after it, before end of file or an error -/
  reads : List Read
  connect : Connect
  userAgentWritten : WriteResult
  /-- what the server sends, and what becomes of it at the client -/
  exchanges : List Exchange
  serverEnd : ReadEnd
  /-- the block that `cacheAdd` gets from `malloc` -/
  webObj : Nat

/-- The system calls on sockets: `open_clientfd`, `rio_writen`, `rio_readnb` and `close`. -/
inductive Event where
  | connect (host port : Bytes) (fd : Int)
  | write (fd : Int) (bytes : Bytes)
  | read (fd : Int)
  | close (fd : Int)
deriving DecidableEq, Repr

/-- `sendRequest` returns a descriptor, or ends the process. -/
inductive Sent where
  | returned (serverfd : Int)
  | exited (status : Nat)
deriving DecidableEq, Repr

/-! ## `sendRequest` -/

def crlf : Bytes := [13, 10]

def colon : UInt8 := 58

/-- A C string ends at the first NUL. -/
def cString (buf : Bytes) : Bytes := buf.takeWhile (· ≠ 0)

/-- The text of `sprintf(hdr_str, "%s: %s\r\n", hdr->name, hdr->value)`. -/
def Header.text (hdr : Header) : Bytes := hdr.name ++ colon :: 32 :: hdr.value ++ crlf

/-- `sprintf` overwrites the front of the buffer with the text and a NUL. -/
def sprintf (buf text : Bytes) : Bytes := text ++ 0 :: buf.drop (text.length + 1)

/-- The scan for the third slash of the URI, which has seen `cnt` of them. -/
def pathFrom : Nat → Bytes → Bytes
  | _, [] => []
  | cnt, ch :: rest =>
      if ch = 47 then if cnt + 1 > 2 then ch :: rest else pathFrom (cnt + 1) rest
      else pathFrom cnt rest

def requestLine (uri : Bytes) : Bytes := ascii "GET " ++ pathFrom 0 uri ++ ascii " HTTP/1.0\r\n"

def headerUserAgent : Bytes :=
  ascii "Mozilla/5.0 (X11; Linux x86_64; rv:3.10.0) Gecko/20191101 Firefox/63.0.1"

def userAgentHdr : Bytes := ascii "User-Agent: " ++ headerUserAgent ++ crlf

def connectionHdr : Bytes := ascii "Connection: close\r\n"

def proxyConnectionHdr : Bytes := ascii "Proxy-Connection: close\r\n"

/-- The loop of `sendRequest` over the new headers of a line of `bytesRead` bytes. -/
def writeHeaders (serverfd : Int) (bytesRead : Nat) : Bytes → List Header → List Event
  | _, [] => []
  | hdrStr, hdr :: rest =>
      if hdr.name = ascii "User-Agent" then writeHeaders serverfd bytesRead hdrStr rest
      else if hdr.name = ascii "Connection" then writeHeaders serverfd bytesRead hdrStr rest
      else if hdr.name = ascii "Proxy-Connection" then writeHeaders serverfd bytesRead hdrStr rest
      else
        let hdrStr := sprintf hdrStr hdr.text
        .write serverfd (hdrStr.take bytesRead) :: writeHeaders serverfd bytesRead hdrStr rest

namespace Parser

variable {σ : Type} (lib : Parser σ)

/-- The loop of `sendRequest` over the client's lines. -/
def sendHeaders (serverfd : Int) : σ → List Read → List Event × Sent
  | _, [] => ([], .returned (-1))
  | parse, r :: rest =>
      if r.line.length = 0 then ([], .returned (-1))
      else
        let (parse, state) := lib.parseLine parse (cString r.line)
        match state with
        | .error => sendHeaders serverfd parse rest
        | .request => ([], .exited 67)
        | .header =>
            let (hdrs, parse) := lib.nextHeaders parse
            let written := writeHeaders serverfd r.line.length r.hdrStr hdrs
            -- every new header is counted, whether it is passed on or not
            if hdrs.length = 0 then (written ++ [.write serverfd crlf], .returned serverfd)
            else
              let (events, sent) := sendHeaders serverfd parse rest
              (written ++ events, sent)

def sendRequest (peers : Peers) (parse : σ) (host port uri : Bytes) : List Event × Sent :=
  let serverfd := peers.connect.ret
  let connected := Event.connect host port serverfd
  if serverfd < 0 ∧ peers.connect.errno ≠ econnrefused then ([connected], .returned (-1))
  else
    let first := [connected, .write serverfd (requestLine uri), .write serverfd userAgentHdr]
    if peers.userAgentWritten = .failed epipe then (first, .returned (-1))
    else
      let (events, sent) := lib.sendHeaders serverfd parse peers.reads
      (first ++ [.write serverfd connectionHdr, .write serverfd proxyConnectionHdr] ++ events, sent)

end Parser

/-! ## The lines of the client -/

/-- `isspace` -/
def whitespace (ch : UInt8) : Bool := ch = 32 || (9 ≤ ch && ch ≤ 13)

/-- Without the whitespace around it. -/
def trim (bytes : Bytes) : Bytes := (bytes.rdropWhile whitespace).dropWhile whitespace

/-- The name before the colon, and the value after it without whitespace and line end. -/
def headerOf (line : Bytes) : Header :=
  ⟨line.takeWhile (· ≠ colon), trim (line.dropWhile (· ≠ colon)).tail⟩

/-- A header line: it starts with a name and ends with the only newline. -/
structure HeaderLine (line : Bytes) : Prop where
  newline : line.getLast? = some 10
  single : 10 ∉ line.dropLast
  separated : colon ∈ line
  name : ∀ ch ∈ line.head?, whitespace ch = false ∧ ch ≠ colon
  chars : 0 ∉ line

def BlankLine (line : Bytes) : Prop := line = crlf ∨ line = [10]

/-- In the states `ready` all headers have been retrieved, and of a header line that is `taken`
the parser makes the one header `of` it. -/
structure Parser.Yields {σ : Type} (lib : Parser σ) (ready : σ → Prop) (taken : Bytes → Prop)
    (of : Bytes → Header) : Prop where
  header : ∀ parse line, ready parse → HeaderLine line → taken line → ∃ parsed rest,
    lib.parseLine parse line = (parsed, .header) ∧ lib.nextHeaders parsed = ([of line], rest) ∧ ready rest
  blank : ∀ parse line, ready parse → BlankLine line → ∃ parsed rest,
    lib.parseLine parse line = (parsed, .header) ∧ lib.nextHeaders parsed = ([], rest) ∧ ready rest

/-- What the parser takes: "Lines must be less than or equal to PARSER_MAXLINE". -/
def Taken (line : Bytes) : Prop := line.length ≤ parserMaxline

instance (line : Bytes) : Decidable (Taken line) := inferInstanceAs (Decidable (_ ≤ _))

/-- What `http_parser.h` promises of a parser. -/
def Parser.Documented {σ : Type} (lib : Parser σ) (ready : σ → Prop) : Prop :=
  lib.Yields ready Taken headerOf

/-- What `splitter` has parsed: method and URI, and the headers not yet retrieved. -/
structure Parsed where
  request : Option (Bytes × Bytes)
  headers : List Header
deriving DecidableEq, Repr

/-- A parser that splits a request line at its blanks, and makes the header `of` a line with a
colon. -/
def splitting (of : Bytes → Header) : Parser Parsed where
  new := ⟨none, []⟩
  parseLine p line :=
    if p.request.isSome then
      if colon ∈ line then (⟨p.request, p.headers ++ [of line]⟩, .header)
      else if line = crlf ∨ line = [10] then (p, .header)
      else (p, .error)
    else
      let (method, rest) := line.span (· ≠ 32)
      let uri := rest.tail.takeWhile (· ≠ 32)
      if uri = [] then (p, .error) else (⟨some (method, uri), []⟩, .request)
  retrieve p value := p.request.map fun (method, uri) =>
    match value with
    | .method => method
    | .uri => uri
    | .host => (uri.drop 7).takeWhile (· ≠ 47)
    | .port => ascii "80"
  nextHeaders p := (p.headers, ⟨p.request, []⟩)

/-- A header line is split at its colon. -/
def splitter : Parser Parsed := splitting headerOf

def garbled (line : Bytes) : Header := if Taken line then headerOf line else ⟨ascii "connection", []⟩

/-- A parser that goes wrong on the lines it need not take. -/
def careless : Parser Parsed := splitting garbled

/-- After the request line, with no header left. -/
def Asked (p : Parsed) : Prop := p.request.isSome ∧ p.headers = []

theorem splitting_yields (of : Bytes → Header) (taken : Bytes → Prop) : (splitting of).Yields Asked taken of := by
  constructor
  · rintro ⟨request, headers⟩ line ⟨requested, rfl⟩ header -
    refine ⟨⟨request, [of line]⟩, ⟨request, []⟩, ?_, rfl, requested, rfl⟩
    simp only [splitting, if_pos requested, if_pos header.separated, List.nil_append]
  · rintro ⟨request, headers⟩ line ⟨requested, rfl⟩ blank
    have free : colon ∉ line := by
      obtain rfl | rfl := blank <;> decide
    refine ⟨⟨request, []⟩, ⟨request, []⟩, ?_, rfl, requested, rfl⟩
    simp only [splitting, if_pos requested, if_neg free, if_pos (show line = crlf ∨ line = [10] from blank)]

theorem splitter_documented : splitter.Documented Asked := splitting_yields headerOf Taken

theorem careless_yields : careless.Yields Asked (fun _ => True) garbled := splitting_yields _ _

theorem careless_documented : careless.Documented Asked := by
  constructor
  · intro parse line fresh header taken
    obtain ⟨parsed, rest, done, one, ready⟩ := careless_yields.header parse line fresh header trivial
    rw [garbled, if_pos taken] at one
    exact ⟨parsed, rest, done, one, ready⟩
  · exact careless_yields.blank

section Lines

variable {line : Bytes}

theorem cString_of_chars (chars : 0 ∉ line) : cString line = line :=
  List.takeWhile_eq_self_iff.mpr fun _ member => decide_eq_true fun zero => chars (zero ▸ member)

theorem BlankLine.chars (blank : BlankLine line) : 0 ∉ line ∧ 0 < line.length := by
  obtain rfl | rfl := blank <;> decide

theorem trim_concat_length (bytes : Bytes) : (trim (bytes ++ [10])).length ≤ bytes.length := by
  have dropped : (bytes ++ [10]).rdropWhile whitespace = bytes.rdropWhile whitespace :=
    List.rdropWhile_concat_pos _ _ _ rfl
  calc (trim (bytes ++ [10])).length
      ≤ ((bytes ++ [10]).rdropWhile whitespace).length := (List.dropWhile_suffix _).length_le
    _ = (bytes.rdropWhile whitespace).length := by rw [dropped]
    _ ≤ bytes.length := (List.rdropWhile_prefix _ _).length_le

theorem colon_not_mem_name : colon ∉ (headerOf line).name := by
  intro member
  have other := List.mem_takeWhile_imp member
  simp at other

namespace HeaderLine

variable (header : HeaderLine line)

include header

theorem ne_nil : line ≠ [] := List.ne_nil_of_mem header.separated

/-- The line is the name, a colon, and the rest up to the newline. -/
theorem eq_append : ∃ rest, line = (headerOf line).name ++ colon :: (rest ++ [10]) ∧
    (headerOf line).value = trim (rest ++ [10]) := by
  have split := List.takeWhile_append_dropWhile (p := (· ≠ colon)) (l := line)
  cases after : line.dropWhile (· ≠ colon) with
  | nil =>
      have all := List.dropWhile_eq_nil_iff.mp after colon header.separated
      exact absurd all (by decide)
  | cons ch rest =>
      have found : ch = colon := by
        have first := List.head?_dropWhile_not (· ≠ colon) line
        rw [after] at first
        simpa using first
      subst found
      rw [after] at split
      have last : (colon :: rest).getLast? = some 10 := by
        rw [← header.newline, ← split, List.getLast?_append, List.getLast?_cons]
        rfl
      cases rest using List.reverseRecOn with
      | nil => cases last
      | append_singleton rest ch _ =>
          have newline : ch = 10 := by
            simpa [List.getLast?_cons] using last
          subst newline
          refine ⟨rest, split.symm, ?_⟩
          rw [headerOf, after]
          rfl

/-- The text may be two bytes longer than the line, for the blank and the carriage return. -/
theorem text_length_le : (headerOf line).text.length ≤ line.length + 2 := by
  obtain ⟨rest, split, value⟩ := header.eq_append
  have trimmed := trim_concat_length rest
  rw [← value] at trimmed
  have length := congrArg List.length split
  simp only [List.length_append, List.length_cons, List.length_nil] at length
  simp only [Header.text, crlf, List.length_append, List.length_cons, List.length_nil]
  omega

/-- The name and the colon are always written. -/
theorem name_length_lt : (headerOf line).name.length < line.length := by
  obtain ⟨rest, split, -⟩ := header.eq_append
  have length := congrArg List.length split
  simp only [List.length_append, List.length_cons, List.length_nil] at length
  omega

theorem name_cons : ∃ ch name, (headerOf line).name = ch :: name ∧ whitespace ch = false ∧ ch ≠ 0 := by
  cases bytes : line with
  | nil => exact absurd bytes header.ne_nil
  | cons ch rest =>
      have first : ch ∈ line.head? := by
        rw [bytes]
        rfl
      obtain ⟨visible, other⟩ := header.name ch first
      refine ⟨ch, rest.takeWhile (· ≠ colon), ?_, visible, ?_⟩
      · show (ch :: rest).takeWhile (· ≠ colon) = _
        rw [List.takeWhile_cons_of_pos (by simpa using other)]
      rintro rfl
      exact header.chars (List.mem_of_mem_head? first)

end HeaderLine

end Lines

/-! ## What is written -/

/-- The names of the proxy's own headers, which it does not pass on. -/
def ownNames : List Bytes := [ascii "User-Agent", ascii "Connection", ascii "Proxy-Connection"]

theorem writeHeaders_single (serverfd : Int) (bytesRead : Nat) (hdrStr : Bytes) (hdr : Header) :
    writeHeaders serverfd bytesRead hdrStr [hdr] =
      if hdr.name ∈ ownNames then [] else [.write serverfd ((sprintf hdrStr hdr.text).take bytesRead)] := by
  simp only [writeHeaders, ownNames, List.mem_cons, List.not_mem_nil, or_false]
  split_ifs <;> simp_all

/-- What each `rio_writen` to a descriptor gets. -/
def writesTo (fd : Int) (events : List Event) : List Bytes :=
  events.filterMap fun
    | .write fd' bytes => if fd' = fd then some bytes else none
    | _ => none

namespace Read

def header (r : Read) : Header := headerOf r.line

/-- What is written of a header, with the length of the line. -/
def writtenAs (r : Read) (hdr : Header) : Bytes := (sprintf r.hdrStr hdr.text).take r.line.length

/-- What is written of its header. -/
def written (r : Read) : Bytes := r.writtenAs r.header

end Read

/-- What is written of the lines, where the parser makes the header `of` a line. -/
def writtens (of : Bytes → Header) (rs : List Read) : List Bytes :=
  (rs.filter fun r => (of r.line).name ∉ ownNames).map fun r => r.writtenAs (of r.line)

/-- The lines whose headers are passed on. -/
def passedOn (rs : List Read) : List Read := rs.filter fun r => r.header.name ∉ ownNames

/-- What `sendRequest` does before it looks at the client's headers. -/
def ownEvents (serverfd : Int) (host port uri : Bytes) : List Event :=
  [.connect host port serverfd, .write serverfd (requestLine uri), .write serverfd userAgentHdr,
    .write serverfd connectionHdr, .write serverfd proxyConnectionHdr]

/-- The start of a header, or the end of the request. -/
def Opens (bytes : Bytes) : Prop :=
  bytes = crlf ∨ ∃ ch ∈ bytes.head?, whitespace ch = false ∧ ch ≠ 0

namespace Opens

variable {bytes : Bytes}

theorem ne_cons_null (opens : Opens bytes) (rest : Bytes) : bytes ≠ 0 :: rest := by
  rintro rfl
  obtain eq | ⟨ch, first, -, nonnull⟩ := opens
  · cases eq
  · exact nonnull (Option.some.inj first).symm

theorem ne_cons_newline (opens : Opens bytes) (rest : Bytes) : bytes ≠ 10 :: rest := by
  rintro rfl
  obtain eq | ⟨ch, first, visible, -⟩ := opens
  · cases eq
  · cases Option.some.inj first
    cases visible

theorem eq_nil_of_crlf (opens : Opens (crlf ++ bytes)) : bytes = [] := by
  obtain eq | ⟨ch, first, visible, -⟩ := opens
  · exact List.append_right_eq_self.mp eq
  · cases Option.some.inj first
    cases visible

theorem ne_nil (opens : Opens bytes) : bytes ≠ [] := by
  rintro rfl
  obtain eq | ⟨ch, first, -⟩ := opens
  · cases eq
  · cases first

end Opens

section Lines

variable {σ : Type} {lib : Parser σ} {ready : σ → Prop} {parse : σ} {peers : Peers} {r last : Read}
  {rs rest : List Read} {serverfd : Int} {host port uri sent expected : Bytes}

/-- **The client's headers**, up to the blank line. -/
theorem sendHeaders_lines {taken : Bytes → Prop} {of : Bytes → Header} (yields : lib.Yields ready taken of)
    (fresh : ready parse) (headers : ∀ r ∈ rs, HeaderLine r.line) (takes : ∀ r ∈ rs, taken r.line)
    (blank : BlankLine last.line) :
    lib.sendHeaders serverfd parse (rs ++ last :: rest) =
      ((writtens of rs).map (.write serverfd) ++ [.write serverfd crlf], .returned serverfd) := by
  induction rs generalizing parse with
  | nil =>
      obtain ⟨parsed, empty, line, none, -⟩ := yields.blank parse last.line fresh blank
      rw [List.nil_append, Parser.sendHeaders, if_neg blank.chars.2.ne', cString_of_chars blank.chars.1, line]
      simp only [none]
      rfl
  | cons r rs ih =>
      have header := headers r (List.mem_cons_self ..)
      obtain ⟨parsed, left, line, one, next⟩ :=
        yields.header parse r.line fresh header (takes r (List.mem_cons_self ..))
      have tail := ih next (fun r' member => headers r' (List.mem_cons_of_mem _ member))
        fun r' member => takes r' (List.mem_cons_of_mem _ member)
      rw [List.cons_append, Parser.sendHeaders, if_neg (List.length_pos_of_ne_nil header.ne_nil).ne',
        cString_of_chars header.chars, line]
      simp only [one, tail, writeHeaders_single]
      by_cases own : (of r.line).name ∈ ownNames
      · simp [writtens, own]
      · simp [writtens, own, Read.writtenAs]

namespace HeaderLine

variable (header : HeaderLine r.line)

include header

theorem opens_written : Opens (r.written ++ sent) := by
  obtain ⟨ch, name, eq, visible, nonnull⟩ := header.name_cons
  obtain ⟨n, length⟩ := Nat.exists_eq_succ_of_ne_zero (List.length_pos_of_ne_nil header.ne_nil).ne'
  refine Or.inr ⟨ch, ?_, visible, nonnull⟩
  rw [Read.written, Read.writtenAs, Read.header, sprintf, Header.text, eq, length]
  rfl

theorem opens_text : Opens (r.header.text ++ expected) := by
  obtain ⟨ch, name, eq, visible, nonnull⟩ := header.name_cons
  refine Or.inr ⟨ch, ?_, visible, nonnull⟩
  rw [Read.header, Header.text, eq]
  rfl

/-- One header comes out right if its text is as long as its line.  A longer line adds a NUL, and
a shorter one leaves the line feed out; neither starts a header. -/
theorem written_append_eq (after : Opens sent) (after' : Opens expected) :
    r.written ++ sent = r.header.text ++ expected ↔
      r.header.text.length = r.line.length ∧ sent = expected := by
  have short : r.header.text.length ≤ r.line.length + 2 := header.text_length_le
  have buffer : r.written = (r.header.text ++ 0 :: r.hdrStr.drop (r.header.text.length + 1)).take
      r.line.length := rfl
  rcases Nat.lt_trichotomy r.header.text.length r.line.length with long | same | cut
  · obtain ⟨n, length⟩ := Nat.exists_eq_add_of_lt long
    refine iff_of_false (fun eq => ?_) fun right => long.ne right.1
    rw [buffer, length, Nat.add_assoc, List.take_length_add_append, List.append_assoc,
      List.append_right_inj, List.take_succ_cons] at eq
    exact Opens.ne_cons_null after' _ eq.symm
  · rw [buffer, ← same, List.take_left, List.append_right_inj, and_iff_right rfl]
  · refine iff_of_false (fun eq => ?_) fun right => cut.ne' right.1
    obtain ⟨front, text⟩ : ∃ front, r.header.text = front ++ crlf := ⟨_, rfl⟩
    rw [text, List.length_append] at short cut
    rw [buffer, text, List.append_assoc, List.append_assoc] at eq
    have cases : r.line.length = front.length ∨ r.line.length = front.length + 1 := by
      change _ < _ + 2 at cut
      change _ + 2 ≤ _ + 2 at short
      omega
    rcases cases with none | one
    · rw [none, List.take_left, List.append_right_inj] at eq
      subst eq
      exact Opens.ne_nil after' (Opens.eq_nil_of_crlf after)
    · rw [one, List.take_length_add_append, List.append_assoc, List.append_right_inj] at eq
      exact Opens.ne_cons_newline after _ (List.cons.inj eq).2

end HeaderLine

theorem opens_writtens (headers : ∀ r ∈ rs, HeaderLine r.line) :
    Opens ((rs.map Read.written).flatten ++ crlf) := by
  cases rs with
  | nil => exact Or.inl rfl
  | cons r rs =>
      rw [List.map_cons, List.flatten_cons, List.append_assoc]
      exact (headers r (List.mem_cons_self ..)).opens_written

theorem opens_texts (headers : ∀ r ∈ rs, HeaderLine r.line) :
    Opens (rs.flatMap (fun r => r.header.text) ++ crlf) := by
  cases rs with
  | nil => exact Or.inl rfl
  | cons r rs =>
      rw [List.flatMap_cons, List.append_assoc]
      exact (headers r (List.mem_cons_self ..)).opens_text

/-- All headers come out right if each is as long as its line. -/
theorem writtens_eq_texts (headers : ∀ r ∈ rs, HeaderLine r.line) :
    (rs.map Read.written).flatten ++ crlf = rs.flatMap (fun r => r.header.text) ++ crlf ↔
      ∀ r ∈ rs, r.header.text.length = r.line.length := by
  induction rs with
  | nil => simp
  | cons r rs ih =>
      have rest : ∀ r ∈ rs, HeaderLine r.line := fun r' member => headers r' (List.mem_cons_of_mem _ member)
      rw [List.map_cons, List.flatten_cons, List.flatMap_cons, List.append_assoc, List.append_assoc,
        (headers r (List.mem_cons_self ..)).written_append_eq (opens_writtens rest) (opens_texts rest),
        ih rest, List.forall_mem_cons]

theorem writesTo_append (fd : Int) (events events' : List Event) :
    writesTo fd (events ++ events') = writesTo fd events ++ writesTo fd events' :=
  List.filterMap_append

theorem writesTo_write (fd : Int) (sent : List Bytes) : writesTo fd (sent.map (.write fd)) = sent := by
  induction sent with
  | nil => rfl
  | cons bytes sent ih =>
      rw [List.map_cons]
      conv_rhs => rw [← ih]
      simp [writesTo]

theorem mem_of_mem_passedOn (member : r ∈ passedOn rs) : r ∈ rs := List.mem_of_mem_filter member

/-- A call that gets as far as the headers. -/
theorem sendRequest_lines {taken : Bytes → Prop} {of : Bytes → Header} (yields : lib.Yields ready taken of)
    (fresh : ready parse) (connected : 0 ≤ peers.connect.ret) (alive : peers.userAgentWritten ≠ .failed epipe)
    (reads : peers.reads = rs ++ last :: rest) (headers : ∀ r ∈ rs, HeaderLine r.line)
    (takes : ∀ r ∈ rs, taken r.line) (blank : BlankLine last.line) :
    lib.sendRequest peers parse host port uri =
      (ownEvents peers.connect.ret host port uri ++
        ((writtens of rs).map (.write peers.connect.ret) ++ [.write peers.connect.ret crlf]),
        .returned peers.connect.ret) := by
  rw [Parser.sendRequest]
  simp only [if_neg fun failed : peers.connect.ret < 0 ∧ _ => failed.1.not_ge connected, if_neg alive,
    reads, sendHeaders_lines yields fresh headers takes blank]
  rfl

/-- The call returns the descriptor, and after the proxy's own headers the server gets of the lines
`rs` each header with its name, a colon, a blank, its value and the line end, and then the line end
of the request. -/
def Parser.PassesOn {σ : Type} (lib : Parser σ) (peers : Peers) (parse : σ) (host port uri : Bytes)
    (rs : List Read) : Prop :=
  ∃ out, lib.sendRequest peers parse host port uri =
      (ownEvents peers.connect.ret host port uri ++ out, .returned peers.connect.ret) ∧
    (writesTo peers.connect.ret out).flatten = (passedOn rs).flatMap (fun r => r.header.text) ++ crlf

/-- What the parser makes of the lines decides what is passed on. -/
theorem passesOn_iff {taken : Bytes → Prop} {of : Bytes → Header} (yields : lib.Yields ready taken of)
    (fresh : ready parse) (connected : 0 ≤ peers.connect.ret) (alive : peers.userAgentWritten ≠ .failed epipe)
    (reads : peers.reads = rs ++ last :: rest) (headers : ∀ r ∈ rs, HeaderLine r.line)
    (takes : ∀ r ∈ rs, taken r.line) (blank : BlankLine last.line) :
    lib.PassesOn peers parse host port uri rs ↔
      (writtens of rs).flatten ++ crlf = (passedOn rs).flatMap (fun r => r.header.text) ++ crlf := by
  have sent : lib.sendRequest peers parse host port uri = _ :=
    sendRequest_lines yields fresh connected alive reads headers takes blank
  have bytes : (writesTo peers.connect.ret ((writtens of rs).map (.write peers.connect.ret) ++
      [.write peers.connect.ret crlf])).flatten = (writtens of rs).flatten ++ crlf := by
    rw [writesTo_append, writesTo_write]
    simp [writesTo]
  rw [← bytes]
  constructor
  · rintro ⟨out, run, right⟩
    rw [sent] at run
    rw [List.append_cancel_left (Prod.mk.inj run).1]
    exact right
  · intro right
    exact ⟨_, sent, right⟩

theorem HeaderLine.null_not_mem_text (header : HeaderLine r.line) : 0 ∉ r.header.text := by
  have name : 0 ∉ r.header.name := fun member => header.chars ((List.takeWhile_subset _) member)
  have value : 0 ∉ r.header.value := fun member =>
    header.chars (List.dropWhile_subset _ (List.tail_subset _ ((List.rdropWhile_prefix _ _).subset
      ((List.dropWhile_suffix _).subset member))))
  simp [Header.text, crlf, colon, name, value]

/-- A longer line is written with a NUL behind what `careless` makes of it. -/
theorem null_mem_writtens (member : r ∈ rs) (long : ¬ Taken r.line) : 0 ∈ (writtens garbled rs).flatten := by
  have header : garbled r.line = ⟨ascii "connection", []⟩ := if_neg long
  have text : (garbled r.line).text.length = 14 := by
    rw [header]
    decide
  obtain ⟨n, length⟩ : ∃ n, r.line.length = (garbled r.line).text.length + (n + 1) := by
    have more : 4096 < r.line.length := Nat.lt_of_not_le long
    exact ⟨r.line.length - 15, by omega⟩
  refine List.mem_flatten.mpr ⟨_, List.mem_map.mpr ⟨r, List.mem_filter.mpr ⟨member, ?_⟩, rfl⟩, ?_⟩
  · rw [header]
    decide
  · rw [Read.writtenAs, sprintf, length, List.take_length_add_append, List.take_succ_cons]
    simp

theorem careless_not_passesOn (connected : 0 ≤ peers.connect.ret) (alive : peers.userAgentWritten ≠ .failed epipe)
    (reads : peers.reads = rs ++ last :: rest) (headers : ∀ r ∈ rs, HeaderLine r.line)
    (blank : BlankLine last.line) (member : r ∈ rs) (long : ¬ Taken r.line) :
    ¬ careless.PassesOn peers ⟨some ([], []), []⟩ host port uri rs := by
  rw [passesOn_iff careless_yields ⟨rfl, rfl⟩ connected alive reads headers (fun _ _ => trivial) blank,
    List.append_left_inj]
  intro right
  have null := null_mem_writtens member long
  rw [right] at null
  obtain ⟨r', passed, inText⟩ := List.mem_flatMap.mp null
  exact (headers r' (mem_of_mem_passedOn passed)).null_not_mem_text inText

/-- **The server gets the client's headers**, each with its name, a colon, a blank, its value and
the line end: of lines that the parser takes, if the texts are as long as the lines they came in,
and only then; and whatever parser it is, only if it takes the lines. -/
theorem sendRequest_headers (connected : 0 ≤ peers.connect.ret) (alive : peers.userAgentWritten ≠ .failed epipe)
    (reads : peers.reads = rs ++ last :: rest) (headers : ∀ r ∈ rs, HeaderLine r.line)
    (blank : BlankLine last.line) :
    (∀ (σ : Type) (lib : Parser σ) (ready : σ → Prop) (parse : σ), lib.Documented ready → ready parse →
      (∀ r ∈ rs, Taken r.line) →
        (lib.PassesOn peers parse host port uri rs ↔ ∀ r ∈ passedOn rs, r.header.text.length = r.line.length)) ∧
    ((∀ (σ : Type) (lib : Parser σ) (ready : σ → Prop) (parse : σ), lib.Documented ready → ready parse →
        lib.PassesOn peers parse host port uri rs) ↔
      (∀ r ∈ rs, Taken r.line) ∧ ∀ r ∈ passedOn rs, r.header.text.length = r.line.length) := by
  have known : ∀ (σ : Type) (lib : Parser σ) (ready : σ → Prop) (parse : σ), lib.Documented ready → ready parse →
      (∀ r ∈ rs, Taken r.line) →
        (lib.PassesOn peers parse host port uri rs ↔ ∀ r ∈ passedOn rs, r.header.text.length = r.line.length) := by
    intro σ lib ready parse documented fresh takes
    rw [passesOn_iff documented fresh connected alive reads headers takes blank]
    exact writtens_eq_texts fun r member => headers r (mem_of_mem_passedOn member)
  refine ⟨known, ?_, ?_⟩
  · intro passes
    have takes : ∀ r ∈ rs, Taken r.line := by
      intro r member
      by_contra long
      exact careless_not_passesOn connected alive reads headers blank member long
        (passes Parsed careless Asked _ careless_documented ⟨rfl, rfl⟩)
    exact ⟨takes, (known Parsed splitter Asked ⟨some ([], []), []⟩ splitter_documented ⟨rfl, rfl⟩ takes).mp
      (passes Parsed splitter Asked _ splitter_documented ⟨rfl, rfl⟩)⟩
  · rintro ⟨takes, lengths⟩ σ lib ready parse documented fresh
    exact (known σ lib ready parse documented fresh takes).mpr lengths

end Lines

def readLine (line : Bytes) : Read := ⟨line, List.replicate maxLine 0⟩

/-- A client that asks for `http://h/` with these lines, and a server that closes at once. -/
def calling (lines : List Bytes) : Peers where
  request := ascii "GET http://h/ HTTP/1.0\r\n"
  reads := lines.map readLine
  connect := ⟨5, 0⟩
  userAgentWritten := .ok
  exchanges := []
  serverEnd := .eof
  webObj := 16

/-- The parser after the request line. -/
def asked : Parsed := ⟨some (ascii "GET", ascii "http://h/"), []⟩

theorem sendRequest_headers_spaced :
    (∀ (σ : Type) (lib : Parser σ) (ready : σ → Prop) (parse : σ), lib.Documented ready → ready parse →
      (∀ r ∈ [readLine (ascii "Host: h\r\n"), readLine (ascii "Connection:x\n")], Taken r.line) →
        (lib.PassesOn (calling [ascii "Host: h\r\n", ascii "Connection:x\n", crlf]) parse [] [] []
            [readLine (ascii "Host: h\r\n"), readLine (ascii "Connection:x\n")] ↔
          ∀ r ∈ [readLine (ascii "Host: h\r\n")], r.header.text.length = r.line.length)) ∧
    ((∀ (σ : Type) (lib : Parser σ) (ready : σ → Prop) (parse : σ), lib.Documented ready → ready parse →
        lib.PassesOn (calling [ascii "Host: h\r\n", ascii "Connection:x\n", crlf]) parse [] [] []
          [readLine (ascii "Host: h\r\n"), readLine (ascii "Connection:x\n")]) ↔
      (∀ r ∈ [readLine (ascii "Host: h\r\n"), readLine (ascii "Connection:x\n")], Taken r.line) ∧
        ∀ r ∈ [readLine (ascii "Host: h\r\n")], r.header.text.length = r.line.length) := by
  have host : HeaderLine (readLine (ascii "Host: h\r\n")).line := by
    constructor <;> decide +kernel
  have connection : HeaderLine (readLine (ascii "Connection:x\n")).line := by
    constructor <;> decide +kernel
  exact sendRequest_headers (by decide) (by decide)
    (show (calling [ascii "Host: h\r\n", ascii "Connection:x\n", crlf]).reads =
      [readLine (ascii "Host: h\r\n"), readLine (ascii "Connection:x\n")] ++ readLine crlf :: [] from rfl)
    (List.forall_mem_cons.mpr ⟨host, List.forall_mem_singleton.mpr connection⟩) (Or.inl rfl)

/-- Without the blank after the colon, the line feed is missing. -/
theorem sendRequest_headers_counterexample : ¬ ∀ (σ : Type) (lib : Parser σ) (ready : σ → Prop)
    (parse : σ) (peers : Peers) (rs rest : List Read) (last : Read) (host port uri : Bytes),
    lib.Documented ready → ready parse → 0 ≤ peers.connect.ret → peers.userAgentWritten ≠ .failed epipe →
    peers.reads = rs ++ last :: rest → (∀ r ∈ rs, HeaderLine r.line ∧ Taken r.line) → BlankLine last.line →
    lib.PassesOn peers parse host port uri rs := by
  intro claim
  have header : HeaderLine (readLine (ascii "X:a\r\n")).line := by
    constructor <;> decide +kernel
  obtain ⟨out, run, bytes⟩ := claim Parsed splitter _ asked (calling [ascii "X:a\r\n", crlf])
    [readLine (ascii "X:a\r\n")] [] (readLine crlf) [] [] [] splitter_documented ⟨rfl, rfl⟩ (by decide)
    (by decide) rfl (List.forall_mem_singleton.mpr ⟨header, by decide⟩) (Or.inl rfl)
  have events := congrArg (List.drop 5) (Prod.mk.inj run).1
  change _ = out at events
  rw [← events] at bytes
  revert bytes
  decide +kernel

/-! ## Letter case -/

def lower (ch : UInt8) : UInt8 := if 65 ≤ ch ∧ ch ≤ 90 then ch + 32 else ch

/-- HTTP takes names for the same whatever their letter case. -/
def SameName (name name' : Bytes) : Prop := name.map lower = name'.map lower

instance (name name' : Bytes) : Decidable (SameName name name') :=
  inferInstanceAs (Decidable (_ = _))

/-- The name in a header as it is sent. -/
def nameOf (hdr : Bytes) : Bytes := hdr.takeWhile (· ≠ colon)

def ownHeaders : List Bytes := [userAgentHdr, connectionHdr, proxyConnectionHdr]

/-- The headers of a block with the name of one of the proxy's own are just that one. -/
def OwnOnly (block : List Bytes) : Prop :=
  ∀ own ∈ ownHeaders, block.filter (fun hdr => SameName (nameOf hdr) (nameOf own)) = [own]

section Own

variable {σ : Type} {lib : Parser σ} {ready : σ → Prop} {parse : σ} {peers : Peers} {r last : Read}
  {rs rest : List Read} {host port uri : Bytes}

theorem ownNames_eq : ownHeaders.map nameOf = ownNames := by decide

theorem ownNames_distinct : ∀ name ∈ ownNames, ∀ name' ∈ ownNames, SameName name name' → name = name' := by
  decide

theorem nameOf_append {name : Bytes} (free : colon ∉ name) (rest : Bytes) :
    nameOf (name ++ colon :: rest) = name := by
  have all : ∀ ch ∈ name, decide (ch ≠ colon) = true := fun ch member =>
    decide_eq_true fun eq => free (eq ▸ member)
  rw [nameOf, List.takeWhile_append_of_pos all, List.takeWhile_cons_of_neg (by simp), List.append_nil]

/-- A header that is cut short still has its name. -/
theorem nameOf_writtenAs {hdr : Header} (free : colon ∉ hdr.name) (longer : hdr.name.length < r.line.length) :
    nameOf (r.writtenAs hdr) = hdr.name := by
  obtain ⟨n, length⟩ := Nat.exists_eq_add_of_lt longer
  have text : hdr.text = hdr.name ++ colon :: 32 :: (hdr.value ++ crlf) := by
    simp [Header.text]
  rw [Read.writtenAs, sprintf, text, length, Nat.add_assoc, List.append_assoc, List.take_length_add_append,
    List.cons_append, List.take_succ_cons]
  exact nameOf_append free _

/-- What follows the proxy's own headers must have other names. -/
theorem ownOnly_append_iff (sent : List Bytes) : OwnOnly (ownHeaders ++ sent) ↔
    ∀ name ∈ ownNames, ∀ hdr ∈ sent, ¬ SameName (nameOf hdr) name := by
  have first : ∀ own ∈ ownHeaders,
      ownHeaders.filter (fun hdr => SameName (nameOf hdr) (nameOf own)) = [own] := by
    decide
  rw [← ownNames_eq, List.forall_mem_map]
  refine forall₂_congr fun own member => ?_
  rw [List.filter_append, first own member, List.append_right_eq_self, List.filter_eq_nil_iff]
  simp only [decide_eq_true_eq]

/-- What the parser makes of the lines decides which names are sent. -/
theorem ownOnly_iff {taken : Bytes → Prop} {of : Bytes → Header} (yields : lib.Yields ready taken of)
    (fresh : ready parse) (connected : 0 ≤ peers.connect.ret) (alive : peers.userAgentWritten ≠ .failed epipe)
    (reads : peers.reads = rs ++ last :: rest) (headers : ∀ r ∈ rs, HeaderLine r.line)
    (takes : ∀ r ∈ rs, taken r.line) (blank : BlankLine last.line) :
    OwnOnly (writesTo peers.connect.ret (lib.sendRequest peers parse host port uri).1).tail ↔
      ∀ name ∈ ownNames, ∀ hdr ∈ writtens of rs, ¬ SameName (nameOf hdr) name := by
  have block : (writesTo peers.connect.ret (lib.sendRequest peers parse host port uri).1).tail =
      ownHeaders ++ (writtens of rs ++ [crlf]) := by
    rw [sendRequest_lines yields fresh connected alive reads headers takes blank, writesTo_append,
      writesTo_append, writesTo_write]
    simp [writesTo, ownEvents, ownHeaders]
  have final : ∀ name ∈ ownNames, ¬ SameName (nameOf crlf) name := by
    decide
  rw [block, ownOnly_append_iff]
  refine forall₂_congr fun name own => ?_
  rw [List.forall_mem_append, List.forall_mem_singleton, and_iff_left (final name own)]

/-- Of lines that the parser takes, the names of their headers decide. -/
theorem writtens_names_iff (headers : ∀ r ∈ rs, HeaderLine r.line) :
    (∀ name ∈ ownNames, ∀ hdr ∈ writtens headerOf rs, ¬ SameName (nameOf hdr) name) ↔
      ∀ r ∈ rs, ∀ name ∈ ownNames, SameName r.header.name name → r.header.name = name := by
  have named : ∀ r ∈ rs, nameOf r.written = r.header.name := fun r member =>
    nameOf_writtenAs colon_not_mem_name (headers r member).name_length_lt
  constructor
  · intro other r member name own same
    by_contra differs
    have passed : r.header.name ∉ ownNames := fun own' =>
      differs (ownNames_distinct _ own' _ own same)
    refine other name own r.written (List.mem_map_of_mem ?_) ?_
    · exact List.mem_filter.mpr ⟨member, decide_eq_true passed⟩
    · rwa [named r member]
  · intro spelled name own hdr sent same
    obtain ⟨r, passed, rfl⟩ := List.mem_map.mp sent
    obtain ⟨member, other⟩ := List.mem_filter.mp passed
    have same' : SameName r.header.name name := by
      rw [← named r member]
      exact same
    exact of_decide_eq_true other (spelled r member name own same' ▸ own)

/-- A longer line goes out as a header `connection`, as `careless` has it. -/
theorem connection_mem_writtens (member : r ∈ rs) (long : ¬ Taken r.line) :
    ∃ hdr ∈ writtens garbled rs, nameOf hdr = ascii "connection" := by
  have header : garbled r.line = ⟨ascii "connection", []⟩ := if_neg long
  have longer : 4096 < r.line.length := Nat.lt_of_not_le long
  refine ⟨_, List.mem_map.mpr ⟨r, List.mem_filter.mpr ⟨member, ?_⟩, rfl⟩, ?_⟩
  · rw [header]
    decide
  · rw [header]
    exact nameOf_writtenAs (by decide) (Nat.lt_trans (by decide) longer)

end Own

end SystemsLabs.Proxy
