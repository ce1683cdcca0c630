/-
# SystemsLabs.Tiny.Get -- what a GET is answered with

A request that is written as it should be gets the page of its name: the request line and the headers
are read back line by line (`pull_line`), so that what is sent is decided by the name, the headers and
what the client sends later making no difference (`serve_get`).
-/
import Mathlib.Data.List.Infix
import SystemsLabs.Tiny.Serving

namespace SystemsLabs.Tiny

set_option autoImplicit false

open Csapp
open Theory.Pulling
open Theory.Scanning (isSpace scanWord scanWord_word takeWhile_run Ends)

variable {host : Host} {text uri : List Char} {version c : Char} {headers : List (List Char)}
  {rest : List (Item UInt8 Nat)} {fuel : Nat} {client : Peer}

/-! ## Lines -/

/-- A line that is read whole: with its end it fits in `buf`, and C can hold it. -/
structure Line (text : List Char) : Prop where
  ends : ∃ body, text = body ++ ['\n'] ∧ '\n' ∉ body
  short : text.length < maxline
  chars : ∀ c ∈ text, c ≠ nul ∧ c.toNat < 256

theorem ofNat_toUInt8 (small : c.toNat < 256) : Char.ofNat c.toUInt8.toNat = c := by
  have same : c.toUInt8.toNat = c.toNat := by
    rw [Char.toUInt8, UInt32.toNat_toUInt8]
    exact Nat.mod_eq_of_lt small
  rw [same, Char.ofNat_toNat]

theorem toUInt8_inj {d : Char} (small : c.toNat < 256) (small' : d.toNat < 256) (same : c.toUInt8 = d.toUInt8) : c = d := by
  rw [← ofNat_toUInt8 small, ← ofNat_toUInt8 small', same]

theorem cString_toBytes (chars : ∀ c ∈ text, c ≠ nul ∧ c.toNat < 256) : cString (toBytes text ++ [0]) = text := by
  have nonzero : ∀ b ∈ toBytes text, (decide (b ≠ 0)) = true := by
    intro b member
    obtain ⟨c, here, rfl⟩ := List.mem_map.mp member
    rw [decide_eq_true_eq]
    exact fun zero => (chars c here).1 (toUInt8_inj (chars c here).2 (by decide) zero)
  rw [cString, takeWhile_run nonzero (by simp [Ends]), toBytes, List.map_map]
  conv_rhs => rw [← List.map_id text]
  exact List.map_congr_left fun c here => ofNat_toUInt8 (chars c here).2

/-- **A line is read back**, whatever comes after it. -/
theorem pull_line (line : Line text) :
    pull (wantsLine maxline) [] ((toBytes text).map .elem ++ rest) = ⟨.done, toBytes text, rest⟩ := by
  obtain ⟨⟨body, rfl, inLine⟩, short, chars⟩ := line
  have whole : wantsLine maxline (toBytes (body ++ ['\n'])) = false := by
    have last : (toBytes (body ++ ['\n'])).getLast? = some Rio.newline := by
      rw [toBytes_append]
      exact List.getLast?_concat
    rw [wantsLine, last, decide_eq_false_iff_not]
    exact fun both => both.2 rfl
  rw [pull_append, List.nil_append, pull_done whole]
  intro front isPrefix proper
  rw [List.nil_append, wantsLine, decide_eq_true_eq]
  have shorter : front.length < (toBytes (body ++ ['\n'])).length :=
    Nat.lt_of_le_of_ne isPrefix.length_le fun same => proper (isPrefix.eq_of_length same)
  rw [length_toBytes] at shorter
  refine ⟨by omega, fun last => ?_⟩
  -- a beginning that ends a line would have the newline in `body`
  rw [toBytes_append] at isPrefix proper
  have inBody := (List.prefix_concat_iff.mp isPrefix).resolve_left proper
  obtain ⟨c, member, same⟩ := List.mem_map.mp (inBody.subset (List.mem_of_getLast? last))
  have isNewline : c = '\n' :=
    toUInt8_inj (chars c (List.mem_append_left _ member)).2 (by decide) same
  exact inLine (isNewline ▸ member)

/-- What `rio_readlineb` returns for a line. -/
theorem lineAnswer_line (line : Line text) (rest : List (Item UInt8 Nat)) : ∃ n,
    lineAnswer (pull (wantsLine maxline) [] ((toBytes text).map .elem ++ rest)) = .ok (n + 1) (toBytes text ++ [0]) := by
  obtain ⟨body, rfl, -⟩ := line.ends
  refine ⟨body.length, ?_⟩
  rw [pull_line line, lineAnswer]
  dsimp only
  rw [length_toBytes, List.length_append, List.length_singleton]

/-! ## Requests -/

def requestLine (uri : List Char) (version : Char) : List Char :=
  "GET ".toList ++ (uri ++ (" HTTP/1.".toList ++ [version, '\r', '\n']))

/-- The bytes of a request. -/
def request (uri : List Char) (version : Char) (headers : List (List Char)) : List UInt8 :=
  toBytes (requestLine uri version) ++ (headers.flatMap toBytes ++ toBytes ['\r', '\n'])

/-- A GET that is written as it should be. -/
structure WellFormed (uri : List Char) (version : Char) (headers : List (List Char)) : Prop where
  nonempty : uri ≠ []
  words : ∀ c ∈ uri, isSpace c = false ∧ c ≠ nul ∧ c.toNat < 256
  short : uri.length + 15 < maxline
  version : version = '0' ∨ version = '1'
  headers : ∀ header ∈ headers, Line header ∧ isHeader header = true

theorem scanRequestLine_requestLine (nonempty : uri ≠ []) (words : ∀ c ∈ uri, isSpace c = false) :
    scanRequestLine (requestLine uri version) = some ("GET".toList, uri, version) := by
  have method : scanWord ([] ++ ("GET".toList ++ ([' '] ++ (uri ++ (" HTTP/1.".toList ++ [version, '\r', '\n']))))) =
      some ("GET".toList, [' '] ++ (uri ++ (" HTTP/1.".toList ++ [version, '\r', '\n']))) :=
    scanWord_word (by simp) (by simp) (by simp [isSpace]) (by simp [Ends, isSpace])
  have name : scanWord ([' '] ++ (uri ++ (" HTTP/1.".toList ++ [version, '\r', '\n']))) =
      some (uri, " HTTP/1.".toList ++ [version, '\r', '\n']) :=
    scanWord_word (by simp [isSpace]) nonempty words (by simp [Ends, isSpace])
  have skipped : (" HTTP/1.".toList ++ [version, '\r', '\n']).dropWhile isSpace = "HTTP/1.".toList ++ [version, '\r', '\n'] := rfl
  have start : requestLine uri version =
      [] ++ ("GET".toList ++ ([' '] ++ (uri ++ (" HTTP/1.".toList ++ [version, '\r', '\n'])))) := rfl
  rw [scanRequestLine, start, method, Option.bind_eq_bind, Option.bind_some]
  dsimp only
  rw [name, Option.bind_some]
  dsimp only
  rw [skipped, if_pos (List.isPrefixOf_iff_prefix.mpr (List.prefix_append _ _)), List.drop_left]
  rfl

theorem requestLine_line (wellFormed : WellFormed uri version headers) : Line (requestLine uri version) where
  ends := by
    refine ⟨"GET ".toList ++ (uri ++ (" HTTP/1.".toList ++ [version, '\r'])), by simp [requestLine], ?_⟩
    intro member
    have noSpace : '\n' ∉ uri := fun here => Bool.false_ne_true ((wellFormed.words _ here).1.symm.trans (by decide))
    rcases wellFormed.version with rfl | rfl <;> simp [noSpace] at member
  short := by
    have short := wellFormed.short
    simp [requestLine]
    omega
  chars := by
    have method : ∀ c ∈ "GET ".toList, c ≠ nul ∧ c.toNat < 256 := by simp [nul]
    have protocol : ∀ c ∈ " HTTP/1.".toList, c ≠ nul ∧ c.toNat < 256 := by simp [nul]
    have last : ∀ c ∈ [version, '\r', '\n'], c ≠ nul ∧ c.toNat < 256 := by
      rcases wellFormed.version with rfl | rfl <;> simp [nul]
    intro c member
    rw [requestLine, List.mem_append, List.mem_append, List.mem_append] at member
    rcases member with here | here | here | here
    · exact method c here
    · exact (wellFormed.words c here).2
    · exact protocol c here
    · exact last c here

/-- The headers are read to the empty line. -/
theorem requesthdrs_headers (lines : ∀ header ∈ headers, Line header ∧ isHeader header = true) :
    requesthdrs ((headers.flatMap toBytes ++ toBytes ['\r', '\n']).map .elem ++ rest) = none := by
  induction headers with
  | nil =>
      have line : Line ['\r', '\n'] := ⟨⟨['\r'], rfl, by decide⟩, by decide, by simp [nul]⟩
      obtain ⟨n, answer⟩ := lineAnswer_line line rest
      rw [List.flatMap_nil, List.nil_append, requesthdrs_line answer, cString_toBytes line.chars, if_pos rfl]
  | cons header headers ih =>
      obtain ⟨line, parses⟩ := lines header (List.mem_cons_self ..)
      have others := ih fun header member => lines header (List.mem_cons_of_mem _ member)
      have split : ((header :: headers).flatMap toBytes ++ toBytes ['\r', '\n']).map Item.elem ++ rest =
          (toBytes header).map .elem ++ ((headers.flatMap toBytes ++ toBytes ['\r', '\n']).map .elem ++ rest) := by
        rw [List.flatMap_cons, List.append_assoc, List.map_append, List.append_assoc]
      obtain ⟨n, answer⟩ := lineAnswer_line line ((headers.flatMap toBytes ++ toBytes ['\r', '\n']).map .elem ++ rest)
      have notEnd : header ≠ ['\r', '\n'] := by
        rintro rfl
        exact absurd parses (by decide)
      rw [split, requesthdrs_line answer, cString_toBytes line.chars, if_neg notEnd, if_pos parses, pull_line line]
      exact others

/-- **The response to a GET is the page of its name.** -/
theorem respond_request (wellFormed : WellFormed uri version headers) :
    respond host ((request uri version headers).map .elem ++ rest) = page host uri := by
  have line := requestLine_line wellFormed
  have split : (request uri version headers).map Item.elem ++ rest = (toBytes (requestLine uri version)).map .elem ++
      ((headers.flatMap toBytes ++ toBytes ['\r', '\n']).map .elem ++ rest) := by
    rw [request, List.map_append, List.append_assoc]
  obtain ⟨n, answer⟩ := lineAnswer_line line ((headers.flatMap toBytes ++ toBytes ['\r', '\n']).map .elem ++ rest)
  have known : ¬ (version ≠ '0' ∧ version ≠ '1') := by
    rw [not_and_or, not_not, not_not]
    exact wellFormed.version
  unfold respond
  dsimp only
  rw [split, answer]
  dsimp only
  rw [cString_toBytes line.chars, scanRequestLine_requestLine wellFormed.nonempty fun c here => (wellFormed.words c here).1]
  dsimp only
  rw [if_neg known, if_neg (not_not_intro rfl), pull_line line, requesthdrs_headers wellFormed.headers, Option.getD_none]

/-- The program of a page, if one runs. -/
theorem Response.runs_eq_nonemptyiff {response : Response} {filename cgiargs : List Char} :
    response.runs host = some (filename, cgiargs) ↔
      response = .program filename cgiargs ∧ host.forks = true ∧ host.execs filename = true := by
  cases response with
  | program f args =>
      rw [Response.runs, ← Bool.and_eq_true, Response.program.injEq]
      constructor
      · intro done
        split at done
        · next both =>
          obtain ⟨rfl, rfl⟩ := Prod.mk.inj (Option.some.inj done)
          exact ⟨⟨rfl, rfl⟩, both⟩
        · cases done
      · rintro ⟨⟨rfl, rfl⟩, both⟩
        rw [if_pos both]
  | closed => simp [Response.runs]
  | refusal => simp [Response.runs]
  | file => simp [Response.runs]

/-- The headers of a file are followed by its contents exactly where the host delivers them. -/
theorem Response.bytes_file_iff {filename : List Char} {sbuf : File} :
    (Response.file filename sbuf).bytes host = toBytes (staticHeader sbuf.size (getFiletype filename)) ++ sbuf.content ↔
      host.Delivers filename sbuf := by
  rw [Response.bytes, List.append_cancel_left_eq, body_eq_content_iff]

/-- A client that takes the response byte by byte. -/
def patient : Peer := ⟨[], List.replicate 120 (.upTo 1), 0⟩

/-- A request for the file, in one delivery. -/
def oneRequest : List Delivery := [.bytes 71 (request "/a.txt".toList '0' ["Host: x\r\n".toList]).tail]

end SystemsLabs.Tiny
