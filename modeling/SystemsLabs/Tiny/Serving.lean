/-
# SystemsLabs.Tiny.Serving -- every request has its response

`respond` says what a client is to be sent for the stream of bytes that it sends.  However the kernel
delivers the stream, `serve` sends that response, or a beginning of it where the client stops
accepting, and runs a program only after all of it (`serve_responds`).
-/
import SystemsLabs.Tiny.Responses

namespace SystemsLabs.Tiny

set_option autoImplicit false

open Csapp
open Theory.Pulling

variable {host : Host} {stream : List (Item UInt8 Nat)} {buf : List UInt8} {fuel n : Nat}
  {rp : Rio} {client : Peer} {response : Response}

/-! ## The response to a stream -/

/-- What `rio_readlineb` returns where it read without a failure. -/
theorem lineAnswer_ok {pulled : Pulled UInt8 Nat} (line : lineAnswer pulled = .ok n buf) :
    n = pulled.got.length ∧ ∀ e, pulled.outcome ≠ .failed e := by
  obtain ⟨outcome, got, rest⟩ := pulled
  cases outcome with
  | failed e => cases line
  | ended =>
      rw [lineAnswer] at line
      dsimp only at line
      split at line
      · next empty =>
        injection line with zero _
        exact ⟨by rw [← zero, empty, List.length_nil], fun e failed => by cases failed⟩
      · injection line with length _
        exact ⟨length.symm, fun e failed => by cases failed⟩
  | done =>
      injection line with length _
      exact ⟨length.symm, fun e failed => by cases failed⟩

/-- A line takes something from the stream. -/
theorem line_shorter (line : lineAnswer (pull (wantsLine maxline) [] stream) = .ok (n + 1) buf) :
    (pull (wantsLine maxline) [] stream).rest.length < stream.length := by
  obtain ⟨length, read⟩ := lineAnswer_ok line
  rcases length_pull (wantsLine maxline) [] stream with count | ⟨e, failed⟩
  · rw [List.length_nil] at count
    omega
  · exact absurd failed (read e)

/-- What the headers come to: a response at once, or none where they end with an empty line. -/
def requesthdrs (stream : List (Item UInt8 Nat)) : Option Response :=
  match _line : lineAnswer (pull (wantsLine maxline) [] stream) with
  | .error _ _ => some .closed
  | .ok 0 _ => some .closed
  | .ok (_ + 1) buf =>
      if cString buf = ['\r', '\n'] then none
      else if isHeader (cString buf) then requesthdrs (pull (wantsLine maxline) [] stream).rest
      else some (.refusal "400".toList "Bad Request".toList "Tiny could not parse request headers".toList)
termination_by stream.length
decreasing_by exact line_shorter ‹_›

theorem requesthdrs_closed
    (line : (∃ errno, lineAnswer (pull (wantsLine maxline) [] stream) = .error errno buf) ∨
      lineAnswer (pull (wantsLine maxline) [] stream) = .ok 0 buf) : requesthdrs stream = some .closed := by
  unfold requesthdrs
  split
  · rfl
  · rfl
  · next here =>
    rcases line with ⟨errno, failed⟩ | ended
    · rw [failed] at here
      cases here
    · rw [ended] at here
      injection here with zero
      omega

theorem requesthdrs_line (line : lineAnswer (pull (wantsLine maxline) [] stream) = .ok (n + 1) buf) :
    requesthdrs stream =
      if cString buf = ['\r', '\n'] then none
      else if isHeader (cString buf) then requesthdrs (pull (wantsLine maxline) [] stream).rest
      else some (.refusal "400".toList "Bad Request".toList "Tiny could not parse request headers".toList) := by
  conv_lhs => unfold requesthdrs
  split
  · next here =>
    rw [line] at here
    cases here
  · next here =>
    rw [line] at here
    injection here with zero
    omega
  · next here =>
    rw [line] at here
    injection here with _ same
    rw [same]

/-- The response to a request for `uri`. -/
def page (host : Host) (uri : List Char) : Response :=
  match parseUri uri with
  | .error => .refusal "400".toList "Bad Request".toList "Tiny could not parse the request URI".toList
  | .static filename =>
      match host.stat filename with
      | none => .refusal "404".toList "Not found".toList "Tiny couldn't find this file".toList
      | some sbuf =>
          if !sbuf.regular || !sbuf.readable then .refusal "403".toList "Forbidden".toList "Tiny couldn't read the file".toList
          else .file filename sbuf
  | .dynamic filename cgiargs =>
      match host.stat filename with
      | none => .refusal "404".toList "Not found".toList "Tiny couldn't find this file".toList
      | some sbuf =>
          if !sbuf.regular || !sbuf.executable then
            .refusal "403".toList "Forbidden".toList "Tiny couldn't run the CGI program".toList
          else .program filename cgiargs

def respond (host : Host) (stream : List (Item UInt8 Nat)) : Response :=
  let line := pull (wantsLine maxline) [] stream
  match lineAnswer line with
  | .error _ _ => .closed
  | .ok 0 _ => .closed
  | .ok (_ + 1) buf =>
      match scanRequestLine (cString buf) with
      | none => .refusal "400".toList "Bad Request".toList "Tiny received a malformed request".toList
      | some (method, uri, version) =>
          if version ≠ '0' ∧ version ≠ '1' then
            .refusal "400".toList "Bad Request".toList "Tiny received a malformed request".toList
          else if method ≠ "GET".toList then
            .refusal "501".toList "Not Implemented".toList "Tiny does not implement this method".toList
          else (requesthdrs line.rest).getD (page host uri)

/-! ## Serving it -/

theorem of_not_refused {regular permitted : Bool} (plain : ¬ (!regular || !permitted) = true) :
    regular = true ∧ permitted = true := by
  rwa [Bool.not_eq_true, Bool.or_eq_false_iff, Bool.not_eq_false', Bool.not_eq_false'] at plain

theorem page_allowed (host : Host) (uri : List Char) : (page host uri).Allowed host := by
  unfold page
  split
  · exact .refusal (by simp [refusals])
  · next filename parsed =>
    obtain ⟨below, last⟩ := parseUri_static parsed
    split
    · exact .refusal (by simp [refusals])
    · next sbuf found =>
      split
      · exact .refusal (by simp [refusals])
      · next plain =>
        obtain ⟨regular, readable⟩ := of_not_refused plain
        refine .file found regular readable below fun parent => ?_
        rw [host.parents filename sbuf found (last parent)] at regular
        cases regular
  · next filename cgiargs parsed =>
    split
    · exact .refusal (by simp [refusals])
    · next sbuf found =>
      split
      · exact .refusal (by simp [refusals])
      · next plain =>
        obtain ⟨regular, executable⟩ := of_not_refused plain
        exact .program found regular executable (parseUri_dynamic parsed)

/-- A handler that answers with a response: a program runs once all of it is sent. -/
structure Answers (host : Host) (client : Peer) (response : Response)
    (result : Option (Peer × Option (List Char × List Char))) : Prop where
  sent : ∀ client' program, result = some (client', program) → ∃ part, client'.accepted = client.accepted ++ part ∧
    part <+: response.bytes host ∧ (program = none ∨ program = response.runs host ∧ part = response.bytes host)
  returns : client.Accepts (response.bytes host).length →
    ∃ client', result = some (client', response.runs host) ∧ client'.accepted = client.accepted ++ response.bytes host

/-- What is only sent. -/
theorem Sends.answers {result : Option Peer} (sends : Sends client (response.bytes host) result)
    (quiet : response.runs host = none) : Answers host client response (result.map fun client => (client, none)) where
  sent client' program done := by
    obtain ⟨next, here, same⟩ := Option.map_eq_some_iff.mp done
    obtain ⟨rfl, rfl⟩ := Prod.mk.inj same
    obtain ⟨part, accepted, isPrefix⟩ := sends.sent next here
    exact ⟨part, accepted, isPrefix, Or.inl rfl⟩
  returns accepts := by
    obtain ⟨client', done, -, accepted⟩ := sends.returns 0 accepts
    exact ⟨client', by rw [done, quiet, Option.map_some], accepted⟩

theorem dynamicHeader_fits : dynamicHeader.length < maxline := by decide

theorem serveDynamic_answers (host : Host) (filename cgiargs : List Char) (client : Peer) :
    Answers host client (.program filename cgiargs) (serveDynamic host filename cgiargs client) := by
  rw [serveDynamic, if_neg (Nat.not_le.mpr dynamicHeader_fits)]
  refine ⟨fun client' program done => ?_, fun accepts => ?_⟩
  · obtain ⟨⟨ret, next⟩, wrote, goesOn⟩ := Option.bind_eq_some_iff.mp done
    obtain ⟨part, accepted, isPrefix, result⟩ := Peer.rioWriten_spec wrote
    dsimp only at goesOn
    split at goesOn
    · obtain ⟨rfl, rfl⟩ := Prod.mk.inj (Option.some.inj goesOn)
      exact ⟨part, accepted, isPrefix.trans (List.prefix_append ..), Or.inl rfl⟩
    · next complete =>
      obtain ⟨-, rfl⟩ | ⟨failed, -⟩ := result
      · rw [Response.bytes, Response.runs]
        cases forks : host.forks with
        | false =>
            obtain ⟨rfl, rfl⟩ := Prod.mk.inj (Option.some.inj (by simpa [forks] using goesOn))
            exact ⟨_, accepted, List.prefix_append .., Or.inl rfl⟩
        | true =>
            cases execs : host.execs filename with
            | true =>
                obtain ⟨rfl, rfl⟩ := Prod.mk.inj (Option.some.inj (by simpa [forks, execs] using goesOn))
                exact ⟨_, accepted, List.prefix_append .., Or.inr ⟨rfl, (List.append_nil _).symm⟩⟩
            | false =>
                -- the child has added the log
                obtain ⟨rfl, rfl⟩ := Prod.mk.inj (Option.some.inj (by simpa [forks, execs] using goesOn))
                refine ⟨toBytes dynamicHeader ++ host.log, ?_, List.prefix_rfl, Or.inl rfl⟩
                rw [childExit, accepted, List.append_assoc]
      · omega
  · rw [Response.bytes, List.length_append] at accepts
    obtain ⟨next, wrote, -, accepted⟩ := Peer.rioWriten_returns accepts
    rw [wrote, Option.bind_eq_bind, Option.bind_some, Response.bytes, Response.runs]
    dsimp only
    rw [if_neg (by omega)]
    cases forks : host.forks with
    | false => exact ⟨next, rfl, by rw [accepted]; simp⟩
    | true =>
        cases execs : host.execs filename with
        | true => exact ⟨next, rfl, by rw [accepted]; simp⟩
        | false => exact ⟨childExit host next, rfl, by rw [childExit, accepted, List.append_assoc]; rfl⟩

theorem refuse_answers {errnum shortmsg longmsg : List Char} (listed : (errnum, shortmsg, longmsg) ∈ refusals)
    (host : Host) (client : Peer) :
    Answers host client (.refusal errnum shortmsg longmsg) (refuse errnum shortmsg longmsg client) :=
  (clienterror_sends listed client).answers rfl

theorem answer_answers (host : Host) (uri : List Char) (client : Peer) :
    Answers host client (page host uri) (answer host uri client) := by
  unfold page answer
  cases parseUri uri with
  | error => exact refuse_answers (by simp [refusals]) host client
  | static filename =>
      dsimp only
      cases host.stat filename with
      | none => exact refuse_answers (by simp [refusals]) host client
      | some sbuf =>
          dsimp only
          by_cases refused : (!sbuf.regular || !sbuf.readable) = true
          · rw [if_pos refused, if_pos refused]
            exact refuse_answers (by simp [refusals]) host client
          · rw [if_neg refused, if_neg refused]
            exact (serveStatic_sends host filename sbuf client).answers rfl
  | dynamic filename cgiargs =>
      dsimp only
      cases host.stat filename with
      | none => exact refuse_answers (by simp [refusals]) host client
      | some sbuf =>
          dsimp only
          by_cases refused : (!sbuf.regular || !sbuf.executable) = true
          · rw [if_pos refused, if_pos refused]
            exact refuse_answers (by simp [refusals]) host client
          · rw [if_neg refused, if_neg refused]
            exact serveDynamic_answers host filename cgiargs client

/-- What `read_requesthdrs` does: it reads to the end of the headers, or answers and is true. -/
inductive Heads (host : Host) (client : Peer) : Option Response → Option (Bool × Rio × Peer) → Prop where
  | read (rp : Rio) : Heads host client none (some (false, rp, client))
  | answered {response : Response} {result : Option Peer} (rp : Rio) (quiet : response.runs host = none)
      (allowed : response.Allowed host) (sends : Sends client (response.bytes host) result) :
      Heads host client (some response) (result >>= fun client => some (true, rp, client))

theorem readRequesthdrs_heads (host : Host) (valid : rp.Valid) (enough : rp.items.length < fuel) (client : Peer) :
    Heads host client (requesthdrs rp.items) (readRequesthdrs fuel rp client) := by
  induction fuel generalizing rp with
  | zero => exact absurd enough (Nat.not_lt_zero _)
  | succ fuel ih =>
      obtain ⟨rp', done, valid', rest⟩ := Rio.rioReadlineb_pull valid maxline
      unfold readRequesthdrs
      rw [done, Option.bind_eq_bind, Option.bind_some]
      dsimp only
      cases line : lineAnswer (pull (wantsLine maxline) [] rp.items) with
      | error errno buf =>
          rw [requesthdrs_closed (Or.inl ⟨errno, line⟩)]
          exact .answered rp' rfl .closed Sends.nothing
      | ok rc buf =>
          cases rc with
          | zero =>
              rw [requesthdrs_closed (Or.inr line)]
              exact .answered rp' rfl .closed Sends.nothing
          | succ n =>
              rw [requesthdrs_line line]
              dsimp only
              have shorter := line_shorter line
              split
              · exact .read rp'
              · split
                · rw [← rest]
                  rw [← rest] at shorter
                  exact ih valid' (by omega)
                · have listed : ("400".toList, "Bad Request".toList, "Tiny could not parse request headers".toList) ∈
                      refusals := by simp [refusals]
                  exact .answered rp' rfl (.refusal listed) (clienterror_sends listed client)

/-- What `serve` does after the request line. -/
theorem Heads.answers {heads : Option Response} {result : Option (Bool × Rio × Peer)} (read : Heads host client heads result)
    (uri : List Char) :
    (heads.getD (page host uri)).Allowed host ∧ Answers host client (heads.getD (page host uri))
      (result >>= fun (failed, _, client) => if failed then some (client, none) else answer host uri client) := by
  cases read with
  | read rp => exact ⟨page_allowed host uri, answer_answers host uri client⟩
  | @answered response result rp quiet allowed sends =>
      refine ⟨allowed, ?_⟩
      have answers := sends.answers quiet
      cases result with
      | none => exact answers
      | some client' => exact answers

theorem serve_answers (host : Host) (valid : rp.Valid) (enough : rp.items.length < fuel) (client : Peer) :
    (respond host rp.items).Allowed host ∧ Answers host client (respond host rp.items) (serve host fuel rp client) := by
  obtain ⟨rp', done, valid', rest⟩ := Rio.rioReadlineb_pull valid maxline
  unfold serve respond
  rw [done, Option.bind_eq_bind, Option.bind_some]
  dsimp only
  have sendsNothing : Sends client (Response.bytes host .closed) (some client) := Sends.nothing
  have nothing : Answers host client .closed (some (client, none)) := sendsNothing.answers rfl
  have malformed : ("400".toList, "Bad Request".toList, "Tiny received a malformed request".toList) ∈ refusals := by
    simp [refusals]
  have notGet : ("501".toList, "Not Implemented".toList, "Tiny does not implement this method".toList) ∈ refusals := by
    simp [refusals]
  cases line : lineAnswer (pull (wantsLine maxline) [] rp.items) with
  | error errno buf => exact ⟨.closed, nothing⟩
  | ok rc buf =>
      cases rc with
      | zero => exact ⟨.closed, nothing⟩
      | succ n =>
          dsimp only
          have shorter := line_shorter line
          cases scanRequestLine (cString buf) with
          | none => exact ⟨.refusal malformed, refuse_answers malformed host client⟩
          | some scanned =>
              obtain ⟨method, uri, version⟩ := scanned
              dsimp only
              by_cases unknown : version ≠ '0' ∧ version ≠ '1'
              · rw [if_pos unknown, if_pos unknown]
                exact ⟨.refusal malformed, refuse_answers malformed host client⟩
              · rw [if_neg unknown, if_neg unknown]
                by_cases get : method ≠ "GET".toList
                · rw [if_pos get, if_pos get]
                  exact ⟨.refusal notGet, refuse_answers notGet host client⟩
                · rw [if_neg get, if_neg get, ← rest]
                  rw [← rest] at shorter
                  exact (readRequesthdrs_heads host valid' (by omega) client).answers uri

/-- **Every request has its response**: whatever a client sends, and however the kernel delivers it,
`serve` sends the response to it, or a beginning where the client stops accepting; a program runs
only after all of it, and `serve` then waits for its end.  No file is sent from outside the directory
of the server. -/
theorem serve_responds (host : Host) (rioBuf : List UInt8) (fd : List Delivery) (client : Peer)
    (enough : (items fd).length < fuel) :
    (respond host (items fd)).Allowed host ∧
      Answers host client (respond host (items fd)) (serve host fuel (Rio.rioReadinitb rioBuf fd) client) := by
  have same : (Rio.rioReadinitb rioBuf fd).items = items fd := Rio.rioReadinitb_items
  have valid : (Rio.rioReadinitb rioBuf fd).Valid := Rio.rioReadinitb_valid
  rw [← same] at enough
  have answers := serve_answers host valid enough client
  rwa [same] at answers

/-- A host with one file, of five bytes. -/
def oneFile : Host where
  stat path := if path = "./a.txt".toList then some ⟨true, true, false, [104, 101, 108, 108, 111]⟩ else none
  parents path file found parent := by
    split at found
    · next here =>
      subst here
      exact absurd parent (by decide)
    · cases found
  opens _ := true
  maps _ := true
  forks := true
  execs _ := false
  log := toBytes "Response headers:\n".toList

/-- `GET /a.txt HTTP/1.0`, in two deliveries with an interruption between them. -/
def getFile : List Delivery :=
  [.bytes 71 (toBytes "ET /a.".toList), .error eintr, .bytes 116 (toBytes "xt HTTP/1.0\r\n\r\n".toList)]

theorem serve_responds_getFile :
    (respond oneFile (items getFile)).Allowed oneFile ∧
      Answers oneFile ⟨[], [.upTo 4096, .upTo 3, .error 32], 0⟩ (respond oneFile (items getFile))
        (serve oneFile 30 (Rio.rioReadinitb [] getFile) ⟨[], [.upTo 4096, .upTo 3, .error 32], 0⟩) :=
  serve_responds oneFile [] getFile _ (by decide)

end SystemsLabs.Tiny
