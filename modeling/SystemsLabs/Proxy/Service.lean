/-
# SystemsLabs.Proxy.Service -- a call of `proxy`, from the request line to the last `close`

`proxy` parses the request line, refuses other methods than GET, and then answers from the
cache or from the server.  A call is the system calls that it makes, in order, and how it ends
(`Ending`); the branches for an object that was not found and for one that was are `miss` and
`hit`.

Nothing leaves `proxy` after `clienterror`, so a refused request is served all the same
(`proxy_answers`).  And `sendRequest` does not close the connection when it reports failure
after opening it, nor does `proxy` close the client's when the request line does not parse
(`proxy_closes`).
-/
import SystemsLabs.Proxy.Request
import SystemsLabs.Proxy.ReplaceTail

namespace SystemsLabs.Proxy

set_option autoImplicit false

/-- How `proxy` ends: with the cache it leaves, in `exit`, or at a pointer that leads nowhere. -/
inductive Ending where
  | returned (c : Cache)
  | exited (status : Nat)
  | crashed

/-! ## `clienterror` -/

/-- What `clienterror` writes, call by call. -/
def errorPage (cause errnum shortmsg longmsg : Bytes) : List Bytes :=
  [ascii "HTTP/1.0 " ++ errnum ++ ascii " " ++ shortmsg ++ crlf,
    ascii "Content-type: text/html\r\n",
    ascii "Content-Length: " ++ ascii (toString cause.length) ++ ascii "\r\n\r\n",
    ascii "<html><title>Tiny Error</title>",
    ascii "<body bgcolor=ffffff>\r\n",
    errnum ++ ascii ": " ++ shortmsg ++ crlf,
    ascii "<p>" ++ longmsg ++ ascii ": " ++ cause ++ crlf,
    ascii "<hr><em>The Tiny Web server</em>\r\n"]

def clienterror (fd : Int) (cause errnum shortmsg longmsg : Bytes) : List Event :=
  (errorPage cause errnum shortmsg longmsg).map (.write fd)

/-- The error for a method that is not GET. -/
def notImplemented : List Bytes :=
  errorPage (ascii "not_implemented") (ascii "501") (ascii "Not Implemented") []

/-! ## `proxy` -/

/-- The cache knows a URI as a string. -/
def uriKey (uri : Bytes) : String := String.ofList (uri.map fun ch => Char.ofNat ch.toNat)

/-- The calls of `forward`, up to the chunk that the client does not take. -/
def forwardEvents (clientfd serverfd : Int) : List Exchange → List Event
  | [] => [.read serverfd]
  | e :: es =>
      .read serverfd :: .write clientfd e.chunk ::
        if e.written = .failed 32 then [] else forwardEvents clientfd serverfd es

/-- The branch of `proxy` for an object that is in the cache. -/
def hit (clientfd : Int) (c : Cache) (tmp2 : Nat) : List Event × Ending :=
  match c.objs.lookup tmp2 with
  | none => ([], .crashed)
  | some o =>
      match c.replaceTail tmp2 with
      | none => ([.write clientfd (o.value.take o.len)], .crashed)
      | some c' => ([.write clientfd (o.value.take o.len), .close clientfd], .returned c')

namespace Parser

variable {σ : Type} (lib : Parser σ)

/-- `*tmp1`, which is `" "` before the first `parser_retrieve`. -/
def reqMethod (parse : σ) : Bytes := (lib.retrieve parse .method).getD (ascii " ")

/-- `*val`, which is `" "` before the first `parser_retrieve`. -/
def reqHost (parse : σ) : Bytes := (lib.retrieve parse .host).getD (ascii " ")

/-- `val` keeps its content where `parser_retrieve` fails. -/
def reqPort (parse : σ) : Bytes := (lib.retrieve parse .port).getD (lib.reqHost parse)

def reqUri (parse : σ) : Bytes := (lib.retrieve parse .uri).getD (lib.reqPort parse)

/-- The branch of `proxy` for an object that is not in the cache. -/
def miss (peers : Peers) (clientfd : Int) (c : Cache) (parse : σ) : List Event × Ending :=
  match lib.sendRequest peers parse (lib.reqHost parse) (lib.reqPort parse) (lib.reqUri parse) with
  | (events, .exited status) => (events, .exited status)
  | (events, .returned serverfd) =>
      if serverfd > 0 then
        let events := events ++ forwardEvents clientfd serverfd peers.exchanges
        match forward c peers.exchanges peers.serverEnd (uriKey (lib.reqUri parse)) peers.webObj with
        | none => (events, .crashed)
        | some c' => (events ++ [.close serverfd, .close clientfd], .returned c')
      else (events ++ [.close serverfd, .close clientfd], .returned c)

/-- `clienterror` for other methods, and nothing for GET. -/
def refusal (clientfd : Int) (parse : σ) : List Event :=
  if lib.reqMethod parse ≠ ascii "GET" then
    clienterror clientfd (ascii "not_implemented") (ascii "501") (ascii "Not Implemented") []
  else []

/-- The rest of `proxy` after the method was checked. -/
def answer (peers : Peers) (clientfd : Int) (c : Cache) (parse : σ) : List Event × Ending :=
  match c.cacheFind (uriKey (lib.reqUri parse)) with
  | none => ([], .crashed)
  | some 0 => lib.miss peers clientfd c parse
  | some tmp2 => hit clientfd c tmp2

def proxy (peers : Peers) (clientfd : Int) (c : Cache) : List Event × Ending :=
  match lib.parseLine lib.new (cString peers.request) with
  | (parse, .request) =>
      let (events, ending) := lib.answer peers clientfd c parse
      (lib.refusal clientfd parse ++ events, ending)
  | (_, _) => ([], .returned c)

end Parser

/-! ## What `sendRequest` returns -/

/-- How the client's lines end the loop of `sendRequest`. -/
inductive HeadersEnd where
  | blank
  | request
  /-- the lines end before either -/
  | missing
deriving DecidableEq, Repr

namespace Parser

variable {σ : Type} (lib : Parser σ)

def headersEnd : σ → List Read → HeadersEnd
  | _, [] => .missing
  | parse, r :: rest =>
      if r.line.length = 0 then .missing
      else
        let (parse, state) := lib.parseLine parse (cString r.line)
        match state with
        | .error => headersEnd parse rest
        | .request => .request
        | .header =>
            let (hdrs, parse) := lib.nextHeaders parse
            if hdrs.length = 0 then .blank else headersEnd parse rest

/-- The request is sent to its end. -/
def Sends (peers : Peers) (parse : σ) : Prop :=
  peers.userAgentWritten ≠ .failed epipe ∧ lib.headersEnd parse peers.reads = .blank

/-- The client's second request line ends the process. -/
def Exits (peers : Peers) (parse : σ) : Prop :=
  (0 ≤ peers.connect.ret ∨ peers.connect.errno = econnrefused) ∧
    peers.userAgentWritten ≠ .failed epipe ∧ lib.headersEnd parse peers.reads = .request

theorem writeHeaders_writes (serverfd : Int) (bytesRead : Nat) (hdrStr : Bytes) (hdrs : List Header) :
    ∃ ws : List Bytes, writeHeaders serverfd bytesRead hdrStr hdrs = ws.map (.write serverfd) := by
  induction hdrs generalizing hdrStr with
  | nil => exact ⟨[], rfl⟩
  | cons hdr rest ih =>
      unfold writeHeaders
      split_ifs
      · exact ih hdrStr
      · exact ih hdrStr
      · exact ih hdrStr
      · obtain ⟨ws, eq⟩ := ih (sprintf hdrStr hdr.text)
        exact ⟨(sprintf hdrStr hdr.text).take bytesRead :: ws, by rw [List.map_cons, ← eq]⟩

theorem sendHeaders_spec (serverfd : Int) (parse : σ) (reads : List Read) :
    ∃ ws : List Bytes, lib.sendHeaders serverfd parse reads = (ws.map (.write serverfd),
      match lib.headersEnd parse reads with
      | .blank => .returned serverfd
      | .request => .exited 67
      | .missing => .returned (-1)) := by
  induction reads generalizing parse with
  | nil => exact ⟨[], rfl⟩
  | cons r rest ih =>
      unfold sendHeaders headersEnd
      by_cases empty : r.line.length = 0
      · exact ⟨[], by rw [if_pos empty, if_pos empty]; rfl⟩
      rcases line : lib.parseLine parse (cString r.line) with ⟨parsed, state⟩
      simp only [if_neg empty]
      cases state with
      | request => exact ⟨[], rfl⟩
      | error => exact ih parsed
      | header =>
          obtain ⟨ws, written⟩ := writeHeaders_writes serverfd r.line.length r.hdrStr (lib.nextHeaders parsed).1
          simp only [written]
          by_cases last : (lib.nextHeaders parsed).1.length = 0
          · exact ⟨ws ++ [crlf], by simp [last]⟩
          · obtain ⟨ws', rest'⟩ := ih (lib.nextHeaders parsed).2
            exact ⟨ws ++ ws', by simp [last, rest']⟩

/-- **What `sendRequest` does**: it tries to connect, writes to the connection, and returns it only
if the request was sent to its end. -/
theorem sendRequest_spec (peers : Peers) (parse : σ) (host port uri : Bytes) : ∃ (ws : List Bytes) (sent : Sent),
    lib.sendRequest peers parse host port uri =
      (.connect host port peers.connect.ret :: ws.map (.write peers.connect.ret), sent) ∧
    (sent = .exited 67 ∧ lib.Exits peers parse ∨
      sent = .returned peers.connect.ret ∧ ¬ lib.Exits peers parse ∧ lib.Sends peers parse ∨
      sent = .returned (-1) ∧ ¬ lib.Exits peers parse ∧
        (0 ≤ peers.connect.ret → ¬ lib.Sends peers parse)) := by
  unfold sendRequest
  by_cases failed : peers.connect.ret < 0 ∧ peers.connect.errno ≠ econnrefused
  · refine ⟨[], _, by rw [if_pos failed]; rfl, Or.inr (Or.inr ⟨rfl, fun exits => ?_, fun opened => ?_⟩)⟩
    · exact exits.1.elim failed.1.not_ge failed.2
    · exact absurd opened failed.1.not_ge
  have connected : 0 ≤ peers.connect.ret ∨ peers.connect.errno = econnrefused := by
    rcases not_and_or.mp failed with opened | refused
    · exact Or.inl (not_lt.mp opened)
    · exact Or.inr (not_not.mp refused)
  simp only [if_neg failed]
  by_cases broken : peers.userAgentWritten = .failed epipe
  · exact ⟨[requestLine uri, userAgentHdr], _, by rw [if_pos broken]; rfl,
      Or.inr (Or.inr ⟨rfl, fun exits => exits.2.1 broken, fun _ sends => sends.1 broken⟩)⟩
  obtain ⟨ws, headers⟩ := lib.sendHeaders_spec peers.connect.ret parse peers.reads
  refine ⟨[requestLine uri, userAgentHdr, connectionHdr, proxyConnectionHdr] ++ ws, _,
    by rw [if_neg broken, headers]; rfl, ?_⟩
  rw [Sends, Exits]
  cases lib.headersEnd parse peers.reads with
  | blank => exact Or.inr (Or.inl ⟨rfl, by simp, broken, rfl⟩)
  | request => exact Or.inl ⟨rfl, connected, broken, rfl⟩
  | missing => exact Or.inr (Or.inr ⟨rfl, by simp, by simp⟩)

end Parser

/-! ## The descriptors that are closed -/

section Events

variable {clientfd serverfd fd fd' : Int} {events : List Event} {ws : List Bytes} {es : List Exchange}

@[simp] theorem count_close_writes : (ws.map (Event.write fd)).count (.close fd') = 0 := by
  simp [List.count_eq_zero]

@[simp] theorem count_close_forwardEvents : (forwardEvents clientfd serverfd es).count (.close fd) = 0 := by
  induction es with
  | nil => rfl
  | cons e es ih =>
      unfold forwardEvents
      split_ifs <;> simp [ih]

@[simp] theorem connect_mem_forwardEvents {host port : Bytes} :
    Event.connect host port fd ∉ forwardEvents clientfd serverfd es := by
  induction es with
  | nil => simp [forwardEvents]
  | cons e es ih =>
      unfold forwardEvents
      split_ifs <;> simp [ih]

theorem read_mem_forwardEvents : .read serverfd ∈ forwardEvents clientfd serverfd es := by
  cases es <;> exact List.mem_cons_self ..

theorem writesTo_writes : writesTo fd (ws.map (.write fd')) = if fd' = fd then ws else [] := by
  induction ws with
  | nil => simp [writesTo]
  | cons w ws ih =>
      rw [List.map_cons]
      unfold writesTo at ih ⊢
      split_ifs at ih ⊢ <;> simp_all

theorem writesTo_connect (host port : Bytes) :
    writesTo fd (.connect host port fd' :: events) = writesTo fd events := rfl

theorem writesTo_closes (closes : List Int) : writesTo fd (closes.map .close) = [] := by
  induction closes with
  | nil => rfl
  | cons fd closes ih => exact ih

/-- The client gets the chunks that were received. -/
theorem writesTo_forwardEvents :
    (writesTo clientfd (forwardEvents clientfd serverfd es)).flatten = received es := by
  induction es with
  | nil => rfl
  | cons e es ih =>
      unfold forwardEvents received
      split_ifs
      · simp [writesTo]
      · rw [← ih]
        simp [writesTo]

end Events

/-- The client's descriptor is closed exactly once, and so is every connection that was opened. -/
def ClosesAll (clientfd : Int) (events : List Event) : Prop :=
  events.count (.close clientfd) = 1 ∧ ∀ host port fd, .connect host port fd ∈ events → 0 ≤ fd →
    events.count (.close fd) = 1

section Service

variable {σ : Type} {lib : Parser σ} {peers : Peers} {parse : σ} {clientfd : Int} {c c' : Cache}
  {q : List Node} {events : List Event} {ending : Ending} {obj : Nat}

theorem refusal_writes (lib : Parser σ) (clientfd : Int) (parse : σ) :
    ∃ ws : List Bytes, lib.refusal clientfd parse = ws.map (.write clientfd) := by
  unfold Parser.refusal
  split
  · exact ⟨_, rfl⟩
  · exact ⟨[], rfl⟩

theorem proxy_eq (parses : lib.parseLine lib.new (cString peers.request) = (parse, .request)) :
    lib.proxy peers clientfd c =
      (lib.refusal clientfd parse ++ (lib.answer peers clientfd c parse).1,
        (lib.answer peers clientfd c parse).2) := by
  rw [Parser.proxy, parses]

/-- A hit that returns closes the client's descriptor and opens nothing. -/
theorem hit_closes (returned : (hit clientfd c obj).2 = .returned c') :
    ∃ bytes, (hit clientfd c obj).1 = [.write clientfd bytes, .close clientfd] := by
  unfold hit at returned ⊢
  cases found : c.objs.lookup obj with
  | none =>
      rw [found] at returned
      cases returned
  | some o =>
      rw [found] at returned
      cases moved : c.replaceTail obj with
      | none =>
          simp only [moved] at returned
          cases returned
      | some c' => exact ⟨_, rfl⟩

/-- Two calls of `close` at the end are enough if the first is for the connection. -/
theorem closesAll_pair {fd ret : Int} {host port : Bytes} {mid : List Event} (ws : List Bytes)
    (other : fd ≠ clientfd) (apart : ret ≠ clientfd) (closes : ∀ fd, mid.count (.close fd) = 0)
    (connects : ∀ host port fd, .connect host port fd ∉ mid) :
    ClosesAll clientfd (ws.map (.write clientfd) ++
        (Event.connect host port ret :: mid ++ [.close fd, .close clientfd])) ↔ ret < 0 ∨ fd = ret := by
  generalize all : ws.map (Event.write clientfd) ++
    (.connect host port ret :: mid ++ [.close fd, .close clientfd]) = events
  have count : ∀ fd', events.count (.close fd') =
      (if fd = fd' then 1 else 0) + if clientfd = fd' then 1 else 0 := by
    intro fd'
    simp [← all, List.count_cons, closes, Nat.add_comm]
  have connect : ∀ host' port' fd', .connect host' port' fd' ∈ events ↔
      host' = host ∧ port' = port ∧ fd' = ret := by
    simp [← all, connects]
  unfold ClosesAll
  rw [count, if_neg other, if_pos rfl]
  refine (and_iff_right rfl).trans ⟨fun closed => ?_, fun either host' port' fd' member opened => ?_⟩
  · by_contra neither
    obtain ⟨opened, differs⟩ := not_or.mp neither
    have once := closed host port ret ((connect ..).mpr ⟨rfl, rfl, rfl⟩) (not_lt.mp opened)
    rw [count, if_neg differs, if_neg apart.symm] at once
    cases once
  · obtain ⟨-, -, rfl⟩ := (connect ..).mp member
    rw [count, if_neg apart.symm, if_pos (either.resolve_left opened.not_gt)]

/-- **What a miss does**: it tries to connect, writes the request, forwards the response if the
request was sent to its end, and then closes what `sendRequest` returned. -/
theorem miss_spec (lib : Parser σ) (peers : Peers) (clientfd : Int) (c : Cache) (parse : σ) :
    ∃ (host port : Bytes) (ws : List Bytes) (mid : List Event) (closes : List Int),
      (lib.miss peers clientfd c parse).1 = .connect host port peers.connect.ret ::
        ws.map (.write peers.connect.ret) ++ mid ++ closes.map .close ∧
      ((0 < peers.connect.ret ∧ lib.Sends peers parse) ∧
          mid = forwardEvents clientfd peers.connect.ret peers.exchanges ∨
        ¬ (0 < peers.connect.ret ∧ lib.Sends peers parse) ∧ mid = [] ∧
          (lib.Exits peers parse ∧ (lib.miss peers clientfd c parse).2 = .exited 67 ∨
            ¬ lib.Exits peers parse ∧ (lib.miss peers clientfd c parse).2 = .returned c)) ∧
      ∀ c', (lib.miss peers clientfd c parse).2 = .returned c' → ∃ fd, closes = [fd, clientfd] ∧
        (fd = peers.connect.ret ∧ lib.Sends peers parse ∨
          fd = -1 ∧ (0 ≤ peers.connect.ret → ¬ lib.Sends peers parse)) := by
  obtain ⟨ws, result, send, cases⟩ := lib.sendRequest_spec peers parse (lib.reqHost parse)
    (lib.reqPort parse) (lib.reqUri parse)
  unfold Parser.miss
  rw [send]
  refine ⟨lib.reqHost parse, lib.reqPort parse, ws, ?_⟩
  rcases cases with ⟨rfl, exits⟩ | ⟨rfl, stays, sends⟩ | ⟨rfl, stays, unsent⟩
  · refine ⟨[], [], by simp, Or.inr ⟨fun sent => ?_, rfl, Or.inl ⟨exits, rfl⟩⟩, nofun⟩
    cases sent.2.2.symm.trans exits.2.2
  · by_cases opened : peers.connect.ret > 0
    · refine ⟨forwardEvents clientfd peers.connect.ret peers.exchanges, ?_⟩
      simp only [if_pos opened]
      cases forward c peers.exchanges peers.serverEnd (uriKey (lib.reqUri parse)) peers.webObj with
      | none => exact ⟨[], by simp, Or.inl ⟨⟨opened, sends⟩, trivial⟩, nofun⟩
      | some c' =>
          exact ⟨[peers.connect.ret, clientfd], rfl, Or.inl ⟨⟨opened, sends⟩, trivial⟩,
            fun _ _ => ⟨_, rfl, Or.inl ⟨rfl, sends⟩⟩⟩
    · simp only [if_neg opened]
      exact ⟨[], [peers.connect.ret, clientfd], by simp,
        Or.inr ⟨fun sent => opened sent.1, rfl, Or.inr ⟨stays, trivial⟩⟩,
        fun _ _ => ⟨_, rfl, Or.inl ⟨rfl, sends⟩⟩⟩
  · simp only [show ¬ ((-1 : Int) > 0) by decide, if_false]
    exact ⟨[], [-1, clientfd], by simp, Or.inr ⟨fun sent => unsent sent.1.le sent.2, rfl, Or.inr ⟨stays, trivial⟩⟩,
      fun _ _ => ⟨_, rfl, Or.inr ⟨rfl, unsent⟩⟩⟩

/-- A miss that returns closes the client's descriptor, and the connection if `sendRequest`
returned it. -/
theorem miss_closes (client : 0 ≤ clientfd) (apart : peers.connect.ret ≠ clientfd)
    (returned : (lib.miss peers clientfd c parse).2 = .returned c') (ws : List Bytes) :
    ClosesAll clientfd (ws.map (.write clientfd) ++ (lib.miss peers clientfd c parse).1) ↔
      peers.connect.ret < 0 ∨ lib.Sends peers parse := by
  obtain ⟨host, port, sent, mid, closes, events, forwards, closing⟩ := miss_spec lib peers clientfd c parse
  obtain ⟨fd, rfl, which⟩ := closing c' returned
  have other : fd ≠ clientfd := by
    obtain ⟨rfl, -⟩ | ⟨rfl, -⟩ := which
    · exact apart
    · omega
  have quiet : (∀ fd, (sent.map (Event.write peers.connect.ret) ++ mid).count (.close fd) = 0) ∧
      ∀ host port fd, Event.connect host port fd ∉ sent.map (Event.write peers.connect.ret) ++ mid := by
    obtain ⟨-, rfl⟩ | ⟨-, rfl, -⟩ := forwards <;> simp
  rw [events]
  refine (closesAll_pair ws other apart quiet.1 quiet.2).trans ?_
  obtain ⟨rfl, sends⟩ | ⟨rfl, unsent⟩ := which
  · exact iff_of_true (Or.inr rfl) (Or.inr sends)
  · constructor
    · intro closed
      exact Or.inl (by omega)
    · rintro (failed | sends)
      · exact Or.inl failed
      · exact Or.inl (not_le.mp fun opened => unsent opened sends)

/-- **Every descriptor is closed once** when `proxy` returns, if the request line parsed, and the
object was cached, or the connection could not be opened, or the request was sent to its end. -/
theorem proxy_closes (client : 0 ≤ clientfd) (apart : peers.connect.ret ≠ clientfd)
    (returned : (lib.proxy peers clientfd c).2 = .returned c') :
    ClosesAll clientfd (lib.proxy peers clientfd c).1 ↔
      ∃ parse, lib.parseLine lib.new (cString peers.request) = (parse, .request) ∧
        (c.cacheFind (uriKey (lib.reqUri parse)) ≠ some 0 ∨ peers.connect.ret < 0 ∨
          lib.Sends peers parse) := by
  rcases parses : lib.parseLine lib.new (cString peers.request) with ⟨parse, state⟩
  by_cases request : state = .request
  · subst request
    obtain ⟨ws, refused⟩ := refusal_writes lib clientfd parse
    rw [proxy_eq parses] at returned ⊢
    rw [refused]
    have only : ∀ p : σ → Prop, (∃ parse', (parse, ParserState.request) = (parse', .request) ∧ p parse') ↔
        p parse := by
      simp
    rw [only]
    unfold Parser.answer at returned ⊢
    cases found : c.cacheFind (uriKey (lib.reqUri parse)) with
    | none =>
        simp only [found] at returned
        cases returned
    | some obj =>
        simp only [found] at returned
        cases obj with
        | zero =>
            rw [or_iff_right (not_not.mpr rfl)]
            exact miss_closes client apart returned ws
        | succ obj =>
            obtain ⟨bytes, events⟩ := hit_closes returned
            refine iff_of_true ?_ (Or.inl (by simp))
            simp [ClosesAll, events]
  · have nothing : lib.proxy peers clientfd c = ([], .returned c) := by
      rw [Parser.proxy, parses]
      cases state <;> first | rfl | exact absurd rfl request
    rw [nothing]
    refine iff_of_false (fun closes => ?_) ?_
    · exact absurd closes.1 (by simp)
    · rintro ⟨parse', eq, -⟩
      exact request (Prod.mk.inj eq).2

theorem proxy_closes_get : ∃ c', (splitter.proxy (calling [crlf]) 4 .empty).2 = .returned c' ∧
    ClosesAll 4 (splitter.proxy (calling [crlf]) 4 .empty).1 := by
  obtain ⟨c', returned⟩ : ∃ c', (splitter.proxy (calling [crlf]) 4 .empty).2 = .returned c' := ⟨_, rfl⟩
  refine ⟨c', returned, (proxy_closes (by decide) (by decide) returned).mpr ?_⟩
  exact ⟨asked, rfl, Or.inr (Or.inr ⟨by decide, by decide +kernel⟩)⟩

/-- A request line that does not parse leaves the client's descriptor open. -/
theorem proxy_closes_counterexample : ¬ ∀ (σ : Type) (lib : Parser σ) (peers : Peers) (clientfd : Int)
    (c c' : Cache), 0 ≤ clientfd → peers.connect.ret ≠ clientfd →
    (lib.proxy peers clientfd c).2 = .returned c' → ClosesAll clientfd (lib.proxy peers clientfd c).1 := by
  intro claim
  have closes := claim Parsed splitter { calling [] with request := crlf } 4 .empty .empty (by decide)
    (by decide) rfl
  exact absurd closes.1 (by decide)

/-! ## What the client gets -/

/-- The client gets the cached value, and no server is read. -/
def FromCache (clientfd : Int) (c : Cache) (key : String) (events : List Event) : Prop :=
  ∃ obj o, obj ≠ 0 ∧ c.cacheFind key = some obj ∧ c.objs.lookup obj = some o ∧
    (writesTo clientfd events).flatten = o.value.take o.len ∧ ∀ fd, .read fd ∉ events

/-- The client gets the response of the server. -/
def FromServer (clientfd : Int) (peers : Peers) (events : List Event) : Prop :=
  (writesTo clientfd events).flatten = received peers.exchanges ∧ .read peers.connect.ret ∈ events

/-- The client gets the error, no connection is opened, and the cache stays. -/
def Refused (clientfd : Int) (c : Cache) (events : List Event) (ending : Ending) : Prop :=
  (writesTo clientfd events).flatten = notImplemented.flatten ∧
    (∀ host port fd, .connect host port fd ∈ events → fd < 0) ∧ ending = .returned c

theorem hit_events (clientfd : Int) (c : Cache) {obj : Nat} {o : CacheObj} (found : c.objs.lookup obj = some o) :
    ∃ closes : List Event, (hit clientfd c obj).1 = .write clientfd (o.value.take o.len) :: closes ∧
      (∀ fd, .read fd ∉ closes) ∧ writesTo clientfd closes = [] := by
  unfold hit
  rw [found]
  cases c.replaceTail obj with
  | none => exact ⟨[], rfl, by simp, rfl⟩
  | some c' => exact ⟨[.close clientfd], rfl, by simp, rfl⟩

/-- A hit does not leave the cache as it was. -/
theorem hit_changes (reaches : c.Reaches q) {x : Node} (member : x ∈ q) :
    (hit clientfd c x.addr).2 ≠ .returned c := by
  intro returned
  obtain ⟨pre, post, rfl⟩ := List.append_of_mem member
  have found := (Cache.lookup_eq_of_node (reaches.live x (by simp))).2
  unfold hit at returned
  rw [found] at returned
  cases moved : c.replaceTail x.addr with
  | none =>
      simp only [moved] at returned
      cases returned
  | some c' =>
      simp only [moved] at returned
      exact reaches.replaceTail_ne moved (Ending.returned.inj returned)

/-- The server is read after the request was sent, and only then. -/
theorem miss_fromServer (apart : peers.connect.ret ≠ clientfd) :
    FromServer clientfd peers (lib.miss peers clientfd c parse).1 ↔
      0 < peers.connect.ret ∧ lib.Sends peers parse := by
  obtain ⟨host, port, ws, mid, closes, events, ⟨sent, rfl⟩ | ⟨unsent, rfl, -⟩, -⟩ :=
    miss_spec lib peers clientfd c parse
  · refine iff_of_true ⟨?_, ?_⟩ sent
    · rw [events, writesTo_append, writesTo_append, writesTo_connect, writesTo_writes, if_neg apart,
        writesTo_closes, List.append_nil, List.nil_append, writesTo_forwardEvents]
    · rw [events]
      exact List.mem_append_left _ (List.mem_append_right _ read_mem_forwardEvents)
  · refine iff_of_false (fun fromServer => ?_) unsent
    have read := fromServer.2
    rw [events] at read
    simp at read

/-- A refused request leaves the cache alone only if the connection fails. -/
theorem miss_refused (apart : peers.connect.ret ≠ clientfd) :
    Refused clientfd c (notImplemented.map (.write clientfd) ++ (lib.miss peers clientfd c parse).1)
        (lib.miss peers clientfd c parse).2 ↔
      peers.connect.ret < 0 ∧ ¬ lib.Exits peers parse := by
  obtain ⟨host, port, ws, mid, closes, events, ⟨sent, rfl⟩ | ⟨-, rfl, ending⟩, -⟩ :=
    miss_spec lib peers clientfd c parse
  · refine iff_of_false (fun refused => ?_) fun failed => (failed.1.trans sent.1).false
    refine (sent.1.trans (refused.2.1 host port _ ?_)).false
    simp [events]
  · have bytes : writesTo clientfd (notImplemented.map (.write clientfd) ++
        (lib.miss peers clientfd c parse).1) = notImplemented := by
      rw [events, List.append_nil, writesTo_append, writesTo_append, writesTo_connect, writesTo_writes,
        writesTo_writes, if_pos rfl, if_neg apart, writesTo_closes, List.append_nil, List.append_nil]
    have connects : (∀ host port fd, Event.connect host port fd ∈
        notImplemented.map (.write clientfd) ++ (lib.miss peers clientfd c parse).1 → fd < 0) ↔
          peers.connect.ret < 0 := by
      constructor
      · intro all
        exact all host port _ (by simp [events])
      · intro failed host' port' fd member
        obtain ⟨-, -, rfl⟩ : host' = host ∧ port' = port ∧ fd = peers.connect.ret := by
          simpa [events] using member
        exact failed
    rw [Refused, bytes, connects, and_iff_right rfl]
    refine and_congr_right fun _ => ?_
    rcases ending with ⟨exits, ended⟩ | ⟨stays, ended⟩
    · exact iff_of_false (fun returned => by cases ended.symm.trans returned) (not_not.mpr exits)
    · exact iff_of_true ended stays

/-- The client gets the error and nothing happens, or the method is GET and the client gets what
is cached or what the server sends. -/
def Answered (lib : Parser σ) (peers : Peers) (clientfd : Int) (c : Cache) (parse : σ) : Prop :=
  (lib.reqMethod parse ≠ ascii "GET" →
      Refused clientfd c (lib.proxy peers clientfd c).1 (lib.proxy peers clientfd c).2) ∧
    (lib.reqMethod parse = ascii "GET" →
      FromCache clientfd c (uriKey (lib.reqUri parse)) (lib.proxy peers clientfd c).1 ∨
        FromServer clientfd peers (lib.proxy peers clientfd c).1)

/-- **A GET is answered from one source** if the object is cached or the request reaches a server.
Another method is refused as it should be only if the object is not cached and the connection
fails. -/
theorem proxy_answers (apart : peers.connect.ret ≠ clientfd) (reaches : c.Reaches q)
    (parses : lib.parseLine lib.new (cString peers.request) = (parse, .request)) :
    Answered lib peers clientfd c parse ↔
      (lib.reqMethod parse ≠ ascii "GET" → c.cacheFind (uriKey (lib.reqUri parse)) = some 0 ∧
        peers.connect.ret < 0 ∧ ¬ lib.Exits peers parse) ∧
      (lib.reqMethod parse = ascii "GET" → c.cacheFind (uriKey (lib.reqUri parse)) ≠ some 0 ∨
        0 < peers.connect.ret ∧ lib.Sends peers parse) := by
  unfold Answered
  rw [proxy_eq parses]
  obtain ⟨obj, found⟩ : ∃ obj, c.cacheFind (uriKey (lib.reqUri parse)) = some obj :=
    ⟨_, reaches.cacheFind _⟩
  have answer : lib.answer peers clientfd c parse =
      if obj = 0 then lib.miss peers clientfd c parse else hit clientfd c obj := by
    unfold Parser.answer
    rw [found]
    cases obj <;> rfl
  rw [answer, found]
  refine and_congr (imp_congr_right fun other => ?_) (imp_congr_right fun get => ?_)
  · have refusal : lib.refusal clientfd parse = notImplemented.map (.write clientfd) := if_pos other
    rw [refusal]
    by_cases missing : obj = 0
    · rw [if_pos missing, missing, miss_refused apart, and_iff_right rfl]
    · obtain ⟨x, member, rfl, -⟩ := reaches.of_cacheFind found missing
      rw [if_neg missing]
      exact iff_of_false (fun refused => hit_changes reaches member refused.2.2)
        fun rest => missing (Option.some.inj rest.1)
  · have refusal : lib.refusal clientfd parse = [] := if_neg (not_not.mpr get)
    rw [refusal, List.nil_append]
    by_cases missing : obj = 0
    · rw [if_pos missing, missing, miss_fromServer apart, or_iff_right (not_not.mpr rfl)]
      refine or_iff_right ?_
      rintro ⟨obj', o, nonnull, search, -⟩
      exact nonnull (Option.some.inj (search.symm.trans (missing ▸ found)))
    · obtain ⟨x, member, rfl, -⟩ := reaches.of_cacheFind found missing
      have live := (Cache.lookup_eq_of_node (reaches.live x member)).2
      obtain ⟨closes, events, reads, writes⟩ := hit_events clientfd c live
      rw [if_neg missing]
      refine iff_of_true (Or.inl ⟨_, _, missing, found, live, ?_, ?_⟩) (Or.inl fun isNull => ?_)
      · rw [events]
        change (writesTo clientfd ([.write clientfd _] ++ closes)).flatten = _
        rw [writesTo_append, writes]
        simp [writesTo]
      · rw [events]
        simpa using reads
      · exact missing (Option.some.inj isNull)

end Service

theorem empty_reaches : Cache.empty.Reaches [] := ⟨rfl, by simp, by decide⟩

theorem proxy_answers_get : Answered splitter (calling [crlf]) 4 .empty asked :=
  (proxy_answers (by decide) empty_reaches (by rfl)).mpr
    ⟨fun other => absurd (by rfl) other, fun _ => Or.inr ⟨by decide, by decide, by decide +kernel⟩⟩

/-- A POST is refused, and then sent to the server. -/
theorem proxy_answers_counterexample : ¬ ∀ (σ : Type) (lib : Parser σ) (peers : Peers) (clientfd : Int)
    (c : Cache) (q : List Node) (parse : σ), peers.connect.ret ≠ clientfd → c.Reaches q →
    lib.parseLine lib.new (cString peers.request) = (parse, .request) →
    Answered lib peers clientfd c parse := by
  intro claim
  have answered := claim Parsed splitter { calling [crlf] with request := ascii "POST http://h/ HTTP/1.0\r\n" } 4
    .empty [] ⟨some (ascii "POST", ascii "http://h/"), []⟩ (by decide) empty_reaches (by rfl)
  have refused := answered.1 (by decide)
  have opened := refused.2.1 (ascii "h") (ascii "80") 5 (by decide +kernel)
  exact absurd opened (by decide)

end SystemsLabs.Proxy
