/-
# SystemsLabs.Proxy.Forward -- which responses are cached

`forward` sends what it reads from the server on to the client and collects it in
`web_obj_buf` as long as it fits.  What the peers do is an argument: the chunks that
`rio_readnb` returns, each with the result of the `rio_writen` that follows it, and how the
reading ends.

The buffer then holds exactly the bytes received, or `fitsInCache` is off (`Buffers`).  But
nothing records why the loop ended, so a response that was cut short by a read error, or
that the client did not want to the end, is cached like a complete one
(`forward_complete`).
-/
import SystemsLabs.Proxy.LruQueue

namespace SystemsLabs.Proxy

open SystemsLabs.Theory.Lru

set_option autoImplicit false

abbrev maxBuf : Nat := 8192

/-- The result of `rio_writen`, with `errno` where it failed, as the loop finds it once the message
about the failure has been printed. -/
inductive WriteResult where
  | ok
  | failed (errno : Nat)
deriving DecidableEq, Repr

/-- A chunk from the server, and what came of sending it to the client. -/
structure Exchange where
  chunk : List UInt8
  written : WriteResult
deriving DecidableEq, Repr

/-- What `rio_readnb` returns after the last chunk. -/
inductive ReadEnd where
  | eof
  | error
deriving DecidableEq, Repr

/-- Why the loop of `forward` ended. -/
inductive Stop where
  | eof
  | error
  | brokenPipe
deriving DecidableEq, Repr

/-- `obj_size`, the bytes of `web_obj_buf` up to it, and `fitsInCache`. -/
structure ObjBuf where
  objSize : Nat
  webObjBuf : List UInt8
  fitsInCache : Bool
deriving DecidableEq, Repr

namespace ObjBuf

def empty : ObjBuf := ⟨0, [], true⟩

def receive (b : ObjBuf) (chunk : List UInt8) : ObjBuf :=
  if sizeAdd b.objSize chunk.length > maxObjectSize then { b with fitsInCache := false }
  else { b with webObjBuf := b.webObjBuf ++ chunk, objSize := sizeAdd b.objSize chunk.length }

end ObjBuf

/-- The loop of `forward`; `errno` 32 is the client's closing of the connection. -/
def forwardLoop : List Exchange → ReadEnd → ObjBuf → Stop × ObjBuf
  | [], .eof, b => (.eof, b)
  | [], .error, b => (.error, b)
  | e :: es, readEnd, b =>
      if e.written = .failed 32 then (.brokenPipe, b.receive e.chunk)
      else forwardLoop es readEnd (b.receive e.chunk)

/-- `forward`, where the cache is `c` when the write lock is taken. -/
def forward (c : Cache) (exchanges : List Exchange) (readEnd : ReadEnd) (reqUri : String)
    (webObj : Nat) : Option Cache :=
  let (_, b) := forwardLoop exchanges readEnd .empty
  if b.fitsInCache then c.cacheAdd reqUri b.webObjBuf b.objSize webObj else some c

/-- The bytes of the chunks up to the one that the client did not take. -/
def received : List Exchange → List UInt8
  | [] => []
  | e :: es => e.chunk ++ if e.written = .failed 32 then [] else received es

variable {c c' : Cache} {es : List Exchange} {readEnd : ReadEnd} {b : ObjBuf} {bytes chunk : List UInt8}
  {uri : String} {webObj : Nat} {q : List Node}

/-- The buffer holds the bytes received, or they do not fit. -/
structure Buffers (b : ObjBuf) (bytes : List UInt8) : Prop where
  fits : b.fitsInCache = true ↔ bytes.length ≤ maxObjectSize
  buf : b.fitsInCache = true → b.webObjBuf = bytes
  size : b.objSize = b.webObjBuf.length
  le : b.objSize ≤ maxObjectSize

theorem Buffers.empty : Buffers .empty [] :=
  ⟨iff_of_true rfl (Nat.zero_le _), fun _ => rfl, rfl, Nat.zero_le _⟩

/-- One chunk. -/
theorem Buffers.receive (buffers : Buffers b bytes) (short : chunk.length ≤ maxBuf) :
    Buffers (b.receive chunk) (bytes ++ chunk) := by
  have large : maxObjectSize + maxBuf < sizeMod := by decide
  have size := buffers.size
  have le := buffers.le
  have sum : sizeAdd b.objSize chunk.length = b.objSize + chunk.length := sizeAdd_of_lt (by omega)
  have fitting : b.fitsInCache = true → bytes.length = b.objSize := by
    intro fits
    rw [size, buffers.buf fits]
  have full : b.fitsInCache = false → maxObjectSize < bytes.length := by
    intro exceeds
    have fits := buffers.fits
    rw [exceeds] at fits
    exact Nat.lt_of_not_le fun le => Bool.false_ne_true (fits.mpr le)
  unfold ObjBuf.receive
  rw [sum]
  split
  · next exceeds =>
    refine ⟨iff_of_false Bool.false_ne_true ?_, fun fits => absurd fits Bool.false_ne_true, size, le⟩
    rw [List.length_append]
    cases fits : b.fitsInCache with
    | true =>
        have := fitting fits
        omega
    | false =>
        have := full fits
        omega
  · next inside =>
    refine ⟨?_, fun fits => ?_, ?_, ?_⟩
    · rw [List.length_append]
      cases fits : b.fitsInCache with
      | true =>
          have := fitting fits
          exact iff_of_true rfl (by omega)
      | false =>
          have := full fits
          exact iff_of_false Bool.false_ne_true (by omega)
    · show b.webObjBuf ++ chunk = bytes ++ chunk
      rw [buffers.buf fits]
    · show b.objSize + chunk.length = (b.webObjBuf ++ chunk).length
      rw [List.length_append, size]
    · exact Nat.le_of_not_lt inside

/-- **The loop** leaves the bytes received in the buffer. -/
theorem Buffers.forwardLoop (buffers : Buffers b bytes) (short : ∀ e ∈ es, e.chunk.length ≤ maxBuf)
    (readEnd : ReadEnd) : Buffers (forwardLoop es readEnd b).2 (bytes ++ received es) := by
  induction es generalizing b bytes with
  | nil =>
      rw [received, List.append_nil]
      cases readEnd <;> exact buffers
  | cons e es ih =>
      have first := buffers.receive (short e (List.mem_cons_self ..))
      unfold Proxy.forwardLoop received
      split
      · rwa [List.append_nil]
      · rw [← List.append_assoc]
        exact ih first fun e' member => short e' (List.mem_cons_of_mem _ member)

/-- The response was read to its end, and the client took all of it. -/
def Complete (es : List Exchange) (readEnd : ReadEnd) : Prop :=
  readEnd = .eof ∧ ∀ e ∈ es, e.written ≠ .failed 32

theorem forwardLoop_eof_iff : (forwardLoop es readEnd b).1 = .eof ↔ Complete es readEnd := by
  induction es generalizing b with
  | nil => cases readEnd <;> simp [forwardLoop, Complete]
  | cons e es ih =>
      unfold forwardLoop
      split
      · next broken => exact iff_of_false (by simp) fun complete => complete.2 e (by simp) broken
      · next taken => simp [ih, Complete, taken]

theorem received_of_complete (complete : Complete es readEnd) : received es = es.flatMap Exchange.chunk := by
  induction es with
  | nil => rfl
  | cons e es ih =>
      rw [received, if_neg (complete.2 e (by simp)), List.flatMap_cons,
        ih ⟨complete.1, fun e' member => complete.2 e' (List.mem_cons_of_mem _ member)⟩]

/-- Only a complete response is added: if `forward` leaves a new object, the server was read
to end of file, and the object is the response. -/
def CachesComplete (c : Cache) (es : List Exchange) (readEnd : ReadEnd) (uri : String) (webObj : Nat) : Prop :=
  ∀ c', forward c es readEnd uri webObj = some c' → ∀ o, c'.objs.lookup webObj = some o →
    (forwardLoop es readEnd .empty).1 = .eof ∧ o.key = uri ∧ o.value = es.flatMap Exchange.chunk ∧
      o.len = o.value.length ∧ o.len ≤ maxObjectSize

/-- A response that may be cached: complete, too large for it, or cached already. -/
def Cacheable (c : Cache) (es : List Exchange) (readEnd : ReadEnd) (uri : String) : Prop :=
  Complete es readEnd ∨ maxObjectSize < (received es).length ∨ c.cacheFind uri ≠ some 0

/-- What the loop left in the buffer. -/
def buffered (es : List Exchange) (readEnd : ReadEnd) : ObjBuf := (forwardLoop es readEnd .empty).2

theorem buffered_buffers (short : ∀ e ∈ es, e.chunk.length ≤ maxBuf) (readEnd : ReadEnd) :
    Buffers (buffered es readEnd) (received es) := by
  have buffers := Buffers.empty.forwardLoop short readEnd
  rwa [List.nil_append] at buffers

theorem forward_eq : forward c es readEnd uri webObj =
    if (buffered es readEnd).fitsInCache then
      c.cacheAdd uri (buffered es readEnd).webObjBuf (buffered es readEnd).objSize webObj
    else some c := rfl

/-- Nothing else gets into the cache, whatever state the cache is in. -/
theorem Cacheable.cachesComplete (cacheable : Cacheable c es readEnd uri)
    (short : ∀ e ∈ es, e.chunk.length ≤ maxBuf) (fresh : webObj ∉ c.objs) :
    CachesComplete c es readEnd uri webObj := by
  intro c' forwarded o found
  have buffers := buffered_buffers short readEnd
  have changed : c ≠ c' := by
    rintro rfl
    rw [AList.lookup_eq_none.mpr fresh] at found
    cases found
  rw [forward_eq] at forwarded
  cases fits : (buffered es readEnd).fitsInCache with
  | false =>
      rw [fits] at forwarded
      exact absurd (Option.some.inj forwarded) changed
  | true =>
      rw [fits, if_pos rfl] at forwarded
      obtain ⟨a, search, rest⟩ := Option.bind_eq_some_iff.mp forwarded
      by_cases missing : a = 0
      · subst missing
        have live : c'.node webObj = some ⟨webObj, o.key, o.value, o.len⟩ := by
          rw [Cache.node, found]
          rfl
        have inserted := Cache.node_of_insertNew
          ⟨webObj, uri, (buffered es readEnd).webObjBuf, (buffered es readEnd).objSize⟩ rest live
        obtain ⟨key, value, len⟩ : o.key = uri ∧ o.value = (buffered es readEnd).webObjBuf ∧
            o.len = (buffered es readEnd).objSize := by
          simpa using inserted
        have complete : Complete es readEnd := by
          refine cacheable.resolve_right fun other => other.elim ?_ fun cached => cached search
          exact Nat.not_lt_of_le (buffers.fits.mp fits)
        refine ⟨forwardLoop_eof_iff.mpr complete, key, ?_, ?_, ?_⟩
        · rw [value, buffers.buf fits, received_of_complete complete]
        · rw [len, value, buffers.size]
        · rw [len]
          exact buffers.le
      · rw [if_pos missing] at rest
        exact absurd (Option.some.inj rest) changed

/-- Where the queue is well formed, a response that is neither is cached. -/
theorem cacheable_of_cachesComplete (queue : c.Queue q) (size : c.size = load Node.len q)
    (fresh : c.Fresh (received es).length webObj) (short : ∀ e ∈ es, e.chunk.length ≤ maxBuf)
    (only : CachesComplete c es readEnd uri webObj) : Cacheable c es readEnd uri := by
  by_contra refused
  obtain ⟨incomplete, rest⟩ := not_or.mp refused
  obtain ⟨small, cached⟩ := not_or.mp rest
  have small := Nat.le_of_not_lt small
  have missing : c.cacheFind uri = some 0 := not_not.mp cached
  have buffers := buffered_buffers short readEnd
  have fits := buffers.fits.mpr small
  have len : (buffered es readEnd).objSize = (received es).length := by
    rw [buffers.size, buffers.buf fits]
  obtain ⟨nonnull, new, room⟩ := fresh
  have bytes := queue.load_le
  obtain ⟨c', step, -, inserted, -⟩ := queue.add_new size
    ⟨webObj, uri, (buffered es readEnd).webObjBuf, (buffered es readEnd).objSize⟩ missing nonnull new
    buffers.le (show c.size + (buffered es readEnd).objSize < sizeMod by omega)
  have found := (Cache.lookup_eq_of_node inserted.node_new).2
  have forwarded : forward c es readEnd uri webObj = some c' := by
    rw [forward_eq, fits]
    exact step
  exact incomplete (forwardLoop_eof_iff.mp (only c' forwarded _ found).1)

/-- **Only complete responses are cached** if the response is complete, too large, or cached
already; and, in a well-formed cache, only then. -/
theorem forward_complete (short : ∀ e ∈ es, e.chunk.length ≤ maxBuf) (fresh : webObj ∉ c.objs) :
    (Cacheable c es readEnd uri → CachesComplete c es readEnd uri webObj) ∧
      ∀ q, c.Queue q → c.size = load Node.len q → c.Fresh (received es).length webObj →
        (CachesComplete c es readEnd uri webObj ↔ Cacheable c es readEnd uri) := by
  refine ⟨fun cacheable => cacheable.cachesComplete short fresh, fun q queue size place => ?_⟩
  constructor
  · exact cacheable_of_cachesComplete queue size place short
  · intro cacheable
    exact cacheable.cachesComplete short fresh

/-- Two chunks, of which the client takes only the first. -/
def brokenExchange : List Exchange := [⟨[1, 2], .ok⟩, ⟨[3], .failed 32⟩]

theorem forward_complete_broken :
    CachesComplete .empty [⟨[1, 2], .ok⟩, ⟨[3], .failed 104⟩] .eof "a" 16 ∧
      (CachesComplete .empty brokenExchange .eof "a" 16 ↔ Cacheable .empty brokenExchange .eof "a") := by
  constructor
  · exact (forward_complete (by decide) (by decide)).1 (Or.inl ⟨rfl, by decide⟩)
  · exact (forward_complete (by decide) (by decide)).2 [] Cache.empty_serves.queue rfl (by decide)

/-- The server fails after one chunk, which is cached as the response. -/
theorem forward_complete_counterexample : ¬ ∀ (c : Cache) (q : List Node) (es : List Exchange)
    (readEnd : ReadEnd) (uri : String) (webObj : Nat), c.Queue q → c.size = load Node.len q →
      c.Fresh (received es).length webObj → (∀ e ∈ es, e.chunk.length ≤ maxBuf) →
      CachesComplete c es readEnd uri webObj := by
  intro claim
  have only := claim .empty [] [⟨[1, 2], .ok⟩] .error "a" 16 Cache.empty_serves.queue rfl (by decide) (by decide)
  have cached : (forward .empty [⟨[1, 2], .ok⟩] .error "a" 16).map (fun c => (c.objs.lookup 16).isSome) =
      some true := by
    decide +kernel
  obtain ⟨c', forwarded, present⟩ := Option.map_eq_some_iff.mp cached
  obtain ⟨o, found⟩ := Option.isSome_iff_exists.mp present
  cases (only c' forwarded o found).1

end SystemsLabs.Proxy
