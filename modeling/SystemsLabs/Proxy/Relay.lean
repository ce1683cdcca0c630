/-
# SystemsLabs.Proxy.Relay -- `forward` over what the kernel does

`Forward` is told the chunks that `rio_readnb` returns and the results of `rio_writen`; here both
packages run.  A run is then one of `forward`, on the exchanges that take place (`relay_forward`);
and where neither side fails these exchanges carry the response, however the network cuts it: the
client gets it whole, and so does the cache (`forward_relays`).  The messages on `stderr` are left
out, and with them what they may do to `errno`.
-/
import SystemsLabs.Csapp.RioStream
import SystemsLabs.Csapp.RioWriting
import SystemsLabs.Proxy.Forward

namespace SystemsLabs.Proxy

open SystemsLabs.Csapp SystemsLabs.Theory.Pulling

set_option autoImplicit false

/-- The loop of `forward` on the server's descriptor and the client. -/
def relayLoop : Nat → Rio → Peer → ObjBuf → Option (Stop × Peer × ObjBuf)
  | 0, _, _, _ => none
  | fuel + 1, serverRio, client, b => do
      let (answer, serverRio) ← serverRio.rioReadnb maxBuf
      match answer with
      | .error _ _ => some (.error, client, b)
      | .ok 0 _ => some (.eof, client, b)
      | .ok (_ + 1) newbuf =>
          let b := b.receive newbuf
          let (ret, client) ← client.rioWriten newbuf
          if ret < 0 ∧ client.errno = 32 then some (.brokenPipe, client, b)
          else relayLoop fuel serverRio client b

/-- `forward` from the descriptor of the server to the client, where the cache is `c` when the write
lock is taken. -/
def relay (fuel : Nat) (c : Cache) (rioBuf : List UInt8) (serverfd : List Delivery) (client : Peer) (reqUri : String)
    (webObj : Nat) : Option (Peer × Option Cache) := do
  let (_, client, b) ← relayLoop fuel (Rio.rioReadinitb rioBuf serverfd) client .empty
  some (client, if b.fitsInCache then c.cacheAdd reqUri b.webObjBuf b.objSize webObj else some c)

variable {fuel : Nat} {rp : Rio} {client client' : Peer} {b b' : ObjBuf} {stop : Stop} {stream : List UInt8}

theorem receive_chunk {n : Nat} {newbuf : List UInt8} {rp' : Rio} (valid : rp.Valid)
    (done : rp.rioReadnb maxBuf = some (.ok n newbuf, rp')) : newbuf.length ≤ maxBuf ∧ rp'.Valid := by
  obtain ⟨rp₁, pulled, valid₁, -⟩ := Rio.rioReadnb_pull valid maxBuf
  obtain ⟨same, rfl⟩ := Prod.mk.inj (Option.some.inj (pulled.symm.trans done))
  have short : (pull (wantsBytes maxBuf) [] rp.items).got.length ≤ maxBuf := length_pull_le (Nat.zero_le maxBuf)
  refine ⟨?_, valid₁⟩
  unfold bytesAnswer at same
  split at same
  · cases same
  · obtain ⟨-, rfl⟩ := Answer.ok.inj same
    exact short

/-- **The loop is that of `Forward`**, on the exchanges that take place. -/
theorem relayLoop_exchanges (valid : rp.Valid) (done : relayLoop fuel rp client b = some (stop, client', b')) :
    ∃ es readEnd, forwardLoop es readEnd b = (stop, b') ∧ ∀ e ∈ es, e.chunk.length ≤ maxBuf := by
  induction fuel generalizing rp client b with
  | zero => cases done
  | succ fuel ih =>
      rw [relayLoop, Option.bind_eq_bind, Option.bind_eq_some_iff] at done
      obtain ⟨⟨answer, rp₁⟩, read, done⟩ := done
      cases answer with
      | error errno usrbuf =>
          obtain ⟨rfl, rfl, rfl⟩ : Stop.error = stop ∧ client = client' ∧ b = b' := by simpa using done
          exact ⟨[], .error, rfl, by simp⟩
      | ok n newbuf =>
          obtain ⟨short, valid₁⟩ := receive_chunk valid read
          cases n with
          | zero =>
              obtain ⟨rfl, rfl, rfl⟩ : Stop.eof = stop ∧ client = client' ∧ b = b' := by simpa using done
              exact ⟨[], .eof, rfl, by simp⟩
          | succ n =>
              dsimp only at done
              obtain ⟨⟨ret, client₁⟩, written, done⟩ := Option.bind_eq_some_iff.mp done
              dsimp only at done
              split at done
              · next broken =>
                obtain ⟨rfl, rfl, rfl⟩ : Stop.brokenPipe = stop ∧ client₁ = client' ∧ b.receive newbuf = b' := by
                  simpa using done
                exact ⟨[⟨newbuf, .failed 32⟩], .eof, rfl, by simpa using short⟩
              · next taken =>
                obtain ⟨es, readEnd, loop, all⟩ := ih valid₁ done
                refine ⟨⟨newbuf, if ret < 0 then .failed client₁.errno else .ok⟩ :: es, readEnd, ?_, ?_⟩
                · rw [forwardLoop, if_neg, loop]
                  intro same
                  split at same
                  · next failed => exact taken ⟨failed, WriteResult.failed.inj same⟩
                  · cases same
                · simpa using ⟨short, all⟩

/-- **The run is one of `forward`**, so that the cache is what `forward_complete` says. -/
theorem relay_forward {c : Cache} {rioBuf : List UInt8} {serverfd : List Delivery} {reqUri : String} {webObj : Nat}
    {cache : Option Cache} (done : relay fuel c rioBuf serverfd client reqUri webObj = some (client', cache)) :
    ∃ es readEnd, forward c es readEnd reqUri webObj = cache ∧ ∀ e ∈ es, e.chunk.length ≤ maxBuf := by
  rw [relay, Option.bind_eq_bind, Option.bind_eq_some_iff] at done
  obtain ⟨⟨stop, client₁, b⟩, loop, done⟩ := done
  obtain ⟨es, readEnd, same, short⟩ := relayLoop_exchanges Rio.rioReadinitb_valid loop
  refine ⟨es, readEnd, ?_, short⟩
  rw [forward, same]
  exact (Prod.mk.inj (Option.some.inj done)).2

/-- The loop where neither side fails. -/
theorem relayLoop_steady (valid : rp.Valid) (steady : rp.items = stream.map .elem)
    (accepts : client.Accepts stream.length) (enough : stream.length < fuel) :
    ∃ client' es, relayLoop fuel rp client b = some (.eof, client', (forwardLoop es .eof b).2) ∧
      client'.accepted = client.accepted ++ stream ∧ Complete es .eof ∧ es.flatMap Exchange.chunk = stream ∧
      ∀ e ∈ es, e.chunk.length ≤ maxBuf := by
  induction fuel generalizing rp client b stream with
  | zero => exact absurd enough (Nat.not_lt_zero _)
  | succ fuel ih =>
      obtain ⟨got, rest, rp', read, valid', rfl, left, short, full⟩ := rioReadnb_steady valid steady maxBuf
      rw [relayLoop, read, Option.bind_eq_bind, Option.bind_some]
      cases got with
      | nil =>
          obtain rfl : rest = [] := full.resolve_left (by decide)
          exact ⟨client, [], rfl, (List.append_nil _).symm, ⟨rfl, by simp⟩, rfl, by simp⟩
      | cons first got =>
          rw [List.length_append] at accepts enough
          obtain ⟨client₁, written, accepts', has⟩ := Peer.rioWriten_returns accepts
          obtain ⟨client', es, loop, has', complete, chunks, all⟩ :=
            ih (b := b.receive (first :: got)) valid' left accepts' (by rw [List.length_cons] at enough; omega)
          refine ⟨client', ⟨first :: got, .ok⟩ :: es, ?_, ?_, ?_, ?_, ?_⟩
          · dsimp only [List.length_cons]
            rw [written, Option.bind_eq_bind, Option.bind_some]
            dsimp only
            rw [if_neg (fun broken => absurd broken.1 (by omega)), loop]
            rfl
          · rw [has', has, List.append_assoc]
          · exact ⟨rfl, by simpa using complete.2⟩
          · rw [List.flatMap_cons, chunks]
          · simpa using ⟨short, all⟩

/-- **`forward` hands on the response**, however it arrives and however it is taken: where neither
the server's descriptor nor the client fails, the client has received exactly what the server sent,
and that is what is added to the cache if it is not too large. -/
theorem forward_relays {serverfd : List Delivery} (c : Cache) (rioBuf : List UInt8) (reqUri : String) (webObj : Nat)
    (steady : Steady serverfd) (accepts : client.Accepts (delivered serverfd).length)
    (enough : (delivered serverfd).length < fuel) :
    ∃ client', relay fuel c rioBuf serverfd client reqUri webObj = some (client',
        if (delivered serverfd).length ≤ maxObjectSize then
          c.cacheAdd reqUri (delivered serverfd) (delivered serverfd).length webObj
        else some c) ∧
      client'.accepted = client.accepted ++ delivered serverfd := by
  have start : (Rio.rioReadinitb rioBuf serverfd).items = (delivered serverfd).map .elem := by
    rw [Rio.rioReadinitb_items, steady.items_eq]
  obtain ⟨client', es, loop, has, complete, chunks, short⟩ :=
    relayLoop_steady (b := .empty) Rio.rioReadinitb_valid start accepts enough
  have buffers := buffered_buffers short .eof
  rw [received_of_complete complete, chunks] at buffers
  refine ⟨client', ?_, has⟩
  rw [relay, loop, Option.bind_eq_bind, Option.bind_some]
  dsimp only
  have fits := buffers.fits
  rw [buffered] at buffers fits
  by_cases small : (delivered serverfd).length ≤ maxObjectSize
  · have buf := buffers.buf (fits.mpr small)
    rw [if_pos (fits.mpr small), if_pos small, buffers.size, buf]
  · rw [if_neg fun holds => small (fits.mp holds), if_neg small]

/-- A response in three pieces to a client that takes it in others. -/
theorem forward_relays_pieces : ∃ client', relay 8 .empty [] [.bytes 1 [2], .error eintr, .bytes 3 [], .bytes 4 [5]]
      ⟨[], [.upTo 1, .error eintr, .upTo 9, .upTo 9, .upTo 9, .upTo 9], 0⟩ "a" 16 = some (client',
        if 5 ≤ maxObjectSize then Cache.empty.cacheAdd "a" [1, 2, 3, 4, 5] 5 16 else some .empty) ∧
      client'.accepted = [] ++ [1, 2, 3, 4, 5] :=
  forward_relays .empty [] "a" 16 (by decide) ⟨by decide, by decide⟩ (by decide)

end SystemsLabs.Proxy
