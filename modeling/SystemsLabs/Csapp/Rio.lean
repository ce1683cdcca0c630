/-
# SystemsLabs.Csapp.Rio -- the robust I/O package of `csapp.c`

The readers and the writer over what the kernel does: a descriptor is the list of what its `read`
calls are to deliver, a peer the list of what its `write` calls are to accept.  A delivery may be
larger or smaller than the request, and a call may be interrupted or fail.

The loops get fuel; `none` is a call that does not return.
-/
import SystemsLabs.Theory.Pulling

namespace SystemsLabs.Csapp

set_option autoImplicit false

/-- `EINTR`. -/
abbrev eintr : Nat := 4

/-- `RIO_BUFSIZE`. -/
abbrev rioBufsize : Nat := 8192

/-- What is next on a descriptor: bytes that have come in together, or a failure of `read`. -/
inductive Delivery where
  | bytes (first : UInt8) (rest : List UInt8)
  | error (errno : Nat)
deriving DecidableEq, Repr

/-- What `read` and `rio_read` return, with the bytes stored; no bytes is the end of the file. -/
inductive ReadResult where
  | bytes (bs : List UInt8)
  | error (errno : Nat)
deriving DecidableEq, Repr

/-- What a reader returns, with the bytes it stored in the buffer of its caller. -/
inductive Answer where
  | ok (count : Nat) (usrbuf : List UInt8)
  | error (errno : Nat) (usrbuf : List UInt8)
deriving DecidableEq, Repr

/-- `read` of up to `n` bytes. -/
def read (n : Nat) : List Delivery → ReadResult × List Delivery
  | [] => (.bytes [], [])
  | .error errno :: fd => (.error errno, fd)
  | .bytes first rest :: fd =>
      (.bytes ((first :: rest).take n),
        match (first :: rest).drop n with
        | [] => fd
        | first :: rest => .bytes first rest :: fd)

/-! ## Unbuffered -/

def readnLoop (n : Nat) : Nat → Nat → List UInt8 → List Delivery → Option (Answer × List Delivery)
  | 0, _, _, _ => none
  | fuel + 1, nleft, usrbuf, fd =>
      if nleft > 0 then
        match read nleft fd with
        | (.error errno, fd) =>
            if errno ≠ eintr then some (.error errno usrbuf, fd)
            -- interrupted by the return of a signal handler
            else readnLoop n fuel nleft usrbuf fd
        | (.bytes [], fd) => some (.ok (n - nleft) usrbuf, fd)
        | (.bytes (b :: bs), fd) => readnLoop n fuel (nleft - (b :: bs).length) (usrbuf ++ b :: bs) fd
      else some (.ok (n - nleft) usrbuf, fd)

def rioReadn (fd : List Delivery) (n : Nat) : Option (Answer × List Delivery) :=
  readnLoop n (n + fd.length + 1) n [] fd

/-! ## Buffered -/

/-- `rio_t`; `rioBufptr` is the offset in `rioBuf` of the next unread byte. -/
structure Rio where
  rioFd : List Delivery
  rioCnt : Int
  rioBufptr : Nat
  rioBuf : List UInt8
deriving DecidableEq, Repr

/-- How the refilling of the buffer ends. -/
inductive Refill where
  | ready
  | eof
  | error (errno : Nat)
deriving DecidableEq, Repr

namespace Rio

def rioReadinitb (rioBuf : List UInt8) (fd : List Delivery) : Rio := ⟨fd, 0, 0, rioBuf⟩

/-- The loop of `rio_read`. -/
def refill : Nat → Rio → Option (Refill × Rio)
  | 0, _ => none
  | fuel + 1, rp =>
      if rp.rioCnt ≤ 0 then
        match read rioBufsize rp.rioFd with
        | (.error errno, fd) =>
            if errno ≠ eintr then some (.error errno, { rp with rioFd := fd, rioCnt := -1 })
            else refill fuel { rp with rioFd := fd, rioCnt := -1 }
        | (.bytes [], fd) => some (.eof, { rp with rioFd := fd, rioCnt := 0 })
        | (.bytes (b :: bs), fd) => refill fuel
            { rioFd := fd, rioCnt := (b :: bs).length, rioBufptr := 0, rioBuf := b :: bs ++ rp.rioBuf.drop (b :: bs).length }
      else some (.ready, rp)

def rioRead (rp : Rio) (n : Nat) : Option (ReadResult × Rio) := do
  let (filled, rp) ← refill (rp.rioFd.length + 2) rp
  match filled with
  | .error errno => some (.error errno, rp)
  | .eof => some (.bytes [], rp)
  | .ready =>
      let cnt := if rp.rioCnt < n then rp.rioCnt.toNat else n
      some (.bytes ((rp.rioBuf.drop rp.rioBufptr).take cnt),
        { rp with rioBufptr := rp.rioBufptr + cnt, rioCnt := rp.rioCnt - cnt })

def readnbLoop (n : Nat) : Nat → Nat → List UInt8 → Rio → Option (Answer × Rio)
  | 0, _, _, _ => none
  | fuel + 1, nleft, usrbuf, rp =>
      if nleft > 0 then do
        let (nread, rp) ← rp.rioRead nleft
        match nread with
        | .error errno => some (.error errno usrbuf, rp)
        | .bytes [] => some (.ok (n - nleft) usrbuf, rp)
        | .bytes (b :: bs) => readnbLoop n fuel (nleft - (b :: bs).length) (usrbuf ++ b :: bs) rp
      else some (.ok (n - nleft) usrbuf, rp)

def rioReadnb (rp : Rio) (n : Nat) : Option (Answer × Rio) := readnbLoop n (n + 1) n [] rp

/-- `'\n'`. -/
abbrev newline : UInt8 := 10

def readlinebLoop (maxlen : Nat) : Nat → Nat → List UInt8 → Rio → Option (Answer × Rio)
  | 0, _, _, _ => none
  | fuel + 1, n, usrbuf, rp =>
      if n < maxlen then do
        let (rc, rp) ← rp.rioRead 1
        match rc with
        | .bytes (c :: _) =>
            if c = newline then some (.ok (n + 1 - 1) (usrbuf ++ [c] ++ [0]), rp)
            else readlinebLoop maxlen fuel (n + 1) (usrbuf ++ [c]) rp
        | .bytes [] =>
            -- end of the file, before the line or in it
            if n = 1 then some (.ok 0 usrbuf, rp)
            else some (.ok (n - 1) (usrbuf ++ [0]), rp)
        | .error errno => some (.error errno usrbuf, rp)
      else some (.ok (n - 1) (usrbuf ++ [0]), rp)

def rioReadlineb (rp : Rio) (maxlen : Nat) : Option (Answer × Rio) := readlinebLoop maxlen (maxlen + 1) 1 [] rp

end Rio

/-! ## Writing -/

/-- What a `write` is to do: accept up to so many bytes, or fail. -/
inductive Acceptance where
  | upTo (count : Nat)
  | error (errno : Nat)
deriving DecidableEq, Repr

/-- A peer: what it has accepted, what its next `write` calls are to do, and `errno`. -/
structure Peer where
  accepted : List UInt8
  next : List Acceptance
  errno : Nat
deriving DecidableEq, Repr

/-- `write`; where nothing is said of the call it blocks for ever. -/
def Peer.write (peer : Peer) (bufp : List UInt8) : Option (Int × Peer) :=
  match peer.next with
  | [] => none
  | .error errno :: next => some (-1, { peer with next := next, errno := errno })
  | .upTo count :: next =>
      some ((bufp.take count).length, { peer with accepted := peer.accepted ++ bufp.take count, next := next })

def writenLoop (n : Nat) : Nat → List UInt8 → Peer → Option (Int × Peer)
  | 0, _, _ => none
  | fuel + 1, bufp, peer =>
      if bufp.length > 0 then
        match peer.write bufp with
        | none => none
        | some (nwritten, peer) =>
            if nwritten ≤ 0 then
              if peer.errno ≠ eintr then some (-1, peer)
              else writenLoop n fuel bufp peer
            else writenLoop n fuel (bufp.drop nwritten.toNat) peer
      else some (n, peer)

/-- `bufp` is what is left to write. -/
def Peer.rioWriten (peer : Peer) (usrbuf : List UInt8) : Option (Int × Peer) :=
  writenLoop usrbuf.length (peer.next.length + 1) usrbuf peer

end SystemsLabs.Csapp
