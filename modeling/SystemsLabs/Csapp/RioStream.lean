/-
# SystemsLabs.Csapp.RioStream -- the readers read a stream

The items of a descriptor are its bytes and the failures that are no interruption, in order.  Each
reader pulls from them, however the kernel cuts the bytes into deliveries and whatever calls it
interrupts (`rioReadnb_pull`, `rioReadlineb_pull`, `rioReadn_pull`): a run of buffered reads is a run
of reads of the stream (`readers_refine`).
-/
import Mathlib.Data.List.Basic
import SystemsLabs.Csapp.Rio
import SystemsLabs.Theory.Runs

namespace SystemsLabs.Csapp

set_option autoImplicit false

open Theory.Pulling Theory.Runs

/-! ## Descriptors as streams -/

/-- What a descriptor has for its reader. -/
def items : List Delivery → List (Item UInt8 Nat)
  | [] => []
  | .bytes first rest :: fd => (first :: rest).map .elem ++ items fd
  | .error errno :: fd => if errno = eintr then items fd else .fail errno :: items fd

section Descriptor

variable {fd fd' : List Delivery} {errno n : Nat}

@[simp] theorem items_nil : items [] = [] := rfl

theorem items_interrupted : items (.error eintr :: fd) = items fd := if_pos rfl

theorem items_failed (failed : errno ≠ eintr) : items (.error errno :: fd) = .fail errno :: items fd := if_neg failed

/-- What a `read` that is not interrupted takes from a stream. -/
inductive Taken (n : Nat) : List (Item UInt8 Nat) → ReadResult → List (Item UInt8 Nat) → Prop
  | eof : Taken n [] (.bytes []) []
  | some (b : UInt8) (bs : List UInt8) (rest : List (Item UInt8 Nat)) (short : (b :: bs).length ≤ n) :
      Taken n ((b :: bs).map .elem ++ rest) (.bytes (b :: bs)) rest
  | failed (errno : Nat) (rest : List (Item UInt8 Nat)) : Taken n (.fail errno :: rest) (.error errno) rest

theorem read_bytes (first : UInt8) (rest : List UInt8) (fd : List Delivery) (positive : 0 < n) :
    ∃ bs fd', read n (.bytes first rest :: fd) = (.bytes (first :: bs), fd') ∧ (first :: bs).length ≤ n ∧
      items (.bytes first rest :: fd) = (first :: bs).map .elem ++ items fd' ∧ fd'.length ≤ fd.length + 1 := by
  obtain ⟨n, rfl⟩ := Nat.exists_eq_succ_of_ne_zero (Nat.pos_iff_ne_zero.mp positive)
  refine ⟨rest.take n, _, rfl, ?_, ?_, ?_⟩
  · simp only [List.length_cons, List.length_take]
    omega
  · have whole : rest = rest.take n ++ rest.drop n := (List.take_append_drop n rest).symm
    rw [items, List.drop_succ_cons]
    cases left : rest.drop n with
    | nil =>
        rw [left, List.append_nil] at whole
        rw [← whole]
    | cons b bs =>
        conv_lhs => rw [whole, left]
        dsimp only
        rw [items]
        simp
  · rw [List.drop_succ_cons]
    cases rest.drop n with
    | nil => exact Nat.le_succ _
    | cons b bs => exact Nat.le_refl _

/-- A `read` is interrupted, or it takes from the stream. -/
theorem read_spec (fd : List Delivery) (positive : 0 < n) :
    (∃ rest, fd = .error eintr :: rest ∧ read n fd = (.error eintr, rest)) ∨
      ∃ result fd', read n fd = (result, fd') ∧ Taken n (items fd) result (items fd') ∧
        (∀ errno, result = .error errno → errno ≠ eintr) ∧ fd'.length ≤ fd.length := by
  cases fd with
  | nil => exact Or.inr ⟨_, _, rfl, .eof, (fun _ error => by cases error), Nat.le_refl _⟩
  | cons delivery fd =>
      cases delivery with
      | error errno =>
          by_cases interrupted : errno = eintr
          · subst interrupted
            exact Or.inl ⟨fd, rfl, rfl⟩
          · refine Or.inr ⟨.error errno, fd, rfl, ?_, fun e same => ?_, Nat.le_succ _⟩
            · rw [items_failed interrupted]
              exact .failed errno (items fd)
            · rwa [← ReadResult.error.inj same]
      | bytes first rest =>
          obtain ⟨bs, fd', done, short, split, le⟩ := read_bytes first rest fd positive
          refine Or.inr ⟨.bytes (first :: bs), fd', done, ?_, (fun _ error => by cases error), le⟩
          rw [split]
          exact .some first bs (items fd') short

end Descriptor

/-! ## The buffer -/

namespace Rio

variable {rp rp' : Rio} {n : Nat}

/-- The unread bytes lie in the buffer. -/
def Valid (rp : Rio) : Prop := rp.rioBufptr + rp.rioCnt.toNat ≤ rp.rioBuf.length

/-- The bytes of the buffer that are unread. -/
def unread (rp : Rio) : List UInt8 := (rp.rioBuf.drop rp.rioBufptr).take rp.rioCnt.toNat

/-- What the buffer and the descriptor have for the reader. -/
def items (rp : Rio) : List (Item UInt8 Nat) := rp.unread.map .elem ++ Csapp.items rp.rioFd

theorem unread_empty (empty : rp.rioCnt ≤ 0) : rp.unread = [] := by
  rw [unread, Int.toNat_of_nonpos empty, List.take_zero]

theorem items_empty (empty : rp.rioCnt ≤ 0) : rp.items = Csapp.items rp.rioFd := by
  rw [items, unread_empty empty, List.map_nil, List.nil_append]

theorem length_unread (valid : rp.Valid) : rp.unread.length = rp.rioCnt.toNat := by
  rw [unread, List.length_take, List.length_drop]
  unfold Valid at valid
  omega

theorem rioReadinitb_valid {rioBuf : List UInt8} {fd : List Delivery} : (rioReadinitb rioBuf fd).Valid :=
  Nat.zero_le _

theorem rioReadinitb_items {rioBuf : List UInt8} {fd : List Delivery} :
    (rioReadinitb rioBuf fd).items = Csapp.items fd := items_empty (Int.le_refl 0)

/-- What the refilling of the buffer leads to. -/
inductive Refilled (rp : Rio) : Refill → Rio → Prop
  | ready (rp' : Rio) (valid : rp'.Valid) (positive : 0 < rp'.rioCnt) (same : rp'.items = rp.items) : Refilled rp .ready rp'
  | eof (rp' : Rio) (valid : rp'.Valid) (zero : rp'.items = []) (same : rp.items = []) : Refilled rp .eof rp'
  | error (errno : Nat) (rp' : Rio) (valid : rp'.Valid) (same : rp.items = .fail errno :: rp'.items) :
      Refilled rp (.error errno) rp'

theorem Refilled.congr {filled : Refill} {rp₀ : Rio} (refilled : Refilled rp filled rp') (same : rp.items = rp₀.items) :
    Refilled rp₀ filled rp' := by
  cases refilled with
  | ready _ valid positive kept => exact .ready rp' valid positive (kept.trans same)
  | eof _ valid zero kept => exact .eof rp' valid zero (same.symm.trans kept)
  | error errno _ valid kept => exact .error errno rp' valid (same.symm.trans kept)

/-- The buffer as a `read` that got no bytes leaves it. -/
theorem cleared (valid : rp.Valid) (fd : List Delivery) {cnt : Int} (empty : cnt ≤ 0) :
    Valid { rp with rioFd := fd, rioCnt := cnt } ∧
      items { rp with rioFd := fd, rioCnt := cnt } = Csapp.items fd := by
  refine ⟨?_, items_empty empty⟩
  unfold Valid at *
  dsimp only
  rw [Int.toNat_of_nonpos empty]
  omega

/-- The refilling ends, as an interrupted `read` is one delivery less. -/
theorem refill_spec {fuel : Nat} (valid : rp.Valid) (enough : rp.rioFd.length + 1 < fuel) :
    ∃ filled rp', refill fuel rp = some (filled, rp') ∧ Refilled rp filled rp' := by
  induction fuel generalizing rp with
  | zero => exact absurd enough (Nat.not_lt_zero _)
  | succ fuel ih =>
      rw [refill]
      split
      · next empty =>
        have start := items_empty empty
        rcases read_spec rp.rioFd (n := rioBufsize) (by decide) with ⟨rest, isFd, done⟩ | ⟨result, fd', done, taken, real, le⟩
        · rw [done]
          dsimp only
          rw [if_neg (not_not_intro rfl)]
          have shorter : rp.rioFd.length = rest.length + 1 := by rw [isFd, List.length_cons]
          obtain ⟨valid', left⟩ := cleared valid rest (show (-1 : Int) ≤ 0 by decide)
          obtain ⟨filled, rp', again, refilled⟩ := ih valid' (by dsimp only; omega)
          refine ⟨filled, rp', again, refilled.congr ?_⟩
          rw [start, isFd, items_interrupted, left]
        · rw [done]
          generalize isFd : Csapp.items rp.rioFd = stream at taken start
          generalize isRest : Csapp.items fd' = rest at taken
          cases taken with
          | eof =>
              obtain ⟨valid', left⟩ := cleared valid fd' (Int.le_refl 0)
              exact ⟨_, _, rfl, .eof _ valid' (left.trans isRest) start⟩
          | failed errno =>
              dsimp only
              rw [if_pos (real errno rfl)]
              obtain ⟨valid', left⟩ := cleared valid fd' (show (-1 : Int) ≤ 0 by decide)
              refine ⟨_, _, rfl, .error errno _ valid' ?_⟩
              rw [start, left, isRest]
          | some b bs _ short =>
              dsimp only
              obtain ⟨fuel, rfl⟩ := Nat.exists_eq_succ_of_ne_zero (show fuel ≠ 0 by omega)
              have pos : ¬ (((b :: bs).length : Int) ≤ 0) := by simp
              rw [refill, if_neg pos]
              refine ⟨_, _, rfl, .ready _ ?_ (Int.lt_of_not_ge pos) ?_⟩
              · simp only [Valid, List.length_append, Int.toNat_natCast]
                omega
              · rw [start, items, unread]
                simp [isRest]
      · next positive => exact ⟨.ready, rp, rfl, .ready rp valid (by omega) rfl⟩

/-- **`rio_read`** takes from the stream. -/
theorem rioRead_spec (valid : rp.Valid) (positive : 0 < n) :
    ∃ result rp', rp.rioRead n = some (result, rp') ∧ rp'.Valid ∧ Taken n rp.items result rp'.items := by
  obtain ⟨filled, rp₁, done, refilled⟩ := refill_spec valid (Nat.lt_succ_self (rp.rioFd.length + 1))
  rw [rioRead, done, Option.bind_eq_bind, Option.bind_some]
  cases refilled with
  | eof _ valid' zero same =>
      refine ⟨_, _, rfl, valid', ?_⟩
      rw [same, zero]
      exact .eof
  | error errno _ valid' same =>
      refine ⟨_, _, rfl, valid', ?_⟩
      rw [same]
      exact .failed errno _
  | ready _ valid' pos same =>
      obtain ⟨cnt, isCnt, short, fits, pos'⟩ : ∃ cnt, (if rp₁.rioCnt < (n : Int) then rp₁.rioCnt.toNat else n) = cnt ∧
          cnt ≤ n ∧ cnt ≤ rp₁.rioCnt.toNat ∧ 0 < cnt := by
        refine ⟨_, rfl, ?_⟩
        split <;> omega
      dsimp only
      rw [isCnt]
      have length := length_unread valid'
      have front : (rp₁.rioBuf.drop rp₁.rioBufptr).take cnt = rp₁.unread.take cnt := by
        rw [unread, List.take_take, Nat.min_eq_left fits]
      have left : ((rp₁.rioCnt - cnt).toNat : Nat) = rp₁.rioCnt.toNat - cnt := by omega
      have back : unread { rp₁ with rioBufptr := rp₁.rioBufptr + cnt, rioCnt := rp₁.rioCnt - cnt } = rp₁.unread.drop cnt := by
        rw [unread, unread, left, List.drop_take, List.drop_drop]
      refine ⟨_, _, rfl, ?_, ?_⟩
      · unfold Valid at *
        dsimp only
        omega
      · rw [front, ← same, items, items, back]
        obtain ⟨b, bs, isFront⟩ : ∃ b bs, rp₁.unread.take cnt = b :: bs := by
          refine List.exists_cons_of_ne_nil fun zero => ?_
          have := congrArg List.length zero
          rw [List.length_take, List.length_nil] at this
          omega
        have whole : rp₁.unread = (b :: bs) ++ rp₁.unread.drop cnt := by rw [← isFront, List.take_append_drop]
        rw [isFront]
        conv in rp₁.unread.map _ => rw [whole]
        rw [List.map_append, List.append_assoc]
        refine .some b bs _ ?_
        rw [← isFront, List.length_take]
        omega

end Rio

/-! ## The readers -/

/-- `rio_readnb` and `rio_readn` want `n` bytes. -/
def wantsBytes (n : Nat) (got : List UInt8) : Bool := got.length < n

/-- `rio_readlineb` wants a line that leaves room for the zero. -/
def wantsLine (maxlen : Nat) (got : List UInt8) : Bool := got.length + 1 < maxlen ∧ got.getLast? ≠ some Rio.newline

/-- What `rio_readnb` and `rio_readn` return. -/
def bytesAnswer (p : Pulled UInt8 Nat) : Answer :=
  match p.outcome with
  | .failed errno => .error errno p.got
  | _ => .ok p.got.length p.got

/-- What `rio_readlineb` returns: at the end of the file the buffer is left alone. -/
def lineAnswer (p : Pulled UInt8 Nat) : Answer :=
  match p.outcome with
  | .failed errno => .error errno p.got
  | .ended => if p.got = [] then .ok 0 [] else .ok p.got.length (p.got ++ [0])
  | .done => .ok p.got.length (p.got ++ [0])

section Readers

variable {n nleft maxlen fuel : Nat} {usrbuf : List UInt8} {result : ReadResult} {stream rest : List (Item UInt8 Nat)}

/-- A piece of up to `nleft` bytes is part of what is wanted. -/
theorem pull_piece {b : UInt8} {bs : List UInt8} (count : usrbuf.length + nleft = n)
    (short : (b :: bs).length ≤ nleft) :
    pull (wantsBytes n) usrbuf ((b :: bs).map .elem ++ rest) = pull (wantsBytes n) (usrbuf ++ b :: bs) rest := by
  apply pull_append
  intro front isPrefix proper
  have shorter : front.length < (b :: bs).length :=
    Nat.lt_of_le_of_ne isPrefix.length_le fun same => proper (isPrefix.eq_of_length same)
  rw [wantsBytes, decide_eq_true_eq, List.length_append]
  omega

theorem wantsBytes_iff (count : usrbuf.length + nleft = n) : wantsBytes n usrbuf = true ↔ 0 < nleft := by
  rw [wantsBytes, decide_eq_true_eq]
  omega

/-- No more bytes are stored than were asked for. -/
theorem length_pull_le (le : usrbuf.length ≤ n) : (pull (wantsBytes n) usrbuf stream).got.length ≤ n := by
  induction stream generalizing usrbuf with
  | nil => exact le
  | cons item stream ih =>
      cases wants : wantsBytes n usrbuf with
      | false =>
          rw [pull_done wants]
          exact le
      | true =>
          cases item with
          | elem a =>
              rw [pull, if_pos wants]
              apply ih
              have short : usrbuf.length < n := by simpa [wantsBytes] using wants
              rw [List.length_append, List.length_singleton]
              exact short
          | fail e =>
              rw [pull_failed wants]
              exact le

theorem readnLoop_pull {fd : List Delivery} (count : usrbuf.length + nleft = n) (enough : nleft + fd.length < fuel) :
    ∃ fd', readnLoop n fuel nleft usrbuf fd = some (bytesAnswer (pull (wantsBytes n) usrbuf (items fd)), fd') ∧
      items fd' = (pull (wantsBytes n) usrbuf (items fd)).rest := by
  induction fuel generalizing nleft usrbuf fd with
  | zero => exact absurd enough (Nat.not_lt_zero _)
  | succ fuel ih =>
      have got : n - nleft = usrbuf.length := by omega
      rw [readnLoop, got]
      split
      · next positive =>
        have wants := (wantsBytes_iff count).mpr positive
        rcases read_spec fd positive with ⟨rest, rfl, done⟩ | ⟨result, fd', done, taken, real, le⟩
        · rw [done, items_interrupted]
          dsimp only
          rw [if_neg (not_not_intro rfl)]
          exact ih count (by rw [List.length_cons] at enough; omega)
        · rw [done]
          generalize items fd = stream at taken
          generalize isRest : items fd' = rest at taken
          cases taken with
          | eof =>
              rw [pull_ended wants]
              exact ⟨fd', rfl, isRest⟩
          | failed errno =>
              rw [pull_failed wants]
              dsimp only
              rw [if_pos (real errno rfl)]
              exact ⟨fd', rfl, isRest⟩
          | some b bs _ short =>
              have piece : (usrbuf ++ b :: bs).length + (nleft - (b :: bs).length) = n := by
                rw [List.length_append]
                omega
              rw [pull_piece count short, ← isRest]
              exact ih piece (by rw [List.length_cons] at short ⊢; omega)
      · next atEnd =>
        have enough' : wantsBytes n usrbuf = false := Bool.eq_false_iff.mpr fun wants => atEnd ((wantsBytes_iff count).mp wants)
        rw [pull_done enough']
        exact ⟨fd, rfl, rfl⟩

/-- **`rio_readn`** returns, and pulls from the stream of the descriptor. -/
theorem rioReadn_pull (fd : List Delivery) (n : Nat) :
    ∃ fd', rioReadn fd n = some (bytesAnswer (pull (wantsBytes n) [] (items fd)), fd') ∧
      items fd' = (pull (wantsBytes n) [] (items fd)).rest :=
  readnLoop_pull (Nat.zero_add n) (Nat.lt_succ_self _)

namespace Rio

variable {rp : Rio}

theorem readnbLoop_pull (valid : rp.Valid) (count : usrbuf.length + nleft = n) (enough : nleft < fuel) :
    ∃ rp', readnbLoop n fuel nleft usrbuf rp = some (bytesAnswer (pull (wantsBytes n) usrbuf rp.items), rp') ∧
      rp'.Valid ∧ rp'.items = (pull (wantsBytes n) usrbuf rp.items).rest := by
  induction fuel generalizing nleft usrbuf rp with
  | zero => exact absurd enough (Nat.not_lt_zero _)
  | succ fuel ih =>
      have got : n - nleft = usrbuf.length := by omega
      rw [readnbLoop, got]
      split
      · next positive =>
        have wants := (wantsBytes_iff count).mpr positive
        obtain ⟨result, rp', done, valid', taken⟩ := rioRead_spec valid positive
        rw [done, Option.bind_eq_bind, Option.bind_some]
        generalize rp.items = stream at taken
        generalize isRest : rp'.items = rest at taken
        cases taken with
        | eof =>
            rw [pull_ended wants]
            exact ⟨rp', rfl, valid', isRest⟩
        | failed errno =>
            rw [pull_failed wants]
            exact ⟨rp', rfl, valid', isRest⟩
        | some b bs _ short =>
            have piece : (usrbuf ++ b :: bs).length + (nleft - (b :: bs).length) = n := by
              rw [List.length_append]
              omega
            rw [pull_piece count short, ← isRest]
            exact ih valid' piece (by rw [List.length_cons] at short ⊢; omega)
      · next atEnd =>
        have enough' : wantsBytes n usrbuf = false := Bool.eq_false_iff.mpr fun wants => atEnd ((wantsBytes_iff count).mp wants)
        rw [pull_done enough']
        exact ⟨rp, rfl, valid, rfl⟩

/-- **`rio_readnb`** returns, and pulls from the stream of the buffer and the descriptor. -/
theorem rioReadnb_pull (valid : rp.Valid) (n : Nat) :
    ∃ rp', rp.rioReadnb n = some (bytesAnswer (pull (wantsBytes n) [] rp.items), rp') ∧
      rp'.Valid ∧ rp'.items = (pull (wantsBytes n) [] rp.items).rest :=
  readnbLoop_pull valid (Nat.zero_add n) (Nat.lt_succ_self n)

theorem readlinebLoop_pull (valid : rp.Valid) (count : usrbuf.length + 1 = n) (enough : maxlen - n < fuel)
    (inLine : newline ∉ usrbuf) :
    ∃ rp', readlinebLoop maxlen fuel n usrbuf rp = some (lineAnswer (pull (wantsLine maxlen) usrbuf rp.items), rp') ∧
      rp'.Valid ∧ rp'.items = (pull (wantsLine maxlen) usrbuf rp.items).rest := by
  induction fuel generalizing n usrbuf rp with
  | zero => exact absurd enough (Nat.not_lt_zero _)
  | succ fuel ih =>
      have noEnd : usrbuf.getLast? ≠ some newline := fun last => inLine (List.mem_of_getLast? last)
      have wants_iff : wantsLine maxlen usrbuf = true ↔ n < maxlen := by
        rw [wantsLine, decide_eq_true_eq, count]
        exact and_iff_left noEnd
      have stored : n - 1 = usrbuf.length := by omega
      rw [readlinebLoop, stored]
      split
      · next positive =>
        have wants := wants_iff.mpr positive
        obtain ⟨result, rp', done, valid', taken⟩ := rioRead_spec valid Nat.one_pos
        rw [done, Option.bind_eq_bind, Option.bind_some]
        generalize rp.items = stream at taken
        generalize isRest : rp'.items = rest at taken
        cases taken with
        | eof =>
            rw [pull_ended wants]
            refine ⟨rp', ?_, valid', isRest⟩
            dsimp only [lineAnswer]
            by_cases first : usrbuf = []
            · rw [first, if_pos rfl, if_pos (by rw [← count, first]; rfl)]
            · have later : n ≠ 1 := fun isFirst => first (List.length_eq_zero_iff.mp (by omega))
              rw [if_neg first, if_neg later]
        | failed errno =>
            rw [pull_failed wants]
            exact ⟨rp', rfl, valid', isRest⟩
        | some c bs _ short =>
            obtain rfl : bs = [] := List.length_eq_zero_iff.mp (by rw [List.length_cons] at short; omega)
            rw [List.map_singleton, List.singleton_append, pull, if_pos wants]
            dsimp only
            by_cases lineEnd : c = newline
            · have enough' : wantsLine maxlen (usrbuf ++ [c]) = false := by
                rw [wantsLine, decide_eq_false_iff_not, List.getLast?_concat, lineEnd]
                exact fun both => both.2 rfl
              rw [if_pos lineEnd, pull_done enough']
              refine ⟨rp', ?_, valid', isRest⟩
              rw [lineAnswer, List.length_append, List.length_singleton, count, Nat.add_sub_cancel]
            · rw [if_neg lineEnd, ← isRest]
              apply ih valid'
              · rw [List.length_append, List.length_singleton, count]
              · omega
              · rw [List.mem_append, List.mem_singleton, not_or]
                exact ⟨inLine, Ne.symm lineEnd⟩
      · next full =>
        have enough' : wantsLine maxlen usrbuf = false := Bool.eq_false_iff.mpr fun wants => full (wants_iff.mp wants)
        rw [pull_done enough']
        exact ⟨rp, rfl, valid, rfl⟩

/-- **`rio_readlineb`** returns, and pulls from the stream of the buffer and the descriptor. -/
theorem rioReadlineb_pull (valid : rp.Valid) (maxlen : Nat) :
    ∃ rp', rp.rioReadlineb maxlen = some (lineAnswer (pull (wantsLine maxlen) [] rp.items), rp') ∧
      rp'.Valid ∧ rp'.items = (pull (wantsLine maxlen) [] rp.items).rest :=
  readlinebLoop_pull valid rfl (by omega) List.not_mem_nil

end Rio

end Readers

/-! ## Runs -/

/-- A call of a buffered reader. -/
inductive ReadCall where
  | readnb (n : Nat)
  | readlineb (maxlen : Nat)
deriving DecidableEq, Repr

def ReadCall.wants : ReadCall → List UInt8 → Bool
  | .readnb n => wantsBytes n
  | .readlineb maxlen => wantsLine maxlen

def ReadCall.answer : ReadCall → Pulled UInt8 Nat → Answer
  | .readnb _ => bytesAnswer
  | .readlineb _ => lineAnswer

/-- A call reads from a stream. -/
def StreamStep (stream : List (Item UInt8 Nat)) (call : ReadCall × Answer) (rest : List (Item UInt8 Nat)) : Prop :=
  call.2 = call.1.answer (pull call.1.wants [] stream) ∧ rest = (pull call.1.wants [] stream).rest

namespace Rio

def exec (rp : Rio) : ReadCall → Option (Answer × Rio)
  | .readnb n => rp.rioReadnb n
  | .readlineb maxlen => rp.rioReadlineb maxlen

def Step (rp : Rio) (call : ReadCall × Answer) (rp' : Rio) : Prop := rp.exec call.1 = some (call.2, rp')

variable {rp rp' : Rio}

/-- **One call** reads from the stream. -/
theorem exec_spec (valid : rp.Valid) (call : ReadCall) :
    ∃ answer rp', rp.exec call = some (answer, rp') ∧ rp'.Valid ∧ StreamStep rp.items (call, answer) rp'.items := by
  cases call with
  | readnb n =>
      obtain ⟨rp', done, valid', left⟩ := rioReadnb_pull valid n
      exact ⟨_, rp', done, valid', rfl, left⟩
  | readlineb maxlen =>
      obtain ⟨rp', done, valid', left⟩ := rioReadlineb_pull valid maxlen
      exact ⟨_, rp', done, valid', rfl, left⟩

theorem step_refines {call : ReadCall × Answer} (valid : rp.Valid) (step : rp.Step call rp') :
    rp'.Valid ∧ StreamStep rp.items call rp'.items := by
  obtain ⟨answer, rp₁, done, valid₁, read⟩ := exec_spec valid call.1
  obtain ⟨rfl, rfl⟩ := Prod.mk.inj (Option.some.inj (done.symm.trans step))
  exact ⟨valid₁, read⟩

/-- **The buffered readers read the stream of the descriptor**: every run of calls on a fresh `rio_t`
is the run of the same calls on the stream, and no call fails to return. -/
theorem readers_refine {rioBuf : List UInt8} {fd : List Delivery} {calls : List (ReadCall × Answer)}
    (run : Run Step (rioReadinitb rioBuf fd) calls rp) :
    Run StreamStep (Csapp.items fd) calls rp.items ∧ ∀ call, ∃ answer rp', rp.Step (call, answer) rp' := by
  obtain ⟨stream, onStream, valid, rfl⟩ : ∃ stream, Run StreamStep (Csapp.items fd) calls stream ∧
      rp.Valid ∧ rp.items = stream := by
    refine run.follows (fun rp stream => rp.Valid ∧ rp.items = stream) ⟨rioReadinitb_valid, rioReadinitb_items⟩ ?_
    rintro rp stream call rp' ⟨valid, rfl⟩ step
    obtain ⟨valid', read⟩ := step_refines valid step
    exact ⟨rp'.items, read, valid', rfl⟩
  refine ⟨onStream, fun call => ?_⟩
  obtain ⟨answer, rp', done, -⟩ := exec_spec valid call
  exact ⟨answer, rp', done⟩

end Rio

/-! ## Nothing lost -/

/-- The bytes that a descriptor delivers. -/
def delivered : List Delivery → List UInt8
  | [] => []
  | .bytes first rest :: fd => first :: rest ++ delivered fd
  | .error _ :: fd => delivered fd

/-- `read` gets bytes or is interrupted. -/
def Delivery.steady : Delivery → Bool
  | .bytes .. => true
  | .error errno => errno = eintr

/-- A descriptor whose `read` calls may be interrupted but do not fail. -/
def Steady (fd : List Delivery) : Prop := ∀ delivery ∈ fd, delivery.steady = true

instance (fd : List Delivery) : Decidable (Steady fd) :=
  inferInstanceAs (Decidable (∀ delivery ∈ fd, delivery.steady = true))

theorem Steady.items_eq {fd : List Delivery} (steady : Steady fd) : items fd = (delivered fd).map .elem := by
  induction fd with
  | nil => rfl
  | cons delivery fd ih =>
      have rest := ih fun delivery member => steady delivery (List.mem_cons_of_mem _ member)
      have first := steady delivery (List.mem_cons_self ..)
      cases delivery with
      | bytes first bs => rw [items, delivered, rest, List.map_append]
      | error errno =>
          obtain rfl : errno = eintr := by simpa [Delivery.steady] using first
          rw [items_interrupted, delivered, rest]

/-- The bytes of the stream in an answer, without the zero that ends a line. -/
def Answer.bytes : Answer → List UInt8
  | .ok count usrbuf => usrbuf.take count
  | .error _ usrbuf => usrbuf

/-- What an answer may be where `rest` is left: all that was wanted, or all that there was. -/
def ReadCall.Fulfilled (bytes rest : List UInt8) : ReadCall → Prop
  | .readnb n => bytes.length ≤ n ∧ (bytes.length = n ∨ rest = [])
  | .readlineb maxlen => Rio.newline ∉ bytes.dropLast ∧ bytes.length ≤ maxlen - 1 ∧
      (bytes.getLast? = some Rio.newline ∨ bytes.length = maxlen - 1 ∨ rest = [])

section Lossless

variable {stream rest got : List UInt8} {n maxlen : Nat}

/-- A list is as long as its longest proper beginning and one more. -/
theorem length_le_of_fronts {bound : Nat} (fronts : ∀ front, front <+: got → front ≠ got → front.length < bound) :
    got.length ≤ bound := by
  rcases List.eq_nil_or_concat' got with rfl | ⟨front, b, rfl⟩
  · exact Nat.zero_le _
  · have := fronts front (List.prefix_append ..) (by simp)
    rw [List.length_append, List.length_singleton]
    exact this

theorem bytes_fulfilled (ends : wantsBytes n got = true → rest = [])
    (fronts : ∀ front, front <+: got → front ≠ got → wantsBytes n front = true) :
    (ReadCall.readnb n).Fulfilled got rest := by
  have le : got.length ≤ n := length_le_of_fronts fun front isPrefix proper => by
    simpa [wantsBytes] using fronts front isPrefix proper
  refine ⟨le, ?_⟩
  rcases Nat.lt_or_ge got.length n with short | full
  · exact Or.inr (ends (by simpa [wantsBytes] using short))
  · exact Or.inl (Nat.le_antisymm le full)

theorem line_fulfilled (ends : wantsLine maxlen got = true → rest = [])
    (fronts : ∀ front, front <+: got → front ≠ got → wantsLine maxlen front = true) :
    (ReadCall.readlineb maxlen).Fulfilled got rest := by
  have fronts' : ∀ front, front <+: got → front ≠ got → front.length + 1 < maxlen ∧ front.getLast? ≠ some Rio.newline :=
    fun front isPrefix proper => by simpa [wantsLine] using fronts front isPrefix proper
  have le : got.length ≤ maxlen - 1 := length_le_of_fronts fun front isPrefix proper => by
    have := (fronts' front isPrefix proper).1
    omega
  refine ⟨fun inside => ?_, le, ?_⟩
  · -- the beginning that ends with this newline would have been enough
    obtain ⟨before, after, split⟩ := List.append_of_mem inside
    have nonempty : got ≠ [] := by
      rintro rfl
      exact List.not_mem_nil inside
    have whole := List.dropLast_concat_getLast nonempty
    refine (fronts' (before ++ [Rio.newline]) ?_ ?_).2 List.getLast?_concat
    · rw [← whole, split]
      exact ⟨after ++ [got.getLast nonempty], by simp⟩
    · intro same
      have inside' := congrArg List.length split
      have all := congrArg List.length same
      simp only [List.length_dropLast, List.length_append, List.length_cons, List.length_nil] at inside' all
      omega
  · by_cases wants : wantsLine maxlen got = true
    · exact Or.inr (Or.inr (ends wants))
    · rw [wantsLine, decide_eq_true_eq, not_and_or, not_not] at wants
      exact wants.elim (fun full => Or.inr (Or.inl (by omega))) Or.inl

/-- `rio_readnb` where the stream does not fail. -/
theorem rioReadnb_steady {rp : Rio} (valid : rp.Valid) (steady : rp.items = stream.map .elem) (n : Nat) :
    ∃ got rest rp', rp.rioReadnb n = some (.ok got.length got, rp') ∧ rp'.Valid ∧ stream = got ++ rest ∧
      rp'.items = rest.map .elem ∧ (ReadCall.readnb n).Fulfilled got rest := by
  obtain ⟨rp', done, valid', left⟩ := Rio.rioReadnb_pull valid n
  obtain ⟨got, rest, split, ends, fronts, pulled⟩ := pull_elems (ε := Nat) (wantsBytes n) [] stream
  rw [steady, pulled] at done left
  rw [List.nil_append] at ends
  simp only [List.nil_append] at fronts
  refine ⟨got, rest, rp', ?_, valid', split, left, bytes_fulfilled ends fronts⟩
  rw [done, bytesAnswer]
  by_cases wants : wantsBytes n got = true
  · rw [List.nil_append, if_pos wants]
  · rw [List.nil_append, if_neg wants]

/-- **One read** of a stream that does not fail. -/
theorem step_fulfilled {call : ReadCall} {answer : Answer} {left : List (Item UInt8 Nat)}
    (step : StreamStep (stream.map .elem) (call, answer) left) :
    ∃ rest, left = rest.map .elem ∧ stream = answer.bytes ++ rest ∧ call.Fulfilled answer.bytes rest ∧
      ∃ count usrbuf, answer = .ok count usrbuf := by
  obtain ⟨isAnswer, isLeft⟩ := step
  dsimp only at isAnswer isLeft
  obtain ⟨got, rest, split, ends, fronts, pulled⟩ := pull_elems (ε := Nat) call.wants [] stream
  rw [pulled] at isAnswer isLeft
  rw [List.nil_append] at isAnswer ends
  simp only [List.nil_append] at fronts
  refine ⟨rest, isLeft, ?_⟩
  cases call with
  | readnb n =>
      have given : answer = .ok got.length got := by
        rw [isAnswer]
        dsimp only [ReadCall.answer, bytesAnswer]
        by_cases wants : (ReadCall.readnb n).wants got = true
        · rw [if_pos wants]
        · rw [if_neg wants]
      rw [given, Answer.bytes, List.take_length]
      exact ⟨split, bytes_fulfilled ends fronts, _, _, rfl⟩
  | readlineb maxlen =>
      obtain ⟨usrbuf, given, stored⟩ : ∃ usrbuf, answer = .ok got.length usrbuf ∧ usrbuf.take got.length = got := by
        rw [isAnswer]
        dsimp only [ReadCall.answer, lineAnswer]
        by_cases wants : wantsLine maxlen got = true
        · rw [if_pos (show (ReadCall.readlineb maxlen).wants got = true from wants)]
          dsimp only
          by_cases zero : got = []
          · subst zero
            exact ⟨[], rfl, rfl⟩
          · rw [if_neg zero]
            exact ⟨_, rfl, List.take_left⟩
        · rw [if_neg (show ¬ (ReadCall.readlineb maxlen).wants got = true from wants)]
          exact ⟨_, rfl, List.take_left⟩
      rw [given, Answer.bytes, stored]
      exact ⟨split, line_fulfilled ends fronts, _, _, rfl⟩

theorem run_fulfilled {calls : List (ReadCall × Answer)} {last : List (Item UInt8 Nat)}
    (run : Run StreamStep (stream.map .elem) calls last) :
    ∃ left, last = left.map .elem ∧ stream = (calls.map fun call => call.2.bytes).flatten ++ left ∧
      ∀ before call after, calls = before ++ call :: after →
        call.1.Fulfilled call.2.bytes ((after.map fun call => call.2.bytes).flatten ++ left) ∧
        ∃ count usrbuf, call.2 = .ok count usrbuf := by
  generalize isStart : stream.map Item.elem = start at run
  induction run generalizing stream with
  | nil =>
      refine ⟨stream, isStart.symm, rfl, fun before call after split => ?_⟩
      exact absurd split.symm (by simp)
  | @cons _ _ _ first calls step _ ih =>
      subst isStart
      obtain ⟨rest, isRest, split, fulfilled, ok⟩ := step_fulfilled step
      obtain ⟨left, isLast, rest', others⟩ := ih isRest.symm
      refine ⟨left, isLast, ?_, fun before call after isCalls => ?_⟩
      · rw [split, rest', List.map_cons, List.flatten_cons, List.append_assoc]
      · cases before with
        | nil =>
            obtain ⟨rfl, rfl⟩ := List.cons.inj isCalls
            rw [← rest']
            exact ⟨fulfilled, ok⟩
        | cons _ before => exact others before call after (List.cons.inj isCalls).2

/-- **No byte is lost, repeated or moved**: where `read` does not fail, the answers of a run of
buffered reads are the bytes delivered, cut where the calls say and in their order, and the rest of
the bytes is left. -/
theorem reads_lossless {rioBuf : List UInt8} {fd : List Delivery} {rp : Rio} {calls : List (ReadCall × Answer)}
    (steady : Steady fd) (run : Run Rio.Step (Rio.rioReadinitb rioBuf fd) calls rp) :
    ∃ left, rp.items = left.map .elem ∧ delivered fd = (calls.map fun call => call.2.bytes).flatten ++ left ∧
      ∀ before call after, calls = before ++ call :: after →
        call.1.Fulfilled call.2.bytes ((after.map fun call => call.2.bytes).flatten ++ left) ∧
        ∃ count usrbuf, call.2 = .ok count usrbuf := by
  have onStream := (Rio.readers_refine run).1
  rw [steady.items_eq] at onStream
  exact run_fulfilled onStream

/-- A request line in two pieces and after an interruption, and a part of the next line. -/
def someDeliveries : List Delivery :=
  [.error eintr, .bytes 71 [69], .error eintr, .bytes 84 [10, 72], .bytes 58 [32]]

def someReads : List (ReadCall × Answer) :=
  [(.readlineb 8192, .ok 4 [71, 69, 84, 10, 0]), (.readnb 2, .ok 2 [72, 58]), (.readlineb 8192, .ok 1 [32, 0]),
    (.readlineb 8192, .ok 0 [])]

theorem someReads_run : ∃ rp, Run Rio.Step (Rio.rioReadinitb [] someDeliveries) someReads rp := by
  have computed : (someReads.foldlM (fun (rp : Rio) (call : ReadCall × Answer) => (rp.exec call.1).bind fun (answer, rp') =>
      if answer = call.2 then some rp' else none) (Rio.rioReadinitb [] someDeliveries)).isSome = true := by decide
  obtain ⟨rp, computed⟩ := Option.isSome_iff_exists.mp computed
  refine ⟨rp, (Run.of_foldlM computed).mono ?_⟩
  intro rp call rp' step
  obtain ⟨⟨answer, rp₁⟩, done, same⟩ := Option.bind_eq_some_iff.mp step
  dsimp only at same
  split at same
  · next isAnswer =>
    obtain rfl := Option.some.inj same
    rw [Rio.Step, done, isAnswer]
  · cases same

theorem readers_refine_some : ∃ rp, Run Rio.Step (Rio.rioReadinitb [] someDeliveries) someReads rp ∧
    Run StreamStep (items someDeliveries) someReads rp.items ∧ ∀ call, ∃ answer rp', rp.Step (call, answer) rp' := by
  obtain ⟨rp, run⟩ := someReads_run
  exact ⟨rp, run, Rio.readers_refine run⟩

theorem reads_lossless_some : ∃ (rp : Rio) (left : List UInt8), rp.items = left.map .elem ∧
    delivered someDeliveries = (someReads.map fun call => call.2.bytes).flatten ++ left ∧
    ∀ before call after, someReads = before ++ call :: after →
      call.1.Fulfilled call.2.bytes ((after.map fun call => call.2.bytes).flatten ++ left) ∧
      ∃ count usrbuf, call.2 = .ok count usrbuf := by
  obtain ⟨rp, run⟩ := someReads_run
  exact ⟨rp, reads_lossless (by decide) run⟩

end Lossless

end SystemsLabs.Csapp
