/-
# SystemsLabs.Csapp.RioWriting -- the writer hands everything over, in order

What `rio_writen` has written when it returns is its buffer, or, where it answers -1, a beginning of
it (`rioWriten_spec`); so the peer of a run of calls has the buffers one after the other
(`writes_in_order`).
-/
import SystemsLabs.Csapp.Rio
import SystemsLabs.Theory.Runs

namespace SystemsLabs.Csapp

set_option autoImplicit false

open Theory.Runs

/-- A `write` that gets on: it accepts a byte, or is interrupted. -/
def Acceptance.steady : Acceptance → Bool
  | .upTo count => 0 < count
  | .error errno => errno = eintr

def Acceptance.accepts : Acceptance → Bool
  | .upTo count => 0 < count
  | .error _ => false

namespace Peer

variable {peer peer' : Peer} {n fuel : Nat} {bufp usrbuf : List UInt8} {ret : Int}

/-- The peer gets on, and is to accept a byte or more for `n` times. -/
structure Accepts (peer : Peer) (n : Nat) : Prop where
  steady : ∀ a ∈ peer.next, a.steady = true
  enough : n ≤ peer.next.countP Acceptance.accepts

/-- What the peer has after a call, and what the call returns. -/
structure Written (peer peer' : Peer) (bufp part : List UInt8) (n : Nat) (ret : Int) : Prop where
  accepted : peer'.accepted = peer.accepted ++ part
  isPrefix : part <+: bufp
  result : ret = n ∧ part = bufp ∨ ret = -1 ∧ part ≠ bufp ∧ peer'.errno ≠ eintr

/-- One `write` of the loop. -/
theorem Written.after {part : List UInt8} {count : Nat} {next : List Acceptance}
    (written : Written { peer with accepted := peer.accepted ++ bufp.take count, next := next } peer' (bufp.drop count) part n ret) :
    Written peer peer' bufp (bufp.take count ++ part) n ret := by
  have whole : bufp.take count ++ bufp.drop count = bufp := List.take_append_drop count bufp
  refine ⟨?_, ?_, written.result.imp (And.imp_right ?_) (And.imp_right (And.imp_left ?_))⟩
  · rw [written.accepted, List.append_assoc]
  · have longer := (List.prefix_append_right_inj (bufp.take count)).mpr written.isPrefix
    rwa [whole] at longer
  · rintro rfl
    exact whole
  · exact fun other same => other (List.append_cancel_left (same.trans whole.symm))

theorem writenLoop_written (done : writenLoop n fuel bufp peer = some (ret, peer')) :
    ∃ part, Written peer peer' bufp part n ret := by
  induction fuel generalizing bufp peer with
  | zero => cases done
  | succ fuel ih =>
      rw [writenLoop] at done
      split at done
      · next goesOn =>
        have unfinished : ([] : List UInt8) ≠ bufp := by
          rintro rfl
          exact Nat.lt_irrefl 0 goesOn
        cases next : peer.next with
        | nil =>
            rw [write, next] at done
            cases done
        | cons a rest =>
            cases a with
            | error errno =>
                rw [write, next] at done
                dsimp only at done
                rw [if_pos (by decide)] at done
                split at done
                · next failed =>
                  obtain ⟨rfl, rfl⟩ := Prod.mk.inj (Option.some.inj done)
                  exact ⟨[], (List.append_nil _).symm, List.nil_prefix, Or.inr ⟨rfl, unfinished, failed⟩⟩
                · obtain ⟨part, accepted, isPrefix, result⟩ := ih done
                  exact ⟨part, accepted, isPrefix, result⟩
            | upTo count =>
                rw [write, next] at done
                dsimp only at done
                split at done
                · next finished =>
                  have nothing : bufp.take count = [] := List.length_eq_zero_iff.mp (by omega)
                  split at done
                  · next failed =>
                    obtain ⟨rfl, rfl⟩ := Prod.mk.inj (Option.some.inj done)
                    exact ⟨[], by rw [nothing], List.nil_prefix, Or.inr ⟨rfl, unfinished, failed⟩⟩
                  · obtain ⟨part, accepted, isPrefix, result⟩ := ih done
                    rw [nothing, List.append_nil] at accepted
                    exact ⟨part, accepted, isPrefix, result⟩
                · rw [Int.toNat_natCast, List.length_take] at done
                  have dropped : bufp.drop (min count bufp.length) = bufp.drop count := by
                    rcases Nat.le_total count bufp.length with le | ge
                    · rw [Nat.min_eq_left le]
                    · rw [Nat.min_eq_right ge, List.drop_length, List.drop_eq_nil_of_le ge]
                  rw [dropped] at done
                  obtain ⟨part, written⟩ := ih done
                  exact ⟨_, written.after⟩
      · next finished =>
        obtain ⟨rfl, rfl⟩ := Prod.mk.inj (Option.some.inj done)
        obtain rfl : bufp = [] := List.length_eq_zero_iff.mp (by omega)
        exact ⟨[], (List.append_nil _).symm, List.nil_prefix, Or.inl ⟨rfl, rfl⟩⟩

/-- **`rio_writen`** returns the length of the buffer once all of it is written. -/
theorem rioWriten_spec (done : peer.rioWriten usrbuf = some (ret, peer')) :
    ∃ part, Written peer peer' usrbuf part usrbuf.length ret := writenLoop_written done

theorem writenLoop_returns {m : Nat} (accepts : peer.Accepts (bufp.length + m)) (fits : peer.next.length < fuel) :
    ∃ peer', writenLoop n fuel bufp peer = some ((n : Int), peer') ∧ peer'.Accepts m := by
  induction fuel generalizing bufp peer with
  | zero => exact absurd fits (Nat.not_lt_zero _)
  | succ fuel ih =>
      obtain ⟨steady, enough⟩ := accepts
      rw [writenLoop]
      split
      · next goesOn =>
        cases next : peer.next with
        | nil =>
            rw [next, List.countP_nil] at enough
            omega
        | cons a rest =>
            rw [next] at steady enough fits
            rw [List.length_cons] at fits
            have gets := steady a (List.mem_cons_self ..)
            have others : ∀ a ∈ rest, a.steady = true := fun a member => steady a (List.mem_cons_of_mem _ member)
            cases a with
            | error errno =>
                obtain rfl : errno = eintr := by simpa [Acceptance.steady] using gets
                rw [write, next]
                dsimp only
                rw [if_pos (by decide), if_neg (not_not_intro rfl)]
                exact ih ⟨others, by rwa [List.countP_cons_of_neg (by decide)] at enough⟩ (by dsimp only; omega)
            | upTo count =>
                have pos : 0 < count := by simpa [Acceptance.steady] using gets
                rw [List.countP_cons_of_pos (by simpa [Acceptance.accepts] using pos)] at enough
                rw [write, next]
                dsimp only
                rw [List.length_take, if_neg (by omega), Int.toNat_natCast]
                refine ih ⟨others, ?_⟩ (by dsimp only; omega)
                rw [List.length_drop]
                dsimp only
                omega
      · exact ⟨peer, rfl, steady, by omega⟩

/-- It returns where the peer gets on for long enough. -/
theorem rioWriten_returns {m : Nat} (accepts : peer.Accepts (usrbuf.length + m)) :
    ∃ peer', peer.rioWriten usrbuf = some ((usrbuf.length : Int), peer') ∧ peer'.Accepts m ∧
      peer'.accepted = peer.accepted ++ usrbuf := by
  obtain ⟨peer', done, left⟩ := writenLoop_returns (n := usrbuf.length) accepts (Nat.lt_succ_self _)
  obtain ⟨part, accepted, -, ⟨-, rfl⟩ | ⟨failed, -⟩⟩ := rioWriten_spec done
  · exact ⟨peer', done, left, accepted⟩
  · omega

/-- **The peer has what was written, in order**: after a run of calls of `rio_writen` it has accepted
the buffers one after the other, of those where the answer is -1 a proper beginning.  A call on a
peer that goes on accepting returns. -/
theorem writes_in_order {calls : List (List UInt8 × Int)}
    (run : Run (fun (peer : Peer) call peer' => peer.rioWriten call.1 = some (call.2, peer')) peer calls peer') :
    (∃ parts : List (List UInt8), peer'.accepted = peer.accepted ++ parts.flatten ∧
      List.Forall₂ (fun call part => part <+: call.1 ∧
        (call.2 = call.1.length ∧ part = call.1 ∨ call.2 = -1 ∧ part ≠ call.1)) calls parts) ∧
      ∀ usrbuf, peer'.Accepts usrbuf.length → ∃ peer'', peer'.rioWriten usrbuf = some ((usrbuf.length : Int), peer'') := by
  refine ⟨?_, fun usrbuf accepts => ?_⟩
  rotate_left
  · obtain ⟨peer'', done, -⟩ := rioWriten_returns (m := 0) accepts
    exact ⟨peer'', done⟩
  induction run with
  | nil => exact ⟨[], (List.append_nil _).symm, .nil⟩
  | cons step _ ih =>
      obtain ⟨part, accepted, isPrefix, result⟩ := rioWriten_spec step
      obtain ⟨parts, rest, all⟩ := ih
      refine ⟨part :: parts, ?_, .cons ⟨isPrefix, result.imp_right fun both => ⟨both.1, both.2.1⟩⟩ all⟩
      rw [rest, accepted, List.flatten_cons, List.append_assoc]

/-- A peer that takes what is written piece by piece and closes the connection in the second buffer. -/
def slowPeer : Peer := ⟨[], [.upTo 2, .error eintr, .upTo 4096, .upTo 1, .error 32], 0⟩

def someWrites : List (List UInt8 × Int) := [([71, 69, 84, 32], 4), ([47, 10], -1)]

theorem writes_in_order_slow : ∃ peer' : Peer,
    (∃ parts : List (List UInt8), peer'.accepted = slowPeer.accepted ++ parts.flatten ∧
      List.Forall₂ (fun call part => part <+: call.1 ∧
        (call.2 = call.1.length ∧ part = call.1 ∨ call.2 = -1 ∧ part ≠ call.1)) someWrites parts) ∧
      ∀ usrbuf : List UInt8, peer'.Accepts usrbuf.length →
        ∃ peer'', peer'.rioWriten usrbuf = some ((usrbuf.length : Int), peer'') := by
  have first : slowPeer.rioWriten [71, 69, 84, 32] = some (4, ⟨[71, 69, 84, 32], [.upTo 1, .error 32], 4⟩) := by decide
  have second : Peer.rioWriten ⟨[71, 69, 84, 32], [.upTo 1, .error 32], 4⟩ [47, 10] =
      some (-1, ⟨[71, 69, 84, 32, 47], [], 32⟩) := by decide
  have run : Run (fun (peer : Peer) call peer' => peer.rioWriten call.1 = some (call.2, peer')) slowPeer someWrites _ :=
    .cons first (.cons second (.nil _))
  exact ⟨_, writes_in_order run⟩

end Peer

end SystemsLabs.Csapp
