/-
# SystemsLabs.Tiny.Responses -- what Tiny sends

A response is what a client is to be sent, and the program that is to run after it.  Each handler
sends its response or, where the client stops accepting, a beginning of it (`Sends`); the checks for
overflow of the buffers never fail (`clienterror_sends`, `serveStatic_sends`).
-/
import SystemsLabs.Csapp.SioPrinting
import SystemsLabs.Tiny.Paths

namespace SystemsLabs.Tiny

set_option autoImplicit false

open Csapp
open Theory.Scanning (numeral)

/-! ## Responses -/

inductive Response where
  /-- the connection is closed at once -/
  | closed
  | refusal (errnum shortmsg longmsg : List Char)
  | file (filename : List Char) (sbuf : File)
  | program (filename cgiargs : List Char)

/-- What is sent of a file after the headers: as much of the contents as `filesize` says, and nothing
where `open` or `mmap` fails. -/
def Host.body (host : Host) (filename : List Char) (file : File) : List UInt8 :=
  if host.opens filename ∧ host.maps filename then file.content.take file.size.toNat else []

/-- A file that is sent whole after its headers: it has no contents, or it is opened and mapped and
`filesize` holds its size. -/
def Host.Delivers (host : Host) (filename : List Char) (file : File) : Prop :=
  file.content = [] ∨ host.opens filename = true ∧ host.maps filename = true ∧ file.content.length < 2147483648

namespace Response

def bytes (host : Host) : Response → List UInt8
  | .closed => []
  | .refusal errnum shortmsg longmsg =>
      let body := errorBody errnum shortmsg longmsg
      toBytes (errorHeader errnum shortmsg body.length) ++ toBytes body
  | .file filename sbuf => toBytes (staticHeader sbuf.size (getFiletype filename)) ++ host.body filename sbuf
  | .program filename _ => toBytes dynamicHeader ++ if host.forks && !host.execs filename then host.log else []

/-- The program that runs once the response is sent. -/
def runs (host : Host) : Response → Option (List Char × List Char)
  | .program filename cgiargs => if host.forks && host.execs filename then some (filename, cgiargs) else none
  | _ => none

end Response

/-- The refusals of `serve` and `read_requesthdrs`. -/
def refusals : List (List Char × List Char × List Char) :=
  [("400".toList, "Bad Request".toList, "Tiny received a malformed request".toList),
    ("400".toList, "Bad Request".toList, "Tiny could not parse request headers".toList),
    ("400".toList, "Bad Request".toList, "Tiny could not parse the request URI".toList),
    ("501".toList, "Not Implemented".toList, "Tiny does not implement this method".toList),
    ("404".toList, "Not found".toList, "Tiny couldn't find this file".toList),
    ("403".toList, "Forbidden".toList, "Tiny couldn't read the file".toList),
    ("403".toList, "Forbidden".toList, "Tiny couldn't run the CGI program".toList)]

/-- A response that a request can have: files are sent from below the directory of the server, and
programs are run that are named below `cgi-bin`.  What the client gets of it depends on the host, see
`Response.bytes`. -/
inductive Response.Allowed (host : Host) : Response → Prop where
  | closed : Allowed host .closed
  | refusal {errnum shortmsg longmsg : List Char} (listed : (errnum, shortmsg, longmsg) ∈ refusals) :
      Allowed host (.refusal errnum shortmsg longmsg)
  | file {filename : List Char} {sbuf : File} (found : host.stat filename = some sbuf) (regular : sbuf.regular = true)
      (readable : sbuf.readable = true) (below : "./".toList <+: filename) (inside : ¬ IsComponent "..".toList filename) :
      Allowed host (.file filename sbuf)
  | program {filename cgiargs : List Char} {sbuf : File} (found : host.stat filename = some sbuf)
      (regular : sbuf.regular = true) (executable : sbuf.executable = true) (below : "./cgi-bin/".toList <+: filename) :
      Allowed host (.program filename cgiargs)

/-! ## Sending -/

variable {host : Host} {client : Peer} {first second : List UInt8} {result : Option Peer} {next : Peer → Option Peer}

/-- A handler that is to send `bytes`. -/
structure Sends (client : Peer) (bytes : List UInt8) (result : Option Peer) : Prop where
  sent : ∀ client', result = some client' → ∃ part, client'.accepted = client.accepted ++ part ∧ part <+: bytes
  returns : ∀ m, client.Accepts (bytes.length + m) →
    ∃ client', result = some client' ∧ client'.Accepts m ∧ client'.accepted = client.accepted ++ bytes

theorem Sends.nothing : Sends client [] (some client) where
  sent client' done := ⟨[], by rw [Option.some.inj done, List.append_nil], List.nil_prefix⟩
  returns m accepts := ⟨client, rfl, by simpa using accepts, (List.append_nil _).symm⟩

/-- A write, and what follows where it succeeds. -/
theorem Sends.write (sends : ∀ client, Sends client second (next client)) :
    Sends client (first ++ second) (client.rioWriten first >>= fun (ret, fd) => if ret < 0 then some fd else next fd) where
  sent client' done := by
    obtain ⟨⟨ret, middle⟩, wrote, goesOn⟩ := Option.bind_eq_some_iff.mp done
    obtain ⟨part, accepted, isPrefix, result⟩ := Peer.rioWriten_spec wrote
    dsimp only at goesOn
    split at goesOn
    · rw [← Option.some.inj goesOn]
      exact ⟨part, accepted, isPrefix.trans (List.prefix_append first second)⟩
    · rcases result with ⟨-, rfl⟩ | ⟨rfl, -⟩
      · obtain ⟨rest, accepted', isPrefix'⟩ := (sends middle).sent client' goesOn
        refine ⟨part ++ rest, ?_, (List.prefix_append_right_inj part).mpr isPrefix'⟩
        rw [accepted', accepted, List.append_assoc]
      · omega
  returns m accepts := by
    rw [List.length_append, Nat.add_assoc] at accepts
    obtain ⟨middle, wrote, accepts', accepted⟩ := Peer.rioWriten_returns accepts
    obtain ⟨client', done, left, accepted'⟩ := (sends middle).returns m accepts'
    refine ⟨client', ?_, left, ?_⟩
    · rw [wrote, Option.bind_eq_bind, Option.bind_some]
      dsimp only
      rw [if_neg (by omega), done]
    · rw [accepted', accepted, List.append_assoc]

/-- A last write, whose failure makes no difference. -/
theorem Sends.last : Sends client first (client.rioWriten first >>= fun (_, fd) => some fd) := by
  have same : Sends client (first ++ []) (client.rioWriten first >>= fun (ret, fd) => if ret < 0 then some fd else some fd) :=
    Sends.write fun _ => Sends.nothing
  simpa using same

/-! ## The handlers -/

variable {errnum shortmsg longmsg : List Char}

/-- The contents follow the headers exactly where the file is one that is sent whole. -/
theorem body_eq_content_iff {filename : List Char} {sbuf : File} :
    host.body filename sbuf = sbuf.content ↔ host.Delivers filename sbuf := by
  have length : sbuf.content.length < 2147483648 → sbuf.size = sbuf.content.length := by
    intro small
    rw [File.size, BitVec.toInt_eq_toNat_of_lt (by rw [BitVec.toNat_ofNat]; omega), BitVec.toNat_ofNat,
      Nat.mod_eq_of_lt (by omega)]
  have upper := BitVec.toInt_lt (x := BitVec.ofNat 32 sbuf.content.length)
  rw [Host.body, Host.Delivers]
  split
  · next both =>
    rw [List.take_eq_self_iff]
    constructor
    · intro whole
      rw [File.size] at whole
      exact Or.inr ⟨both.1, both.2, by omega⟩
    · rintro (empty | ⟨-, -, small⟩)
      · rw [empty]
        exact Nat.zero_le _
      · rw [length small, Int.toNat_natCast]
  · next fails =>
    exact ⟨fun same => Or.inl same.symm, fun delivers => (delivers.resolve_right fun both => fails ⟨both.1, both.2.1⟩).symm⟩

theorem size_bounds (sbuf : File) : -2147483648 ≤ sbuf.size ∧ sbuf.size < 2147483648 := by
  have lower := BitVec.le_toInt (BitVec.ofNat 32 sbuf.content.length)
  have upper := BitVec.toInt_lt (x := BitVec.ofNat 32 sbuf.content.length)
  rw [File.size]
  omega

theorem length_numeral_le {v : Int} (bounds : -2147483648 ≤ v ∧ v < 2147483648) : (numeral v).length ≤ 11 := by
  have digits : (Nat.toDigits 10 v.natAbs).length ≤ 10 := by
    rw [Nat.length_toDigits_le_iff (by decide) (by decide)]
    omega
  rw [numeral]
  split
  · rw [List.length_cons]
    omega
  · omega

theorem length_getFiletype_le (filename : List Char) : (getFiletype filename).length ≤ 10 := by
  unfold getFiletype
  repeat' split
  all_goals decide

theorem length_staticHeader (filesize : Int) (filetype : List Char) :
    (staticHeader filesize filetype).length = 97 + (numeral filesize).length + filetype.length := by
  unfold staticHeader
  simp +arith

theorem length_errorBody (errnum shortmsg longmsg : List Char) :
    (errorBody errnum shortmsg longmsg).length = 164 + errnum.length + shortmsg.length + longmsg.length := by
  have top : "<!DOCTYPE html>\r\n<html>\r\n<head><title>Tiny Error</title></head>\r\n<body bgcolor=\"ffffff\">\r\n<h1>".toList.length = 94 := by
    decide
  unfold errorBody
  simp only [List.length_append, top]
  simp +arith

theorem length_errorHeader (errnum shortmsg : List Char) (bodylen : Nat) :
    (errorHeader errnum shortmsg bodylen).length = 57 + errnum.length + shortmsg.length + (numeral bodylen).length := by
  unfold errorHeader
  simp +arith

/-- The headers of a file fit in `buf`. -/
theorem staticHeader_fits (filename : List Char) (sbuf : File) :
    (staticHeader sbuf.size (getFiletype filename)).length < maxline := by
  have size := length_numeral_le (size_bounds sbuf)
  have filetype := length_getFiletype_le filename
  rw [length_staticHeader, maxline]
  omega

theorem refusal_short (listed : (errnum, shortmsg, longmsg) ∈ refusals) :
    errnum.length + shortmsg.length + longmsg.length < 100 := by
  have all : ∀ r ∈ refusals, r.1.length + r.2.1.length + r.2.2.length < 100 := by simp [refusals]
  exact all _ listed

/-- The texts of a refusal fit in `body` and `buf`. -/
theorem refusal_fits (listed : (errnum, shortmsg, longmsg) ∈ refusals) :
    (errorBody errnum shortmsg longmsg).length < maxline ∧
      (errorHeader errnum shortmsg (errorBody errnum shortmsg longmsg).length).length < maxline := by
  have short := refusal_short listed
  have body := length_errorBody errnum shortmsg longmsg
  have digits : (numeral (errorBody errnum shortmsg longmsg).length).length ≤ 11 := length_numeral_le (by omega)
  rw [length_errorHeader, maxline]
  omega

theorem clienterror_sends (listed : (errnum, shortmsg, longmsg) ∈ refusals) (client : Peer) :
    Sends client (Response.bytes host (.refusal errnum shortmsg longmsg)) (clienterror errnum shortmsg longmsg client) := by
  obtain ⟨body, header⟩ := refusal_fits listed
  have fits : clienterror errnum shortmsg longmsg client =
      (client.rioWriten (toBytes (errorHeader errnum shortmsg (errorBody errnum shortmsg longmsg).length)) >>= fun (ret, fd) =>
        if ret < 0 then some fd
        else fd.rioWriten (toBytes (errorBody errnum shortmsg longmsg)) >>= fun (_, fd) => some fd) :=
    (if_neg (Nat.not_le.mpr body)).trans (if_neg (Nat.not_le.mpr header))
  rw [fits]
  exact Sends.write fun client => Sends.last

theorem sendBody_sends (host : Host) (filename : List Char) (sbuf : File) (client : Peer) :
    Sends client (host.body filename sbuf) (sendBody host filename sbuf client) := by
  rw [Host.body, sendBody]
  cases opens : host.opens filename with
  | false =>
      rw [Bool.not_false, if_pos rfl, if_neg fun both => Bool.false_ne_true both.1]
      exact Sends.nothing
  | true =>
      rw [Bool.not_true, if_neg (c := false = true) Bool.false_ne_true]
      by_cases nothing : sbuf.size ≤ 0 ∨ host.maps filename = false
      · rw [if_pos nothing]
        have empty : (if true = true ∧ host.maps filename = true then sbuf.content.take sbuf.size.toNat else []) = [] := by
          rcases nothing with small | unmapped
          · rw [Int.toNat_of_nonpos small, List.take_zero, ite_self]
          · rw [if_neg fun both => Bool.false_ne_true (unmapped.symm.trans both.2)]
        rw [empty]
        exact Sends.nothing
      · rw [if_neg nothing]
        rw [not_or, Bool.not_eq_false] at nothing
        rw [if_pos ⟨rfl, nothing.2⟩]
        exact Sends.last

theorem serveStatic_sends (host : Host) (filename : List Char) (sbuf : File) (client : Peer) :
    Sends client (Response.bytes host (.file filename sbuf)) (serveStatic host filename sbuf client) := by
  have fits : serveStatic host filename sbuf client =
      (client.rioWriten (toBytes (staticHeader sbuf.size (getFiletype filename))) >>= fun (ret, fd) =>
        if ret < 0 then some fd else sendBody host filename sbuf fd) :=
    if_neg (Nat.not_le.mpr (staticHeader_fits filename sbuf))
  rw [fits]
  exact Sends.write (sendBody_sends host filename sbuf)

end SystemsLabs.Tiny
