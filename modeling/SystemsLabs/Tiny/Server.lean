/-
# SystemsLabs.Tiny.Server -- the Tiny web server

`serve` reads one request from a connection and writes one response.  The connection is what the
kernel delivers and what the client accepts, as for the robust I/O package that the server uses.  The
file system, the program loader and the system calls on files are a `Host`.  What the server prints is
left out, but for the part that a child sends to the client where its program cannot be run.
-/
import SystemsLabs.Csapp.RioStream
import SystemsLabs.Csapp.Sio
import SystemsLabs.Theory.Scanning

namespace SystemsLabs.Tiny

set_option autoImplicit false

open Csapp
open Theory.Scanning (isSpace scanWord numeral)

/-- `MAXLINE`, and `MAXBUF`, which is the same. -/
abbrev maxline : Nat := 8192

/-- What `stat` says of a file, with its contents; `readable` and `executable` are for the owner. -/
structure File where
  regular : Bool
  readable : Bool
  executable : Bool
  content : List UInt8
deriving DecidableEq, Repr

/-- The file system and the system calls on it; a name that ends in `/..` is that of a directory. -/
structure Host where
  stat : List Char → Option File
  parents : ∀ path file, stat path = some file → "/..".toList <:+ path → file.regular = false
  /-- `open` succeeds -/
  opens : List Char → Bool
  /-- `mmap` of one byte or more succeeds -/
  maps : List Char → Bool
  /-- `fork` succeeds -/
  forks : Bool
  /-- `execve` succeeds -/
  execs : List Char → Bool
  /-- What `exit` writes of the log that the buffer of standard output holds. -/
  log : List UInt8

/-! ## Names -/

/-- `strstr` finds the second string in the first. -/
def strstr : List Char → List Char → Bool
  | [], needle => needle = []
  | c :: s, needle => needle.isPrefixOf (c :: s) || strstr s needle

/-- `parse_result`, with the buffers filled. -/
inductive ParseResult where
  | error
  | static (filename : List Char)
  | dynamic (filename cgiargs : List Char)
deriving DecidableEq, Repr

def parseUri (uri : List Char) : ParseResult :=
  if uri.head? ≠ some '/' then .error
  else if "/cgi-bin/".toList.isPrefixOf uri then
    -- the arguments are what follows the first `'?'`
    let cgiargs := (uri.dropWhile fun c => c ≠ '?').drop 1
    let filename := '.' :: uri.takeWhile fun c => c ≠ '?'
    if cgiargs.length ≥ maxline then .error
    else if filename.length ≥ maxline then .error
    else .dynamic filename cgiargs
  else if strstr uri "/../".toList then .error
  else
    let isDir := uri.getLast? = some '/'
    let filename := '.' :: (uri ++ if isDir then "home.html".toList else [])
    if filename.length ≥ maxline then .error else .static filename

def getFiletype (filename : List Char) : List Char :=
  if strstr filename ".html".toList then "text/html".toList
  else if strstr filename ".gif".toList then "image/gif".toList
  else if strstr filename ".png".toList then "image/png".toList
  else if strstr filename ".jpg".toList then "image/jpeg".toList
  else "text/plain".toList

/-! ## Responses -/

def staticHeader (filesize : Int) (filetype : List Char) : List Char :=
  "HTTP/1.0 200 OK\r\nServer: Tiny Web Server\r\nConnection: close\r\nContent-Length: ".toList ++ numeral filesize ++
    "\r\nContent-Type: ".toList ++ filetype ++ "\r\n\r\n".toList

def dynamicHeader : List Char := "HTTP/1.0 200 OK\r\nServer: Tiny Web Server\r\n".toList

def errorBody (errnum shortmsg longmsg : List Char) : List Char :=
  "<!DOCTYPE html>\r\n<html>\r\n<head><title>Tiny Error</title></head>\r\n<body bgcolor=\"ffffff\">\r\n<h1>".toList ++ errnum ++
    ": ".toList ++ shortmsg ++ "</h1>\r\n<p>".toList ++ longmsg ++
    "</p>\r\n<hr /><em>The Tiny Web server</em>\r\n</body></html>\r\n".toList

def errorHeader (errnum shortmsg : List Char) (bodylen : Nat) : List Char :=
  "HTTP/1.0 ".toList ++ errnum ++ [' '] ++ shortmsg ++ "\r\nContent-Type: text/html\r\nContent-Length: ".toList ++
    numeral bodylen ++ "\r\n\r\n".toList

/-- `filesize`, an `int`. -/
def File.size (file : File) : Int := (BitVec.ofNat 32 file.content.length).toInt

/-- The second part of `serve_static`: the body. -/
def sendBody (host : Host) (filename : List Char) (file : File) (fd : Peer) : Option Peer :=
  if !host.opens filename then some fd
  -- `mmap` maps no empty file, and none of a size that is negative
  else if file.size ≤ 0 ∨ host.maps filename = false then some fd
  else do
    let (_, fd) ← fd.rioWriten (file.content.take file.size.toNat)
    some fd

def serveStatic (host : Host) (filename : List Char) (file : File) (fd : Peer) : Option Peer :=
  let header := staticHeader file.size (getFiletype filename)
  if header.length ≥ maxline then some fd
  else do
    let (ret, fd) ← fd.rioWriten (toBytes header)
    if ret < 0 then some fd else sendBody host filename file fd

/-- The end of a child whose `execve` failed: its standard output is the client, and `exit` flushes
the log that it has from the server. -/
def childExit (host : Host) (fd : Peer) : Peer := { fd with accepted := fd.accepted ++ host.log }

/-- `serve_dynamic`, up to `wait`, which returns once the child has ended: the client, and the program
that runs. -/
def serveDynamic (host : Host) (filename cgiargs : List Char) (fd : Peer) : Option (Peer × Option (List Char × List Char)) :=
  if dynamicHeader.length ≥ maxline then some (fd, none)
  else do
    let (ret, fd) ← fd.rioWriten (toBytes dynamicHeader)
    if ret < 0 then some (fd, none)
    else if !host.forks then some (fd, none)
    else if host.execs filename then some (fd, some (filename, cgiargs))
    else some (childExit host fd, none)

def clienterror (errnum shortmsg longmsg : List Char) (fd : Peer) : Option Peer :=
  let body := errorBody errnum shortmsg longmsg
  let header := errorHeader errnum shortmsg body.length
  if body.length ≥ maxline then some fd
  else if header.length ≥ maxline then some fd
  else do
    let (ret, fd) ← fd.rioWriten (toBytes header)
    if ret < 0 then some fd
    else do
      let (_, fd) ← fd.rioWriten (toBytes body)
      some fd

/-! ## Requests -/

/-- A buffer as a C string. -/
def cString (buf : List UInt8) : List Char := (buf.takeWhile fun b => b ≠ 0).map fun b => Char.ofNat b.toNat

/-- `sscanf(buf, "%[^:]: %[^\r\n]", name, value) == 2` -/
def isHeader (buf : List Char) : Bool :=
  let name := buf.takeWhile fun c => c ≠ ':'
  match buf.dropWhile fun c => c ≠ ':' with
  | [] => false
  | _ :: rest => name ≠ [] && ((rest.dropWhile isSpace).takeWhile fun c => c ≠ '\r' && c ≠ '\n') ≠ []

/-- `read_requesthdrs`, which is true where it failed; the names are only logged. -/
def readRequesthdrs : Nat → Rio → Peer → Option (Bool × Rio × Peer)
  | 0, _, _ => none
  | fuel + 1, rp, client => do
      let (answer, rp) ← rp.rioReadlineb maxline
      match answer with
      | .error _ _ => some (true, rp, client)
      | .ok 0 _ => some (true, rp, client)
      | .ok (_ + 1) buf =>
          if cString buf = ['\r', '\n'] then some (false, rp, client)
          else if isHeader (cString buf) then readRequesthdrs fuel rp client
          else do
            let client ← clienterror "400".toList "Bad Request".toList "Tiny could not parse request headers".toList client
            some (true, rp, client)

/-- `sscanf(buf, "%s %s HTTP/1.%c", method, uri, &version) == 3`, with what it assigned. -/
def scanRequestLine (buf : List Char) : Option (List Char × List Char × Char) := do
  let (method, rest) ← scanWord buf
  let (uri, rest) ← scanWord rest
  let rest := rest.dropWhile isSpace
  if "HTTP/1.".toList.isPrefixOf rest then
    let version ← (rest.drop "HTTP/1.".toList.length).head?
    some (method, uri, version)
  else none

/-- `clienterror`, where `serve` returns after it. -/
def refuse (errnum shortmsg longmsg : List Char) (client : Peer) : Option (Peer × Option (List Char × List Char)) :=
  (clienterror errnum shortmsg longmsg client).map fun client => (client, none)

/-- What follows the headers in `serve`: the client, and the program that runs for it. -/
def answer (host : Host) (uri : List Char) (client : Peer) : Option (Peer × Option (List Char × List Char)) :=
  match parseUri uri with
  | .error => refuse "400".toList "Bad Request".toList "Tiny could not parse the request URI".toList client
  | .static filename =>
      match host.stat filename with
      | none => refuse "404".toList "Not found".toList "Tiny couldn't find this file".toList client
      | some sbuf =>
          if !sbuf.regular || !sbuf.readable then
            refuse "403".toList "Forbidden".toList "Tiny couldn't read the file".toList client
          else (serveStatic host filename sbuf client).map fun client => (client, none)
  | .dynamic filename cgiargs =>
      match host.stat filename with
      | none => refuse "404".toList "Not found".toList "Tiny couldn't find this file".toList client
      | some sbuf =>
          if !sbuf.regular || !sbuf.executable then
            refuse "403".toList "Forbidden".toList "Tiny couldn't run the CGI program".toList client
          else serveDynamic host filename cgiargs client

/-- `serve`, with fuel for the headers. -/
def serve (host : Host) (fuel : Nat) (rp : Rio) (client : Peer) : Option (Peer × Option (List Char × List Char)) := do
  let (line, rp) ← rp.rioReadlineb maxline
  match line with
  | .error _ _ => some (client, none)
  | .ok 0 _ => some (client, none)
  | .ok (_ + 1) buf =>
      match scanRequestLine (cString buf) with
      | none => refuse "400".toList "Bad Request".toList "Tiny received a malformed request".toList client
      | some (method, uri, version) =>
          if version ≠ '0' ∧ version ≠ '1' then
            refuse "400".toList "Bad Request".toList "Tiny received a malformed request".toList client
          else if method ≠ "GET".toList then
            refuse "501".toList "Not Implemented".toList "Tiny does not implement this method".toList client
          else do
            let (failed, _, client) ← readRequesthdrs fuel rp client
            if failed then some (client, none) else answer host uri client

end SystemsLabs.Tiny
