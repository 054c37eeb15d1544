import IntroOS.CString.Number

/-!
# Model of the getfile server

Model of `pr1/gflib/gfserver.c` (its interface is `gfserver.h`) and of the handler of
`pr1/gflib/handler.c`.

* A connection is the list of bytes that its socket has accepted, with the number of
  `write` calls so far. What the calls return is an argument: `WriteResults`. `SIGPIPE` is ignored,
  so that a `write` to a closed connection is one that fails.
* The content library is an argument too: `Content` gives the file for a key.
  `pread` may deliver fewer bytes than there are (`ReadResults`, for each offset).
* `readData` is a list of 4096 bytes. A `recv` that fails leaves it as it is, like one
  that returns no bytes, since the code does not look at the value of `recv`.
* The texts on `stdout` and `stderr` are left out, and `accept` and `malloc` succeed.
-/

namespace IntroOS.Gfserver

open CString

/-- `BUFSIZE` (`gfserver.c`, line 21) and `BUFFER_SIZE` (`handler.c`, line 11). -/
def BUFSIZE : ℕ := 4096

/-- `gfstatus_t` (`gfserver.h`, lines 12–16). -/
inductive GfStatus
  | ok
  | fileNotFound
  | error
  deriving DecidableEq, Repr

/-! ## The socket of a connection -/

/-- The socket `sockconn` of a connection. -/
structure Sock where
  /-- the bytes that `write` has accepted -/
  wire : List Byte
  /-- how often `write` has been called -/
  calls : ℕ
  /-- how often `close` has been called -/
  closes : ℕ
  deriving DecidableEq, Repr

/-- A socket that `accept` has returned. -/
def Sock.new : Sock := ⟨[], 0, 0⟩

/-- `close` has been called. -/
def Sock.closed (s : Sock) : Bool := 0 < s.closes

/-- The number of bytes that the `n`-th call of `write` accepts if it is given enough;
    `none` if the call fails. -/
abbrev WriteResults := ℕ → Option ℕ

/-- `write`: the value and the socket after it. -/
def write (io : WriteResults) (s : Sock) (data : List Byte) : ℤ × Sock :=
  let s' := { s with calls := s.calls + 1 }
  if s.closed then (-1, s')
  else match io s.calls with
    | none => (-1, s')
    | some k => (min k data.length, { s' with wire := s.wire ++ data.take k })

/-- `gfs_abort` (lines 93–95). -/
def gfsAbort (s : Sock) : Sock := { s with closes := s.closes + 1 }

/-- `gfs_send` (lines 88–91). -/
def gfsSend (io : WriteResults) (s : Sock) (data : List Byte) : ℤ × Sock := write io s data

/-- `sprintf(header, "GETFILE OK %zu \r\n\r\n", file_len)` (line 82). -/
def okHeader (fileLen : ℕ) : List Byte :=
  ascii "GETFILE OK " ++ decimal fileLen ++ ascii " \r\n\r\n"

/-- `gfs_sendheader` (lines 62–86). -/
def gfsSendheader (io : WriteResults) (s : Sock) (status : GfStatus) (fileLen : ℕ) : ℤ × Sock :=
  match status with
  | .fileNotFound =>
    -- `strlen(…) + 1` bytes: with the NUL
    let r := write io s (ascii "GETFILE FILE_NOT_FOUND \r\n\r\n" ++ [0])
    (r.1, gfsAbort r.2)
  | .error =>
    let r := write io s (ascii "GETFILE ERROR \r\n\r\n" ++ [0])
    (r.1, gfsAbort r.2)
  | .ok => write io s (okHeader fileLen)

/-! ## The handler -/

/-- A file of the content library; its size is an `off_t`. -/
structure File where
  bytes : List Byte
  lt : bytes.length < 2 ^ 63

/-- The file for a key; `none` if `content_get` finds none. -/
abbrev Content := List Byte → Option File

/-- The number of bytes that `pread` at an offset delivers if the file has enough; `none`
    if it fails. -/
abbrev ReadResults := ℕ → Option ℕ

/-- `pread(fildes, buffer, BUFFER_SIZE, off)`; no data if it fails. -/
def pread (reads : ReadResults) (file : List Byte) (off : ℕ) : List Byte :=
  ((file.drop off).take BUFSIZE).take ((reads off).getD 0)

/-- The loop of `handler_get` (`handler.c`, lines 29–43). -/
def handlerLoop (reads : ReadResults) (io : WriteResults) (file : List Byte)
    (bytesTransferred : ℕ) (s : Sock) : ℤ × Sock :=
  if bytesTransferred < file.length then
    let buffer := pread reads file bytesTransferred
    if buffer.length ≤ 0 then (-1, gfsAbort s)
    else
      let r := gfsSend io s buffer
      if r.1 ≠ buffer.length then (-1, gfsAbort r.2)
      else handlerLoop reads io file (bytesTransferred + buffer.length) r.2
  else (bytesTransferred, s)
termination_by file.length - bytesTransferred
decreasing_by
  have hpos : ¬ (pread reads file bytesTransferred).length ≤ 0 := ‹_›
  omega

/-- `handler_get` (`handler.c`, lines 13–46): its value is ignored by the server. -/
def handlerGet (content : Content) (reads : ReadResults) (io : WriteResults) (path : List Byte)
    (s : Sock) : ℤ × Sock :=
  match content path with
  | none => gfsSendheader io s .fileNotFound 0
  | some file =>
    handlerLoop reads io file.bytes 0 (gfsSendheader io s .ok (sizeT file.bytes.length)).2

/-! ## Serving a connection -/

/-- What `gfs->handler` does with a path and the socket of its context. -/
abbrev Handler := List Byte → Sock → Sock

/-- What a connection has been answered. -/
structure Served where
  /-- the paths that the handler has been called with -/
  handled : List (List Byte)
  sock : Sock

/-- What a connection brings: the bytes of its `recv` and the results of its `write` calls. -/
@[ext] structure Connection where
  received : List Byte
  le : received.length ≤ BUFSIZE
  io : WriteResults

/-- `recv(sockconn, readData, BUFSIZE, 0)`. -/
def recvInto (readData received : List Byte) : List Byte :=
  received ++ readData.drop received.length

/-- The pointers that the three calls of `strtok` return. -/
structure Tokens where
  scheme : Option ℕ
  method : Option ℕ
  filenamerecvcli : Option ℕ

/-- Lines 179–181: the tokens and `readData` with the NULs that `strtok` has written. -/
def tokenize (readData : List Byte) : Except Fault (Tokens × List Byte) := do
  let (scheme, saved, readData) ← strtokAt readData 0 (ascii " ")
  let (method, saved, readData) ← strtokAt readData saved (ascii " ")
  let (filenamerecvcli, _, readData) ← strtokAt readData saved (ascii " ")
  return (⟨scheme, method, filenamerecvcli⟩, readData)

/-- `strcmp(p, lit) != 0` for a pointer `p` into `readData` that is not null. -/
def strcmpNe (readData : List Byte) (p : ℕ) (lit : List Byte) : Except Fault Bool :=
  (cstr readData p).map (· != lit)

/-- Lines 190–192; `filename` is the first byte of the third token. -/
def badRequest (readData : List Byte) (tokens : Tokens) (filename : Byte) : Except Fault Bool :=
  match tokens.scheme, tokens.method, tokens.filenamerecvcli with
  | some scheme, some method, some _ => do
    if ← strcmpNe readData scheme (ascii "GETFILE") then
      return true
    else if ← strcmpNe readData method (ascii "GET") then
      return true
    else
      return filename != 47
  | _, _, _ => .ok true

/-- One iteration of the loop of `gfserver_serve` behind `accept` (lines 176–199). -/
def serveOne (handler : WriteResults → Handler) (c : Connection) (readData : List Byte) :
    Except Fault (Served × List Byte) := do
  let (tokens, readData) ← tokenize (recvInto readData c.received)
  match tokens.filenamerecvcli with
  | none => .error .nullPointer
  | some p =>
    if ← badRequest readData tokens (readData.getD p 0) then
      let r := write c.io Sock.new (ascii "GETFILE FILE_NOT_FOUND  \r\n\r\n" ++ [0])
      return (⟨[], r.2⟩, readData)
    else
      let path ← cstr readData p
      return (⟨[path], handler c.io path Sock.new⟩, readData)

/-- `bzero(readData, BUFSIZE)` (line 161). -/
def readDataInit : List Byte := List.replicate BUFSIZE 0

/-- The loop of `gfserver_serve` (lines 166–200) over the connections of a history. -/
def gfserverServe (handler : WriteResults → Handler) :
    List Connection → List Byte → Except Fault (List Served × List Byte)
  | [], readData => .ok ([], readData)
  | c :: cs, readData => do
    let (served, readData) ← serveOne handler c readData
    let (rest, readData) ← gfserverServe handler cs readData
    return (served :: rest, readData)

end IntroOS.Gfserver
