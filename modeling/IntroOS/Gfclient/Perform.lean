import IntroOS.Gfclient.Model

/-!
# `gfc_perform`

Model of `gfc_perform` (`pr1/gflib/gfclient.c`, lines 171–350), cut at the comments of
the source: `recvEnd` is the branch of a `recv` that returns no data, `headerChunk` the
branch of a chunk while `headercheck` is 0, `bodyChunk` the branch of a later chunk.
`requestThread` is one iteration of the callers (`gfclient_download.c`, lines 149–174):
it creates a request, sets it up, performs it and asks for its results.
-/

namespace IntroOS.Gfclient

open CString Concurrency

/-- The bytes that one `recv` of at most `BUFSIZE` bytes returns. -/
structure Chunk where
  data : List Byte
  ne_nil : data ≠ []
  le : data.length ≤ BUFSIZE

/-- How the sequence of `recv` results ends: `recv` returns 0 or -1. -/
inductive Ending
  | close
  | error
  deriving DecidableEq, Repr

/-- The value of `bytesrecv` at the end. -/
def Ending.bytesrecv : Ending → ℤ
  | close => 0
  | error => -1

/-- The results of `recv` on the socket of a request. -/
structure Recvs where
  chunks : List Chunk
  ending : Ending

/-- `buf` after `bzero` and `recv` (lines 208–210). -/
def recvBuf (c : Chunk) : List Byte := c.data ++ List.replicate (BUFSIZE - c.data.length) 0

/-- The local variables of the loop. -/
structure Locals where
  fullData : Ptr
  headercheck : Bool
  bytesReceivedTotal : ℕ
  bytesReceivedFILE : ℕ

/-- How an iteration of the loop ends. -/
inductive Flow
  /-- `return ret` -/
  | done (ret : ℤ)
  /-- the next iteration -/
  | next (l : Locals)

/-- `if (gfr->headarg != NULL) gfr->headfunc(data, len, gfr->headarg)`. -/
def callHeadfunc (gfr : Handle) (data : List Byte) : CProg Unit := do
  let r ← readRequest gfr
  match r.headarg, r.headfunc with
  | none, _ => return ()
  | some _, none => crash .nullPointer
  | some arg, some f => emit (.head f data (some arg))

/-- `gfr->writefunc(data, len, gfr->writearg)`. -/
def callWritefunc (gfr : Handle) (data : List Byte) : CProg Unit := do
  let r ← readRequest gfr
  match r.writefunc with
  | none => crash .nullPointer
  | some f => emit (.write f data r.writearg)

/-- Lines 210–240: `recv` returns no data. -/
def recvEnd (gfr : Handle) (e : Ending) (l : Locals) : CProg ℤ := do
  let bytesReceivedTotal := sizeT (l.bytesReceivedTotal + e.bytesrecv)
  writeRequest gfr fun r => { r with bytesreceived := bytesReceivedTotal }
  match e with
  | .error => return -1
  | .close =>
    let scheme ← strtok (some l.fullData) (ascii " ")
    let status ← strtok none (ascii " ")
    let filelen ← strtok none (ascii " \r\n")
    writeRequest gfr fun r => { r with bytesreceived := bytesReceivedTotal }
    if filelen.isSome then
      let s ← string filelen
      writeRequest gfr fun r => { r with filelen := sizeT (atol s) }
      writeRequest gfr fun r => { r with filelenstr := filelen }
    -- `||` reads the scheme only if the status is "OK"
    if !(← strcmpEq status (ascii "OK")) then
      writeRequest gfr fun r => { r with status := .invalid }
    else if !(← strcmpEq scheme (ascii "GETFILE")) then
      writeRequest gfr fun r => { r with status := .invalid }
    return -1

/-- Lines 299–325: the part `fileData` of the body that came with the header. -/
def firstData (gfr : Handle) (filelen fileData : Option Ptr) (l : Locals) : CProg Flow := do
  let restpartdata := int32 (← string fileData).length
  let bytesReceivedFILE := sizeT (l.bytesReceivedFILE + restpartdata)
  writeRequest gfr fun r => { r with bytesFileReceived := bytesReceivedFILE }
  let _ ← string filelen
  let filelenstr ← string (← readRequest gfr).filelenstr
  let header := ascii "GETFILE OK " ++ filelenstr ++ ascii " \r\n\r\n"
  writeRequest gfr fun r => { r with header := header }
  writeRequest gfr fun r => { r with headlen := header.length }
  callHeadfunc gfr header
  callWritefunc gfr (← bytes fileData (sizeT restpartdata))
  if bytesReceivedFILE = (← readRequest gfr).filelen then
    return .done 0
  return .next { l with bytesReceivedFILE := bytesReceivedFILE }

/-- Lines 295–297. -/
def chooseData (temp2 fileData : Option Ptr) : CProg (Option Ptr) := do
  if temp2.isSome then
    if !(← strcmpEq temp2 (ascii "\r")) then
      return temp2
  return fileData

/-- Lines 281–325: the status is "OK". -/
def headerOk (gfr : Handle) (l : Locals) : CProg Flow := do
  writeRequest gfr fun r => { r with status := .ok }
  let rest ← strtok none []
  let filelen ← strtok rest (ascii " \r\n")
  let temp1 ← strtok none (ascii "\n")
  let temp2 ← strtok none (ascii "\n")
  let fileData ← strtok none (ascii "\n")
  let complete := filelen.isSome && temp1.isSome
  if complete then
    writeRequest gfr fun r => { r with filelenstr := filelen }
    let s ← string filelen
    writeRequest gfr fun r => { r with filelen := sizeT (atol s) }
  let l := { l with headercheck := complete }
  let fileData ← chooseData temp2 fileData
  if fileData.isSome then
    firstData gfr filelen fileData l
  else
    return .next l

/-- Lines 253–328: the header received so far is parsed in the copy `checkformat`. -/
def parseHeader (gfr : Handle) (checkformat : Ptr) (l : Locals) : CProg Flow := do
  if l.bytesReceivedTotal > 7 then
    let scheme ← strtok (some checkformat) (ascii " ")
    if !(← strcmpEq scheme (ascii "GETFILE")) then
      writeRequest gfr fun r => { r with status := .invalid }
      writeRequest gfr fun r => { r with bytesFileReceived := l.bytesReceivedTotal }
      return .done (-1)
    else if l.bytesReceivedTotal > 10 then
      let statusStr ← strtok none (ascii " \r\n")
      if !(← strcmpEq statusStr (ascii "OK")) then
        if ← strcmpEq statusStr (ascii "FILE_NOT_FOUND") then
          writeRequest gfr fun r => { r with status := .fileNotFound }
          callHeadfunc gfr (ascii "GETFILE FILE_NOT_FOUND")
          return .done 0
        else if ← strcmpEq statusStr (ascii "ERROR") then
          writeRequest gfr fun r => { r with status := .error }
          callHeadfunc gfr (ascii "GETFILE ERROR")
          return .done 0
        else
          return .next l
      else
        headerOk gfr l
    else
      return .next l
  else
    return .next l

/-- Lines 242–329: a chunk while the header is incomplete. -/
def headerChunk (gfr : Handle) (c : Chunk) (l : Locals) : CProg Flow := do
  let old ← string (some l.fullData)
  match cstr (recvBuf c) 0 with
  | .error f => crash f
  | .ok new =>
    -- `strcpy` and `strcat` into `bytesReceivedTotal + 1` bytes
    if l.bytesReceivedTotal < old.length + new.length then
      crash .overflow
    else
      let currecvdata ← malloc (old ++ new ++ [0])
      let cur ← string (some currecvdata)
      let checkformat ← malloc (cur ++ [0])
      parseHeader gfr checkformat { l with fullData := currecvdata }

/-- Lines 330–346: a chunk behind the header. -/
def bodyChunk (gfr : Handle) (c : Chunk) (l : Locals) : CProg Flow := do
  let bytesReceivedFILE := sizeT (l.bytesReceivedFILE + c.data.length)
  callWritefunc gfr c.data
  writeRequest gfr fun r => { r with bytesFileReceived := bytesReceivedFILE }
  if bytesReceivedFILE = (← readRequest gfr).filelen then
    return .done 0
  else
    return .next { l with bytesReceivedFILE := bytesReceivedFILE }

/-- The loop of `gfc_perform` (lines 205–347). -/
def gfcPerformLoop (gfr : Handle) (e : Ending) : List Chunk → Locals → CProg ℤ
  | [], l => recvEnd gfr e l
  | c :: cs, l => do
    let l := { l with bytesReceivedTotal := sizeT (l.bytesReceivedTotal + c.data.length) }
    writeRequest gfr fun r => { r with bytesreceived := l.bytesReceivedTotal }
    match ← if l.headercheck then bodyChunk gfr c l else headerChunk gfr c l with
    | .done ret => return ret
    | .next l => gfcPerformLoop gfr e cs l

/-- `gfc_perform` (lines 171–350). -/
def gfcPerform (gfr : Handle) (rs : Recvs) : CProg ℤ := do
  let fullData ← malloc [0]
  match (← readRequest gfr).path with
  | none => crash .nullPointer
  | some path =>
    emit (.sent (clientscheme path))
    gfcPerformLoop gfr rs.ending rs.chunks ⟨fullData, false, 0, 0⟩

/-! ## One request -/

/-- What the caller registers with a request. A header argument comes with a header
    callback, and a write callback is always there. -/
structure Config where
  server : List Byte
  path : List Byte
  port : ℕ
  head : Option (FnPtr × Option VoidPtr)
  writefunc : FnPtr
  writearg : Option VoidPtr

/-- The `gfc_set_*` calls for `cfg`. -/
def gfcSetup (gfr : Handle) (cfg : Config) : CProg Unit := do
  gfcSetServer gfr cfg.server
  gfcSetPath gfr cfg.path
  gfcSetPort gfr cfg.port
  match cfg.head with
  | none => pure ()
  | some (f, none) => gfcSetHeadfunc gfr f
  | some (f, some arg) => do
    gfcSetHeadfunc gfr f
    gfcSetHeaderarg gfr arg
  gfcSetWritefunc gfr cfg.writefunc
  match cfg.writearg with
  | none => pure ()
  | some arg => gfcSetWritearg gfr arg

/-- What a request ends with. -/
structure Outcome where
  /-- the value of `gfc_perform` -/
  ret : ℤ
  /-- `gfc_get_status` -/
  status : GfStatus
  /-- `gfc_get_filelen` -/
  filelen : ℕ
  /-- `gfc_get_bytesreceived` -/
  bytesreceived : ℕ
  /-- the field `bytesreceived`: what `recv` has returned altogether -/
  recvTotal : ℕ
  deriving DecidableEq, Repr

/-- A thread that makes one request. -/
def requestThread (junk : Gfcrequest) (cfg : Config) (rs : Recvs) : CProg Outcome := do
  let gfr ← gfcCreate junk
  emit (.created gfr)
  gfcSetup gfr cfg
  let ret ← gfcPerform gfr rs
  let status ← gfcGetStatus gfr
  let filelen ← gfcGetFilelen gfr
  let bytesreceived ← gfcGetBytesreceived gfr
  let recvTotal := (← readRequest gfr).bytesreceived
  return ⟨ret, status, filelen, bytesreceived, recvTotal⟩

/-- The data of the calls of the write callback in `log`, in order. -/
def writes (log : List Event) : List (List Byte) :=
  log.filterMap fun
    | .write _ data _ => some data
    | _ => none

/-- The outcome of a request that is performed alone, and what it has done. -/
def request (junk : Gfcrequest) (cfg : Config) (rs : Recvs) :
    Except Fault (Outcome × List Event) :=
  ((requestThread junk cfg rs).alone (exec 0) Store.empty).map fun (o, s) => (o, s.log 0)

/-! ## The caller in `gfclient_download.c` -/

/-- A fresh request in zeroed memory. -/
def Gfcrequest.zeroed : Gfcrequest :=
  ⟨none, none, 0, .ok, 0, 0, [], 0, none, none, none, none, 0, none⟩

/-- `writecb` (`gfclient_download.c`, lines 74–78). -/
def writecb : FnPtr := 1

/-- What `main` registers (lines 149–154): no header callback, and `writecb` with the file. -/
def downloadConfig (server path : List Byte) (port : ℕ) (file : VoidPtr) : Config :=
  ⟨server, path, port, none, writecb, some file⟩

end IntroOS.Gfclient
