import IntroOS.CString.Number
import IntroOS.Concurrency.Program

/-!
# Model of the getfile client library

Model of `pr1/gflib/gfclient.c` (its interface is `gfclient.h`). A thread that makes a
request is a program of atomic operations on the memory of the process: `malloc`, reads
of C strings, calls of `strtok`, assignments to the fields of a request, uses of the
file-level variable `gfr`, and calls of the registered callbacks.

* Memory is a list of blocks for each thread; `malloc` appends a block. Pointers are
  never compared or computed across blocks, so block numbers serve as addresses.
* `strtok`'s saved position and the variable `gfr` belong to the process.
* What `recv` returns is an argument of `gfcPerform`: chunks of 1 to 4096 bytes, then
  an orderly close (0) or an error (-1). Name lookup, `socket` and `connect` succeed
  (the code exits otherwise), and `malloc` does.
* The contents of a fresh `gfcrequest_t` are arbitrary (`junk`).
* `strcmp` against a literal reads one string; the text printed on `stdout` is left out.
-/

namespace IntroOS.Gfclient

open CString Concurrency

/-- `BUFSIZE` (line 14). -/
def BUFSIZE : ℕ := 4096

/-- `gfstatus_t` (`gfclient.h`, lines 11–16). -/
inductive GfStatus
  | ok
  | fileNotFound
  | error
  | invalid
  deriving DecidableEq, Repr

abbrev Tid := ℕ

/-- A byte of a block that thread `tid` has allocated. -/
structure Ptr where
  tid : Tid
  blk : ℕ
  off : ℕ
  deriving DecidableEq, Repr

/-- The `gfcrequest_t *` of the `idx`-th request that thread `tid` has allocated. -/
structure Handle where
  tid : Tid
  idx : ℕ
  deriving DecidableEq, Repr

/-- A callback and its argument are values that the library only passes on. -/
abbrev FnPtr := ℕ
abbrev VoidPtr := ℕ

/-- `struct gfcrequest_t` (lines 18–50); the strings that the library copies are values. -/
structure Gfcrequest where
  server : Option (List Byte)
  path : Option (List Byte)
  port : ℕ
  status : GfStatus
  bytesreceived : ℕ
  bytesFileReceived : ℕ
  header : List Byte
  headlen : ℕ
  writefunc : Option FnPtr
  headfunc : Option FnPtr
  writearg : Option VoidPtr
  headarg : Option VoidPtr
  filelen : ℕ
  filelenstr : Option Ptr

/-- What a thread does that others can see. -/
inductive Event
  /-- `gfc_create` returns a handle -/
  | created (h : Handle)
  /-- bytes given to `send` -/
  | sent (data : List Byte)
  /-- a call of the header callback -/
  | head (f : FnPtr) (data : List Byte) (arg : Option VoidPtr)
  /-- a call of the write callback -/
  | write (f : FnPtr) (data : List Byte) (arg : Option VoidPtr)
  deriving DecidableEq, Repr

/-- The state of the process. -/
structure Store where
  /-- the blocks of each thread -/
  mem : Tid → List (List Byte)
  /-- the requests of each thread -/
  reqs : Tid → List Gfcrequest
  /-- what each thread has done -/
  log : Tid → List Event
  /-- the position `strtok` has saved -/
  saved : Option Ptr
  /-- the file-level variable `gfr` (line 52) -/
  gfr : Option Handle

/-- The state of a process that has done nothing yet. -/
def Store.empty : Store := ⟨fun _ => [], fun _ => [], fun _ => [], none, none⟩

def Store.block (s : Store) (p : Ptr) : Option (List Byte) := (s.mem p.tid)[p.blk]?

def Store.req (s : Store) (h : Handle) : Option Gfcrequest := (s.reqs h.tid)[h.idx]?

/-! ## Atomic operations -/

/-- The atomic operations of a thread. -/
inductive Op
  /-- `malloc` of a block and the string functions that fill it -/
  | malloc (block : List Byte)
  | mallocRequest (junk : Gfcrequest)
  | setGfr (h : Handle)
  | getGfr
  | readRequest (h : Handle)
  | writeRequest (h : Handle) (f : Gfcrequest → Gfcrequest)
  /-- reading the C string at a pointer -/
  | string (p : Option Ptr)
  /-- reading `n` bytes at a pointer -/
  | bytes (p : Option Ptr) (n : ℕ)
  | strtok (s : Option Ptr) (delim : List Byte)
  | emit (e : Event)
  | crash (f : Fault)

/-- The type of the response. -/
@[reducible] def Op.Res : Op → Type
  | malloc _ => Ptr
  | mallocRequest _ => Handle
  | setGfr _ => Unit
  | getGfr => Handle
  | readRequest _ => Gfcrequest
  | writeRequest _ _ => Unit
  | string _ => List Byte
  | bytes _ _ => List Byte
  | strtok _ _ => Option Ptr
  | emit _ => Unit
  | crash _ => Empty

/-- `strtok` with the search position `p`. -/
def execStrtok (p : Ptr) (delim : List Byte) (s : Store) : Except Fault (Option Ptr × Store) :=
  match s.block p with
  | none => .error .wildPointer
  | some b =>
    (strtokAt b p.off delim).map fun (j, k, b') =>
      (j.map fun j => { p with off := j },
        { s with
          mem := Function.update s.mem p.tid ((s.mem p.tid).set p.blk b')
          saved := some { p with off := k } })

/-- Thread `t` performs an operation. -/
def exec (t : Tid) : (o : Op) → Store → Except Fault (o.Res × Store)
  | .malloc block, s =>
    .ok (⟨t, (s.mem t).length, 0⟩, { s with mem := Function.update s.mem t (s.mem t ++ [block]) })
  | .mallocRequest junk, s =>
    .ok (⟨t, (s.reqs t).length⟩, { s with reqs := Function.update s.reqs t (s.reqs t ++ [junk]) })
  | .setGfr h, s => .ok ((), { s with gfr := some h })
  | .getGfr, s =>
    match s.gfr with
    | none => .error .nullPointer
    | some h => .ok (h, s)
  | .readRequest h, s =>
    match s.req h with
    | none => .error .wildPointer
    | some r => .ok (r, s)
  | .writeRequest h f, s =>
    .ok ((), { s with reqs := Function.update s.reqs h.tid ((s.reqs h.tid).modify h.idx f) })
  | .string none, _ => .error .nullPointer
  | .string (some p), s =>
    match s.block p with
    | none => .error .wildPointer
    | some b => (cstr b p.off).map fun str => (str, s)
  | .bytes none _, _ => .error .nullPointer
  | .bytes (some p) n, s =>
    match s.block p with
    | none => .error .wildPointer
    | some b => if p.off + n ≤ b.length then .ok ((b.drop p.off).take n, s) else .error .unterminated
  | .strtok (some p) delim, s => execStrtok p delim s
  | .strtok none delim, s =>
    match s.saved with
    | none => .error .nullPointer
    | some p => execStrtok p delim s
  | .emit e, s => .ok ((), { s with log := Function.update s.log t (s.log t ++ [e]) })
  | .crash f, _ => .error f

/-- The text of a thread. -/
abbrev CProg := Prog Op Op.Res

def malloc (block : List Byte) : CProg Ptr := .op (.malloc block) .ret
def mallocRequest (junk : Gfcrequest) : CProg Handle := .op (.mallocRequest junk) .ret
def setGfr (h : Handle) : CProg Unit := .op (.setGfr h) .ret
def getGfr : CProg Handle := .op .getGfr .ret
def readRequest (h : Handle) : CProg Gfcrequest := .op (.readRequest h) .ret
def writeRequest (h : Handle) (f : Gfcrequest → Gfcrequest) : CProg Unit :=
  .op (.writeRequest h f) .ret
def string (p : Option Ptr) : CProg (List Byte) := .op (.string p) .ret
def bytes (p : Option Ptr) (n : ℕ) : CProg (List Byte) := .op (.bytes p n) .ret
def strtok (s : Option Ptr) (delim : List Byte) : CProg (Option Ptr) := .op (.strtok s delim) .ret
def emit (e : Event) : CProg Unit := .op (.emit e) .ret
def crash {α : Type} (f : Fault) : CProg α := .op (.crash f) fun e => nomatch e

/-- `strcmp(p, lit) == 0` -/
def strcmpEq (p : Option Ptr) (lit : List Byte) : CProg Bool := do
  return (← string p) == lit

/-! ## Making a request -/

/-- An assignment `gfr->… = …` through the file-level variable. -/
def gfrAssign (f : Gfcrequest → Gfcrequest) : CProg Unit := do
  writeRequest (← getGfr) f

/-- `gfc_create` (lines 54–73). -/
def gfcCreate (junk : Gfcrequest) : CProg Handle := do
  setGfr (← mallocRequest junk)
  gfrAssign fun r => { r with headfunc := none }
  gfrAssign fun r => { r with headarg := none }
  gfrAssign fun r => { r with writefunc := none }
  gfrAssign fun r => { r with writearg := none }
  gfrAssign fun r => { r with server := none }
  gfrAssign fun r => { r with path := none }
  gfrAssign fun r => { r with status := .fileNotFound }
  gfrAssign fun r => { r with filelen := 0 }
  gfrAssign fun r => { r with filelenstr := none }
  gfrAssign fun r => { r with headlen := 0 }
  gfrAssign fun r => { r with bytesreceived := 0 }
  gfrAssign fun r => { r with bytesFileReceived := 0 }
  getGfr

/-- `gfc_set_server` (lines 75–85). -/
def gfcSetServer (gfr : Handle) (server : List Byte) : CProg Unit :=
  writeRequest gfr fun r => { r with server := some server }

/-- `gfc_set_path` (lines 87–98). -/
def gfcSetPath (gfr : Handle) (path : List Byte) : CProg Unit :=
  writeRequest gfr fun r => { r with path := some path }

/-- `gfc_set_port` (lines 100–102). -/
def gfcSetPort (gfr : Handle) (port : ℕ) : CProg Unit :=
  writeRequest gfr fun r => { r with port := port }

/-- `gfc_set_headfunc` (lines 104–107). -/
def gfcSetHeadfunc (gfr : Handle) (headfunc : FnPtr) : CProg Unit :=
  writeRequest gfr fun r => { r with headfunc := some headfunc }

/-- `gfc_set_headerarg` (lines 109–119). -/
def gfcSetHeaderarg (gfr : Handle) (headerarg : VoidPtr) : CProg Unit :=
  writeRequest gfr fun r => { r with headarg := some headerarg }

/-- `gfc_set_writefunc` (lines 121–123). -/
def gfcSetWritefunc (gfr : Handle) (writefunc : FnPtr) : CProg Unit :=
  writeRequest gfr fun r => { r with writefunc := some writefunc }

/-- `gfc_set_writearg` (lines 125–133). -/
def gfcSetWritearg (gfr : Handle) (writearg : VoidPtr) : CProg Unit :=
  writeRequest gfr fun r => { r with writearg := some writearg }

/-- `clientscheme` (lines 162–169). -/
def clientscheme (path : List Byte) : List Byte :=
  ascii "GETFILE GET " ++ path ++ ascii " \r\n\r\n"

/-- `gfc_get_status` (lines 352–356). -/
def gfcGetStatus (gfr : Handle) : CProg GfStatus := do
  return (← readRequest gfr).status

/-- `gfc_get_filelen` (lines 373–375). -/
def gfcGetFilelen (gfr : Handle) : CProg ℕ := do
  return (← readRequest gfr).filelen

/-- `gfc_get_bytesreceived` (lines 377–380). -/
def gfcGetBytesreceived (gfr : Handle) : CProg ℕ := do
  return (← readRequest gfr).bytesFileReceived

end IntroOS.Gfclient
