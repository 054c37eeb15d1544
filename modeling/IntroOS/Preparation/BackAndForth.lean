import IntroOS.CString.Buffer
import IntroOS.Session.AcceptLoop

/-!
# A message back and forth

Model of `Preparation/server.c`, the loop of lines 81–113, and of `Preparation/client.c`, lines
68–71. The server sends `MESSAGE`, reads once over its copy of it and compares what is in the buffer
then; the client reads once and sends back what it has read.

* A `read` or `write` of the server may take any part of the bytes, or fail; a failed one has none.
  `SIGPIPE` is ignored, so that a `write` to a closed connection is one that fails.
* Left out: a `read` of the client that fails, after which its `write` takes 2^32 - 1 bytes.

Main results:

* `server_reports`: the server never reads past its buffer, and reports a match exactly for the
  bytes that agree with the message as far as both go.
* `matched_of_client`: it always does for its own client.
-/

namespace IntroOS.Preparation.Messages

open CString

/-! ## Model -/

def BUFFER_SIZE : ℕ := 100

def MESSAGE : List Byte := ascii "This is the message I'm sending back and forth"

/-- `MESSAGE` with its NUL. -/
def message : List Byte := MESSAGE ++ [0]

/-- What the calls on a connection of the server give. -/
structure Connection where
  /-- how many bytes `write` takes, if it does not fail -/
  write : Option ℕ
  /-- the bytes of `read`; none of them if it fails -/
  received : List Byte
  le : received.length ≤ BUFFER_SIZE
  /-- whether `close` succeeds -/
  closed : Bool

/-- What a connection has got: the bytes on the wire, and whether the messages match. -/
structure Served where
  wire : List Byte
  matched : Bool
  deriving DecidableEq, Repr

/-- One iteration of the server's loop behind `accept`, with `pBuffer`. -/
def serveOne (c : Connection) (pBuffer : List Byte) : Except Fault (Served × List Byte) := do
  let pBuffer ← strcpy MESSAGE pBuffer
  let s ← cstr pBuffer 0
  let wire := (pBuffer.take (s.length + 1)).take (c.write.getD 0)
  let pBuffer := overlay c.received pBuffer
  let r ← strcmpBuffer pBuffer message
  return (⟨wire, r = 0⟩, pBuffer)

/-- The loop over the connections of a history. -/
def serve : List Connection → List Byte → Except Fault (List Served × Option (List Byte)) :=
  Session.acceptLoop serveOne Connection.closed

/-- What the client sends back when its `read` gives `received` and its `write` takes all. -/
def client (pBuffer received : List Byte) : Except Fault (List Byte) := do
  let pBuffer := overlay received pBuffer
  -- `printf("\nReceived \"%s\" from server\n",pBuffer)`
  let _ ← cstr pBuffer 0
  return pBuffer.take received.length

/-! ## Results -/

variable {c : Connection} {cs : List Connection} {b : List Byte}

/-- What the server does with a connection. -/
def Connection.served (c : Connection) : Served :=
  ⟨message.take (c.write.getD 0), c.received <+: message ∨ message <+: c.received⟩

variable {x : List Byte}

/-- `pBuffer` behind `strcpy`. -/
theorem length_overlay_message (hb : b.length = BUFFER_SIZE) :
    (overlay message b).length = BUFFER_SIZE := by
  rw [← hb]
  apply length_overlay
  rw [hb]
  decide

/-- `pBuffer` behind `read`. -/
theorem length_overlay_received (hb : b.length = BUFFER_SIZE) (hx : x.length ≤ BUFFER_SIZE) :
    (overlay x (overlay message b)).length = BUFFER_SIZE := by
  rw [← length_overlay_message hb]
  apply length_overlay
  rw [length_overlay_message hb]
  exact hx

/-- `strcmp` stops inside `pBuffer`, with or without a NUL there, since `MESSAGE` is shorter. -/
theorem strcmpBuffer_message (hb : b.length = BUFFER_SIZE) :
    strcmpBuffer b message = .ok (strcmp (cstring b) MESSAGE) := by
  have hopen : 0 ∉ MESSAGE := by decide
  have hlong : ¬ b <+: MESSAGE := by
    intro h
    have hle := h.length_le
    rw [hb] at hle
    exact absurd hle (by decide)
  rw [message, strcmpBuffer_string hopen, if_neg hlong]

-- A buffer with a part of the message and nothing else would be read past its end.
example : strcmpBuffer (MESSAGE.take 10) message = .error .unterminated := by decide

/-- The server sees a change exactly where `x` and the message differ. -/
theorem strcmp_overlay_iff (hb : b.length = BUFFER_SIZE) (hx : x.length ≤ BUFFER_SIZE) :
    strcmp (cstring (overlay x (overlay message b))) MESSAGE = 0 ↔
      (x <+: message ∨ message <+: x) := by
  have hopen : 0 ∉ MESSAGE := by decide
  have hlt : MESSAGE.length < (overlay x (overlay message b)).length := by
    rw [length_overlay_received hb hx]
    decide
  rw [strcmp_eq_zero_iff (zero_not_mem_cstring _) hopen, cstring_eq_iff hopen hlt]
  exact prefix_overlay_iff

theorem serveOne_eq (hb : b.length = BUFFER_SIZE) :
    serveOne c b = .ok (c.served, overlay c.received (overlay message b)) := by
  have hcopy : strcpy MESSAGE b = .ok (overlay message b) := by
    apply strcpy_of_lt
    rw [hb]
    decide
  have hs : cstr (overlay message b) 0 = .ok MESSAGE := cstr_overlay_string (by decide) b
  have hcmp := strcmpBuffer_message (length_overlay_received hb c.le)
  have hreport : decide (strcmp (cstring (overlay c.received (overlay message b))) MESSAGE = 0) =
      c.served.matched := decide_eq_decide.mpr (strcmp_overlay_iff hb c.le)
  rw [serveOne, hcopy]
  simp only [bind, Except.bind, hs, take_of_cstr hs, hcmp]
  rw [hreport]
  rfl

/-- No connection is a fault, and each report is about its own connection. -/
theorem answers : Session.Answers serveOne (fun b => b.length = BUFFER_SIZE) (fun _ => True)
    Connection.served where
  ok c _ hb _ := ⟨_, serveOne_eq hb, length_overlay_received hb c.le⟩
  fails _ _ _ hno := absurd trivial hno

/-- Whatever the connections of a history send, none of them is a fault; each gets the message, and
    is reported to match it exactly if the two agree as far as both go. -/
theorem server_reports (cs : List Connection) (b : List Byte) (hb : b.length = BUFFER_SIZE) :
    ∃ rest, serve cs b = .ok ((Session.handled Connection.closed cs).map Connection.served, rest) :=
  (answers.ok_iff hb _).mpr ⟨fun _ _ => trivial, rfl⟩

/-- A buffer full of one character, and nothing at all. -/
def twoConnections : List Connection :=
  [⟨some 48, List.replicate 100 84, by decide, true⟩, ⟨some 48, [], by decide, true⟩]

theorem server_reports_two : ∃ rest, serve twoConnections (List.replicate BUFFER_SIZE 0) =
    .ok ((Session.handled Connection.closed twoConnections).map Connection.served, rest) :=
  server_reports twoConnections _ (by decide)

example : (Session.handled Connection.closed twoConnections).map Connection.served =
    [⟨message, false⟩, ⟨message, true⟩] := by decide

/-- The client sends back what it has received. -/
theorem client_eq_of_echo {pBuffer received back : List Byte}
    (h : client pBuffer received = .ok back) : back = received := by
  dsimp only [client] at h
  cases hs : cstr (overlay received pBuffer) 0 with
  | error f =>
    rw [hs] at h
    cases h
  | ok s =>
    rw [hs] at h
    cases h
    exact List.take_left

/-- The server's own client gets a match, however little of the message has come there and back. -/
theorem matched_of_client {pBuffer received back : List Byte}
    (hreceived : received <+: c.served.wire) (hback : client pBuffer received = .ok back)
    (hc : c.received <+: back) : c.served.matched = true := by
  rw [client_eq_of_echo hback] at hc
  have hpart : c.received <+: message := (hc.trans hreceived).trans (List.take_prefix _ _)
  exact decide_eq_true (.inl hpart)

end IntroOS.Preparation.Messages
