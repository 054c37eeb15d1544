import IntroOS.CString.Buffer
import IntroOS.Session.AcceptLoop

/-!
# The echo server and its client

Model of `pr1/echo/echoserver.c`, the loop of lines 153–181, and of `pr1/echo/echoclient.c`,
lines 85 and 119–131. Each side reads once from a connection. The server clears `pBuffer` before;
the client reads over the message that it has sent, and prints what is in the buffer then.

* The client sends the whole of `pBuffer`: the message, its NUL and what was behind it.
* A `read` or `write` may take any part of the bytes, or fail; a failed one has none. `SIGPIPE` is
  ignored, so that a `write` to a closed connection is one that fails.
* `message` is the argument of `-m`. Left out: the default, a literal that `strcpy` must not write.

Main results:

* `echoserver_ok_iff`: what a connection is answered depends on its own bytes, and the server runs
  on unless one of them fills the buffer without a NUL.
* `echo_session`: what the client prints, behind any history and however both streams are cut.
-/

namespace IntroOS.Echo

open CString

/-! ## Model -/

def BUFSIZE : ℕ := 4096

/-- What the calls on a connection of the server give. -/
structure Connection where
  /-- the bytes of `read`; none of them if it fails -/
  received : List Byte
  le : received.length ≤ BUFSIZE
  /-- how many bytes `write` takes, if it does not fail -/
  write : Option ℕ
  /-- whether `close` succeeds -/
  closed : Bool

/-- One iteration of the server's loop behind `accept`: the bytes that are sent, and `pBuffer`. -/
def serveOne (c : Connection) (pBuffer : List Byte) : Except Fault (List Byte × List Byte) := do
  let pBuffer := overlay (List.replicate 4096 0) pBuffer
  let pBuffer := overlay c.received pBuffer
  let message ← cstr pBuffer 0
  return ((pBuffer.take (message.length + 1)).take (c.write.getD 0), pBuffer)

/-- The loop over the connections of a history. -/
def serve : List Connection → List Byte → Except Fault (List (List Byte) × Option (List Byte)) :=
  Session.acceptLoop serveOne Connection.closed

/-- The client's `pBuffer` when it calls `write`, all of which it hands over. -/
def request (message pBuffer : List Byte) : Except Fault (List Byte) := strcpy message pBuffer

/-- What the client prints when its `read` gives `received`; `message` has room for the argument
    and its NUL. -/
def echoclient (message pBuffer received : List Byte) : Except Fault (List Byte) := do
  let pBuffer ← request message pBuffer
  let pBuffer := overlay received pBuffer
  let s ← cstr pBuffer 0
  let message ← strcpy s (message ++ [0])
  cstr message 0

/-! ## The server -/

variable {c : Connection} {cs : List Connection} {b : List Byte}

/-- The string that `read` has put into the cleared buffer ends there. -/
def Connection.Ends (c : Connection) : Prop := 0 ∈ c.received ∨ c.received.length < BUFSIZE

/-- What a connection is sent. -/
def Connection.answer (c : Connection) : List Byte :=
  (cstring c.received ++ [0]).take (c.write.getD 0)

/-- `pBuffer` behind `read`. -/
def Connection.buffer (c : Connection) : List Byte := overlay c.received (List.replicate BUFSIZE 0)

theorem Connection.length_buffer (c : Connection) : c.buffer.length = BUFSIZE := by
  have hle : c.received.length ≤ (List.replicate BUFSIZE (0 : Byte)).length := by
    rw [List.length_replicate]
    exact c.le
  exact (length_overlay hle).trans List.length_replicate

theorem serveOne_eq (hb : b.length = BUFSIZE) : serveOne c b =
    (cstr c.buffer 0).map fun message =>
      ((c.buffer.take (message.length + 1)).take (c.write.getD 0), c.buffer) := by
  have hzero : overlay (List.replicate 4096 0) b = List.replicate BUFSIZE 0 :=
    overlay_of_length_eq (List.length_replicate.trans hb.symm)
  unfold serveOne
  rw [hzero]
  show (cstr c.buffer 0 >>= _) = _
  cases cstr c.buffer 0 <;> rfl

theorem serveOne_of_ends (hb : b.length = BUFSIZE) (h : c.Ends) :
    serveOne c b = .ok (c.answer, c.buffer) := by
  have hs : cstr c.buffer 0 = .ok (cstring c.received) := cstr_overlay_zeros h
  rw [serveOne_eq hb, hs]
  show Except.ok ((c.buffer.take _).take _, _) = _
  rw [take_of_cstr hs]
  rfl

theorem serveOne_of_not_ends (hb : b.length = BUFSIZE) (h : ¬ c.Ends) :
    serveOne c b = .error .unterminated := by
  have hle := c.le
  obtain ⟨hzero, hlt⟩ := not_or.mp h
  have hs : cstr c.buffer 0 = .error .unterminated :=
    cstr_overlay_zeros_full (by omega) hzero
  rw [serveOne_eq hb, hs]
  rfl

/-- The buffer's length is all that a connection needs of the earlier ones. -/
theorem answers : Session.Answers serveOne (fun b => b.length = BUFSIZE) Connection.Ends
    Connection.answer where
  ok c _ hb hends := ⟨c.buffer, serveOne_of_ends hb hends, c.length_buffer⟩
  fails _ _ hb hends := ⟨_, serveOne_of_not_ends hb hends⟩

/-- The server goes through a history if every string in it ends, and answers each connection by
    what it has received from it. -/
theorem echoserver_ok_iff (cs : List Connection) (b : List Byte) (hb : b.length = BUFSIZE)
    (wires : List (List Byte)) : (∃ rest, serve cs b = .ok (wires, rest)) ↔
    (∀ c ∈ Session.handled Connection.closed cs, c.Ends) ∧
      wires = (Session.handled Connection.closed cs).map Connection.answer :=
  answers.ok_iff hb wires

/-- The second answer has nothing of the first, longer one; then `close` fails. -/
theorem echoserver_ok_iff_two :
    let cs : List Connection := [⟨ascii "first", by decide, some 4096, true⟩,
      ⟨ascii "2", by decide, some 4096, false⟩, ⟨ascii "3", by decide, some 4096, true⟩]
    (∃ rest, serve cs (List.replicate BUFSIZE 0) =
      .ok ([ascii "first" ++ [0], ascii "2" ++ [0]], rest)) ↔
    (∀ c ∈ Session.handled Connection.closed cs, c.Ends) ∧
      [ascii "first" ++ [0], ascii "2" ++ [0]] =
        (Session.handled Connection.closed cs).map Connection.answer :=
  echoserver_ok_iff _ _ List.length_replicate _

/-! ## The client -/

variable {message pBuffer sent received : List Byte}

/-- What is sent starts with the message and its NUL. -/
theorem request_eq (h : request message pBuffer = .ok sent) :
    message ++ [0] <+: sent ∧ sent.length = pBuffer.length := by
  obtain ⟨hlt, rfl⟩ := strcpy_eq_ok_iff.mp h
  refine ⟨List.prefix_append _ _, length_overlay ?_⟩
  rw [List.length_append, List.length_singleton]
  omega

/-- What comes back and is a part of what has been sent changes nothing. -/
theorem echoclient_of_start (hm : 0 ∉ message) (h : request message pBuffer = .ok sent)
    (hr : received <+: sent) : echoclient message pBuffer received = .ok message := by
  obtain ⟨junk, hjunk⟩ := (request_eq h).1
  have hs : cstr sent 0 = .ok message := by
    rw [← hjunk, List.append_assoc, List.singleton_append]
    exact cstr_terminated hm
  have hcopy : strcpy message (message ++ [0]) = .ok (message ++ [0]) := by
    rw [strcpy_of_lt (by simp), overlay_of_start List.prefix_rfl]
  unfold echoclient
  rw [h]
  show (cstr (overlay received sent) 0 >>= _) = _
  rw [overlay_of_start hr, hs]
  show (strcpy message (message ++ [0]) >>= _) = _
  rw [hcopy]
  exact cstr_terminated hm

/-- A string that comes back whole is printed, if there is room for it. -/
theorem echoclient_of_string {s : List Byte} (h : request message pBuffer = .ok sent)
    (hs : 0 ∉ s) (hle : s.length ≤ message.length) :
    echoclient message pBuffer (s ++ [0]) = .ok s := by
  have hlt : s.length < (message ++ [0]).length := by
    rw [List.length_append, List.length_singleton]
    omega
  unfold echoclient
  rw [h]
  show (cstr (overlay (s ++ [0]) sent) 0 >>= _) = _
  rw [cstr_overlay_string hs]
  show (strcpy s (message ++ [0]) >>= _) = _
  rw [strcpy_of_lt hlt]
  exact cstr_overlay_string hs _

/-- Behind any history of a running server, and however much of the request and of the answer comes
    through: the client prints its message, unless the server has read a part of it only and the
    whole answer has come; then it prints that part. -/
theorem echo_session (history : List Connection) (b b' : List Byte) (wires : List (List Byte))
    (hb : b.length = BUFSIZE) (hserve : serve history b = .ok (wires, some b'))
    (message pBuffer sent : List Byte) (hm : 0 ∉ message) (hp : pBuffer.length = BUFSIZE)
    (hsent : request message pBuffer = .ok sent) (c : Connection) (hc : c.received <+: sent) :
    ∃ wire rest, serve (history ++ [c]) b = .ok (wires ++ [wire], rest) ∧
      ∀ received, received <+: wire → echoclient message pBuffer received =
        .ok (if received = message.take c.received.length ++ [0] then
          message.take c.received.length else message) := by
  obtain ⟨hstart, hlen⟩ := request_eq hsent
  obtain ⟨junk, hjunk⟩ := hstart
  have hend : sent = message ++ 0 :: junk := by
    rw [← hjunk, List.append_assoc, List.singleton_append]
  have hstring : cstring c.received = message.take c.received.length := by
    rw [hend] at hc
    exact cstring_of_start hm hc
  have hends : c.Ends := by
    obtain hlt | heq := Nat.lt_or_eq_of_le c.le
    · exact .inr hlt
    · have hall : c.received = sent := hc.eq_of_length (heq.trans (hlen.trans hp).symm)
      rw [Connection.Ends, hall, hend]
      exact .inl (List.mem_append_right _ List.mem_cons_self)
  obtain ⟨rest, hrun⟩ := answers.concat hb hserve hends
  refine ⟨c.answer, rest, hrun, ?_⟩
  intro received hreceived
  rw [Connection.answer, hstring] at hreceived
  have hpart := hreceived.trans (List.take_prefix _ _)
  split_ifs with hwhole
  · rw [hwhole]
    apply echoclient_of_string hsent
    · exact fun hmem => hm (List.mem_of_mem_take hmem)
    · exact List.length_take_le' _ _
  · obtain heq | hpart := List.prefix_concat_iff.mp hpart
    · exact absurd heq hwhole
    · apply echoclient_of_start hm hsent
      rw [hend]
      exact hpart.trans ((List.take_prefix _ _).trans (List.prefix_append _ _))

/-- The server reads two of the three characters. -/
def cutHi : Connection := ⟨ascii "Hi", by decide, some 4096, true⟩

theorem echo_session_hi : ∃ wire rest,
    serve ([] ++ [cutHi]) (List.replicate BUFSIZE 0) = .ok ([] ++ [wire], rest) ∧
      ∀ received, received <+: wire →
        echoclient (ascii "Hi!") (List.replicate BUFSIZE 0) received =
          .ok (if received = (ascii "Hi!").take 2 ++ [0] then (ascii "Hi!").take 2
            else ascii "Hi!") := by
  have hlen : (List.replicate BUFSIZE (0 : Byte)).length = BUFSIZE := List.length_replicate
  refine echo_session [] _ _ [] hlen rfl (ascii "Hi!") _ _ (by decide) hlen (strcpy_of_lt ?_) cutHi
    ⟨ascii "!" ++ 0 :: List.replicate 4092 0, ?_⟩
  · rw [hlen]
    decide
  · rw [overlay, List.drop_replicate]
    rfl

end IntroOS.Echo
