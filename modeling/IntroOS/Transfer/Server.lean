import IntroOS.Gfserver.Transfer

/-!
# The transfer server

Model of `pr1/transfer/transferserver.c` behind `accept` (lines 178–200): the file goes to the
peer block by block. The value of `send` is compared with zero only, so the next block comes
also when the peer has not accepted all of this one. The README calls this wrong (lines 125–151).

The socket is that of `Gfserver.Model`, and `send` does what `write` does there. `fread` delivers
4096 bytes unless the file ends before. The listening socket is left out.

Main results:

* `sendBlocks_spec`: what the inner loop puts on the connection.
* `sent_before_close_iff`: the whole file exactly if every `send` accepts its whole block.
* `transferserver_wire`: nothing comes behind the first `close`, the process only goes round.
-/

namespace IntroOS.Transfer

open CString
open Gfserver (Sock WriteResults accepts write write_wire)

/-! ## Model -/

/-- `BUFSIZE` (line 45). -/
def BUFSIZE : ℕ := 4096

/-- `send(hSocket, data, len, 0)`. -/
def send (io : WriteResults) (s : Sock) (data : List Byte) : ℤ × Sock := write io s data

/-- `close(hSocket)`. -/
def close (s : Sock) : Sock := { s with closes := s.closes + 1 }

/-- The variables of `main` behind `accept`. -/
structure Server where
  /-- what `fread` has not delivered yet -/
  fd : List Byte
  hSocket : Sock
  deriving DecidableEq, Repr

/-- The inner loop (lines 184–192). It is an error when `main` returns. -/
def sendBlocks (io : WriteResults) (p : Server) : Except Server Server :=
  let pBuffer := p.fd.take BUFSIZE
  if 0 < pBuffer.length then
    let r := send io p.hSocket pBuffer
    if r.1 < 0 then .error ⟨p.fd.drop BUFSIZE, r.2⟩
    else sendBlocks io ⟨p.fd.drop BUFSIZE, r.2⟩
  else .ok p
termination_by p.fd.length
decreasing_by
  have hpos : 0 < (p.fd.take BUFSIZE).length := ‹_›
  rw [List.length_take] at hpos
  rw [List.length_drop]
  omega

/-- The body of `for(;;)` (lines 179–199). -/
def serverRound (io : WriteResults) (p : Server) : Except Server Server :=
  (sendBlocks io p).map fun p => { p with hSocket := close p.hSocket }

/-- `for(;;)` after some rounds. -/
def transferserver (io : WriteResults) (file : List Byte) : ℕ → Except Server Server
  | 0 => .ok ⟨file, Sock.new⟩
  | n + 1 => (transferserver io file n).bind (serverRound io)

/-! ## The blocks -/

/-- Every `send` accepts its whole block, from the `n`-th one. -/
def NoShortSend (io : WriteResults) (file : List Byte) (n : ℕ) : Prop :=
  ∀ k, ((file.drop (k * BUFSIZE)).take BUFSIZE).length ≤ accepts io (n + k)

section Blocks

variable {io : WriteResults} {file : List Byte} {n : ℕ} {p : Server}

theorem noShortSend_nil : NoShortSend io [] n := by
  intro k
  rw [List.drop_nil, List.take_nil]
  exact Nat.zero_le _

/-- The first block and the others. -/
theorem noShortSend_block :
    NoShortSend io file n ↔
      (file.take BUFSIZE).length ≤ accepts io n ∧ NoShortSend io (file.drop BUFSIZE) (n + 1) := by
  have hshift : ∀ k, ((file.drop BUFSIZE).drop (k * BUFSIZE)).take BUFSIZE =
      (file.drop ((k + 1) * BUFSIZE)).take BUFSIZE := by
    intro k
    rw [List.drop_drop, Nat.add_comm, ← Nat.succ_mul]
  unfold NoShortSend
  rw [← Nat.and_forall_add_one]
  simp only [hshift, Nat.zero_mul, List.drop_zero, Nat.add_zero, Nat.add_assoc, Nat.add_comm 1]

/-- Bytes of two parts in their order: they are all if they are all of each part. -/
theorem append_eq_append_of_sublist {u v x y : List Byte} (hu : u.Sublist x) (hv : v.Sublist y) :
    u ++ v = x ++ y ↔ u = x ∧ v = y := by
  constructor
  · intro h
    have hlen := congrArg List.length h
    rw [List.length_append, List.length_append] at hlen
    have hule := hu.length_le
    have hvle := hv.length_le
    exact ⟨hu.eq_of_length (by omega), hv.eq_of_length (by omega)⟩
  · rintro ⟨rfl, rfl⟩
    rfl

/-- What the inner loop has put on the connection when the process closes it; when `main`
    returns instead, some `send` has not accepted its block. -/
theorem sendBlocks_spec (hopen : p.hSocket.closed = false) :
    (∃ q u, sendBlocks io p = .ok q ∧ q.fd = [] ∧ q.hSocket.closed = false ∧
      q.hSocket.wire = p.hSocket.wire ++ u ∧ u.Sublist p.fd ∧
      (u = p.fd ↔ NoShortSend io p.fd p.hSocket.calls)) ∨
    (∃ q, sendBlocks io p = .error q) ∧ ¬ NoShortSend io p.fd p.hSocket.calls := by
  fun_induction sendBlocks io p with
  | case1 p pBuffer hpos r hneg =>
    refine Or.inr ⟨⟨_, rfl⟩, fun hno => ?_⟩
    have hacc : pBuffer.length ≤ accepts io p.hSocket.calls := (noShortSend_block.mp hno).1
    have hall : r.1 = pBuffer.length :=
      (Gfserver.write_complete_iff hopen (List.ne_nil_of_length_pos hpos)).mpr hacc
    omega
  | case2 p pBuffer hpos r hnonneg ih =>
    obtain ⟨hwire, hclosed, hcalls⟩ := @write_wire io p.hSocket pBuffer hopen
    have hwhole : pBuffer.take (accepts io p.hSocket.calls) = pBuffer ↔
        pBuffer.length ≤ accepts io p.hSocket.calls := List.take_eq_self_iff pBuffer
    have hrest := ih hclosed
    simp only [show r.2.calls = p.hSocket.calls + 1 from hcalls] at hrest
    rcases hrest with ⟨q, u, heq, hfd, hq, hqwire, hsub, hiff⟩ | ⟨herr, hshort⟩
    · have hparts := append_eq_append_of_sublist
        (List.take_sublist (accepts io p.hSocket.calls) pBuffer) hsub
      rw [List.take_append_drop] at hparts
      refine Or.inl ⟨q, pBuffer.take (accepts io p.hSocket.calls) ++ u, heq, hfd, hq, ?_, ?_, ?_⟩
      · rw [hqwire, ← List.append_assoc]
        exact congrArg (· ++ u) hwire
      · have happend := (List.take_sublist (accepts io p.hSocket.calls) pBuffer).append hsub
        rwa [List.take_append_drop] at happend
      · rw [hparts, hwhole, hiff]
        exact noShortSend_block.symm
    · exact Or.inr ⟨herr, fun hno => hshort (noShortSend_block.mp hno).2⟩
  | case3 p pBuffer hzero =>
    have hnil : p.fd = [] := by
      have hlen : (p.fd.take BUFSIZE).length = 0 := Nat.eq_zero_of_not_pos hzero
      rw [List.length_take, BUFSIZE] at hlen
      exact List.length_eq_zero_iff.mp (by omega)
    refine Or.inl ⟨p, [], rfl, hnil, hopen, (List.append_nil _).symm, List.nil_sublist _, ?_⟩
    rw [hnil]
    exact iff_of_true rfl noShortSend_nil

end Blocks

/-! ## The process -/

/-- The bytes that the process has put on the connection when it closes it are the file exactly
    if every `send` accepts its whole block. -/
theorem sent_before_close_iff (io : WriteResults) (file : List Byte) :
    (∃ p, sendBlocks io ⟨file, Sock.new⟩ = .ok p ∧ p.hSocket.closed = false ∧
      p.hSocket.wire = file) ↔
    ∀ k, ((file.drop (k * BUFSIZE)).take BUFSIZE).length ≤ accepts io k := by
  have hcond : NoShortSend io file 0 ↔
      ∀ k, ((file.drop (k * BUFSIZE)).take BUFSIZE).length ≤ accepts io k := by
    simp only [NoShortSend, Nat.zero_add]
  rw [← hcond]
  rcases @sendBlocks_spec io ⟨file, Sock.new⟩ rfl with
    ⟨q, u, heq, -, hopen, hwire, -, hiff⟩ | ⟨⟨q, heq⟩, hshort⟩
  · rw [← show u = file ↔ NoShortSend io file 0 from hiff, heq]
    constructor
    · rintro ⟨p, hp, -, hfile⟩
      cases hp
      exact hwire.symm.trans hfile
    · intro hu
      exact ⟨q, rfl, hopen, hwire.trans hu⟩
  · refine iff_of_false ?_ hshort
    rintro ⟨p, hp, -⟩
    rw [heq] at hp
    cases hp

/-- With positive results the process closes the connection, whatever it has lost. -/
theorem sendBlocks_ok (io : WriteResults) (hio : ∀ n, ∃ k, 0 < k ∧ io n = some k) (p : Server)
    (hopen : p.hSocket.closed = false) : ∃ q, sendBlocks io p = .ok q := by
  fun_induction sendBlocks io p with
  | case1 p pBuffer hpos r hneg =>
    obtain ⟨k, -, hk⟩ := hio p.hSocket.calls
    simp only [r, send, write, hopen, hk, Bool.false_eq_true, if_false] at hneg
    omega
  | case2 p pBuffer hpos r hnonneg ih => exact ih (@write_wire io p.hSocket pBuffer hopen).2.1
  | case3 p pBuffer hzero => exact ⟨p, rfl⟩

/-- Behind the first `close` nothing more is put on the connection, though the process goes round
    for ever. -/
theorem transferserver_wire (io : WriteResults) (file : List Byte) {p : Server}
    (h : sendBlocks io ⟨file, Sock.new⟩ = .ok p) (n : ℕ) :
    transferserver io file (n + 1) =
      .ok { p with hSocket := { p.hSocket with closes := p.hSocket.closes + (n + 1) } } := by
  have hfd : p.fd = [] := by
    rcases @sendBlocks_spec io ⟨file, Sock.new⟩ rfl with ⟨q, u, heq, hfd, -⟩ | ⟨⟨q, heq⟩, -⟩
    · rw [h] at heq
      cases heq
      exact hfd
    · rw [h] at heq
      cases heq
  induction n with
  | zero =>
    rw [transferserver, transferserver, Except.bind, serverRound, h]
    rfl
  | succ n ih =>
    have hround : ∀ s : Sock, sendBlocks io ⟨p.fd, s⟩ = .ok ⟨p.fd, s⟩ := by
      intro s
      rw [sendBlocks, hfd, List.take_nil]
      rfl
    rw [transferserver, ih, Except.bind, serverRound, hround]
    rfl

/-- A peer that accepts one byte at a time. -/
theorem short_send_loses :
    ¬ ∀ (io : WriteResults) (file : List Byte), (∀ n, ∃ k, 0 < k ∧ io n = some k) →
      ∃ p, sendBlocks io ⟨file, Sock.new⟩ = .ok p ∧ p.hSocket.closed = false ∧
        p.hSocket.wire = file := by
  intro h
  obtain ⟨p, heq, -, hwire⟩ := h (fun _ => some 1) (ascii "ab") fun _ => ⟨1, by decide, rfl⟩
  have hrun : sendBlocks (fun _ => some 1) ⟨ascii "ab", Sock.new⟩ =
      .ok ⟨[], ⟨ascii "a", 1, 0⟩⟩ := by decide +kernel
  rw [hrun] at heq
  cases heq
  exact absurd hwire (by decide)

end IntroOS.Transfer
