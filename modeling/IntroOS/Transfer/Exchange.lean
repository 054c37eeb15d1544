import IntroOS.Transfer.Client

/-!
# Server and client together

Runs of `transferserver` and `transferclient` one after the other, each server with a file of its
own and all clients with the same output file. In each run any `send` may accept less than its
block or fail, the network may deliver any part of the connection in any pieces, any `recv` may
fail, and any `fwrite` may take less than its bytes. A client whose `fopen` fails crashes in
`fclose`, and leaves the output file as it is for the next one.

Main results:

* `wire_spec`: what a server has put on its connection, also when it returns early.
* `receiveLoop_spec`: what a client has saved, also when it returns early.
* `exchanges_complete_iff`: the output file has the files of all servers behind its earlier content
  exactly if nothing was lost in any of the runs; bytes of one run never stand in for another's.
-/

namespace IntroOS.Transfer

open CString
open Gfserver (Sock WriteResults accepts write_wire)

/-! ## The connection -/

/-- What the peer can receive before the end of the stream, which is the first `close` or, where
    `main` returns, the end of the process. -/
def wire (io : WriteResults) (file : List Byte) : List Byte :=
  match sendBlocks io ⟨file, Sock.new⟩ with
  | .ok p => p.hSocket.wire
  | .error p => p.hSocket.wire

section Connection

variable {io : WriteResults} {p q : Server}

/-- When `main` returns from the inner loop, some of the bytes are missing. -/
theorem sendBlocks_error (hopen : p.hSocket.closed = false) (h : sendBlocks io p = .error q) :
    ∃ u, q.hSocket.wire = p.hSocket.wire ++ u ∧ u.Sublist p.fd ∧ u ≠ p.fd := by
  fun_induction sendBlocks io p with
  | case1 p pBuffer hpos r hneg =>
    obtain rfl := Except.error.inj h
    have hwire : r.2.wire = p.hSocket.wire ++ pBuffer.take (accepts io p.hSocket.calls) :=
      (write_wire hopen).1
    have hshort : ¬ pBuffer.length ≤ accepts io p.hSocket.calls := by
      intro hacc
      have hall : r.1 = pBuffer.length :=
        (Gfserver.write_complete_iff hopen (List.ne_nil_of_length_pos hpos)).mpr hacc
      omega
    have hle : pBuffer.length ≤ p.fd.length := (List.take_sublist _ _).length_le
    refine ⟨_, hwire, (List.take_sublist _ _).trans (List.take_sublist _ _), ?_⟩
    intro hall
    have hlen := congrArg List.length hall
    rw [List.length_take] at hlen
    omega
  | case2 p pBuffer hpos r hnonneg ih =>
    obtain ⟨hwire, hclosed, -⟩ := @write_wire io p.hSocket pBuffer hopen
    obtain ⟨u, hu, hsub, hne⟩ := ih hclosed h
    have hfirst := List.take_sublist (accepts io p.hSocket.calls) pBuffer
    have hparts := append_eq_append_of_sublist hfirst hsub
    have hboth := hfirst.append hsub
    rw [List.take_append_drop] at hparts hboth
    refine ⟨_, ?_, hboth, fun hall => hne (hparts.mp hall).2⟩
    rw [hu, ← List.append_assoc]
    exact congrArg (· ++ u) hwire
  | case3 p pBuffer hzero => cases h

end Connection

/-- The connection carries bytes of the file in their order; all of them exactly if every `send`
    accepts its whole block. -/
theorem wire_spec (io : WriteResults) (file : List Byte) :
    (wire io file).Sublist file ∧ (wire io file = file ↔ NoShortSend io file 0) := by
  rcases @sendBlocks_spec io ⟨file, Sock.new⟩ rfl with
    ⟨q, u, heq, -, -, hwire, hsub, hiff⟩ | ⟨⟨q, heq⟩, hshort⟩
  · have hu : wire io file = u := by
      rw [wire, heq]
      exact hwire
    rw [hu]
    exact ⟨hsub, hiff⟩
  · obtain ⟨u, hwire, hsub, hne⟩ := @sendBlocks_error io ⟨file, Sock.new⟩ q rfl heq
    have hu : wire io file = u := by
      rw [wire, heq]
      exact hwire
    rw [hu]
    exact ⟨hsub, iff_of_false hne hshort⟩

/-! ## The output file -/

/-- What the calls of `recv` return before the first one that returns nothing or fails. -/
def arrived : List (Option (List Byte)) → List (List Byte)
  | some pBuffer :: recvs => if pBuffer.length = 0 then [] else pBuffer :: arrived recvs
  | _ => []

/-- Every `fwrite` takes all that has arrived, from the `n`-th one. -/
def NoShortWrite (fwrites : ℕ → ℕ) (recvs : List (Option (List Byte))) (n : ℕ) : Prop :=
  ∀ k chunk, (arrived recvs)[k]? = some chunk → chunk.length ≤ fwrites (n + k)

section OutputFile

variable {fwrites : ℕ → ℕ} {recvs : List (Option (List Byte))} {chunk : List Byte} {n : ℕ}

theorem noShortWrite_of_end (h : arrived recvs = []) : NoShortWrite fwrites recvs n := by
  intro k chunk hk
  rw [h] at hk
  cases hk

/-- The first call and the others. -/
theorem noShortWrite_cons (hne : chunk.length ≠ 0) :
    NoShortWrite fwrites (some chunk :: recvs) n ↔
      chunk.length ≤ fwrites n ∧ NoShortWrite fwrites recvs (n + 1) := by
  unfold NoShortWrite
  rw [← Nat.and_forall_add_one, arrived, if_neg hne]
  apply and_congr
  · simp
  · apply forall_congr'
    intro k
    rw [List.getElem?_cons_succ, show n + (k + 1) = n + 1 + k by omega]

/-- The client saves what has arrived as far as `fwrite` takes it. -/
theorem receiveLoop_spec (fwrites : ℕ → ℕ) (recvs : List (Option (List Byte))) (n : ℕ)
    (out : List Byte) :
    ∃ v, receiveLoop fwrites recvs n out = out ++ v ∧ v <+: (arrived recvs).flatten ∧
      (v = (arrived recvs).flatten ↔ NoShortWrite fwrites recvs n) := by
  induction recvs generalizing n out with
  | nil =>
    exact ⟨[], (List.append_nil _).symm, List.nil_prefix,
      iff_of_true rfl (noShortWrite_of_end rfl)⟩
  | cons r recvs ih =>
    cases r with
    | none =>
      exact ⟨[], (List.append_nil _).symm, List.nil_prefix,
        iff_of_true rfl (noShortWrite_of_end rfl)⟩
    | some pBuffer =>
      rw [receiveLoop]
      by_cases hend : pBuffer.length = 0
      · have hnone : arrived (some pBuffer :: recvs) = [] := by rw [arrived, if_pos hend]
        rw [if_pos hend, hnone]
        exact ⟨[], (List.append_nil _).symm, List.nil_prefix,
          iff_of_true rfl (noShortWrite_of_end hnone)⟩
      · rw [if_neg hend, noShortWrite_cons hend, arrived, if_neg hend, List.flatten_cons]
        dsimp only
        split_ifs with hshort
        · refine ⟨_, rfl, (List.take_prefix _ _).trans (List.prefix_append _ _), ?_⟩
          apply iff_of_false
          · intro hall
            have hlen := congrArg List.length hall
            rw [List.length_take, List.length_append] at hlen
            omega
          · rintro ⟨hle, -⟩
            omega
        · obtain ⟨v, hv, hpre, hiff⟩ := ih (n + 1) (out ++ pBuffer)
          have hle : pBuffer.length ≤ fwrites n := by omega
          rw [List.take_of_length_le (by omega), hv, List.append_assoc]
          refine ⟨_, rfl, (List.prefix_append_right_inj _).mpr hpre, ?_⟩
          rw [List.append_cancel_left_eq, hiff]
          exact (and_iff_right hle).symm

end OutputFile

/-! ## Runs of both -/

/-- A run of a server and a client. -/
structure Exchange where
  file : List Byte
  io : WriteResults
  /-- whether `fopen` succeeds -/
  opens : Bool
  recvs : List (Option (List Byte))
  fwrites : ℕ → ℕ
  /-- The network keeps the order and adds nothing. -/
  delivered : (arrived recvs).flatten <+: wire io file

/-- The clients' output file behind some runs; one that crashes leaves it as it was. -/
def exchanges : List Exchange → Option (List Byte) → Option (List Byte)
  | [], file => file
  | x :: xs, file =>
    match transferclient x.opens x.recvs x.fwrites file with
    | .ok out => exchanges xs (some out)
    | .error _ => exchanges xs file

/-- Nothing is lost in a run. -/
structure Exchange.Complete (x : Exchange) : Prop where
  opened : x.opens = true ∨ x.file = []
  /-- every `send` accepts its whole block -/
  sent : ∀ k, ((x.file.drop (k * BUFSIZE)).take BUFSIZE).length ≤ accepts x.io k
  received : (arrived x.recvs).flatten = wire x.io x.file
  /-- every `fwrite` takes its whole chunk -/
  written : ∀ k chunk, (arrived x.recvs)[k]? = some chunk → chunk.length ≤ x.fwrites k

section Runs

variable {x : Exchange} {earlier : Option (List Byte)}

theorem Exchange.complete_iff :
    x.Complete ↔ (x.opens = true ∨ x.file = []) ∧ NoShortSend x.io x.file 0 ∧
      (arrived x.recvs).flatten = wire x.io x.file ∧ NoShortWrite x.fwrites x.recvs 0 := by
  simp only [NoShortSend, NoShortWrite, Nat.zero_add]
  constructor
  · exact fun h => ⟨h.opened, h.sent, h.received, h.written⟩
  · exact fun h => ⟨h.1, h.2.1, h.2.2.1, h.2.2.2⟩

/-- What `arrived` gives has no empty pieces. -/
theorem arrived_eq_nil {recvs : List (Option (List Byte))} (h : (arrived recvs).flatten = []) :
    arrived recvs = [] := by
  cases recvs with
  | nil => rfl
  | cons r recvs =>
    cases r with
    | none => rfl
    | some pBuffer =>
      rw [arrived] at h ⊢
      split_ifs at h ⊢ with hend
      · rfl
      · rw [List.flatten_cons, List.append_eq_nil_iff] at h
        exact absurd (List.length_eq_zero_iff.mpr h.1) hend

/-- Nothing can be lost of an empty file. -/
theorem Exchange.complete_of_empty (h : x.file = []) : x.Complete := by
  obtain ⟨hsub, hsent⟩ := wire_spec x.io x.file
  rw [h] at hsub hsent
  have hwire : wire x.io [] = [] := List.sublist_nil.mp hsub
  have hflat : (arrived x.recvs).flatten = [] := by
    have hdelivered := x.delivered
    rw [h, hwire] at hdelivered
    exact List.prefix_nil.mp hdelivered
  rw [Exchange.complete_iff, h, hwire]
  exact ⟨.inr rfl, hsent.mp hwire, hflat, noShortWrite_of_end (arrived_eq_nil hflat)⟩

/-- What a client adds to the output file that it has opened. -/
theorem transferclient_spec (hopens : x.opens = true) (earlier : Option (List Byte)) :
    ∃ v, transferclient x.opens x.recvs x.fwrites earlier = .ok (earlier.getD [] ++ v) ∧
      v.Sublist x.file ∧ (v = x.file ↔ x.Complete) := by
  obtain ⟨v, hv, hpre, hwritten⟩ := receiveLoop_spec x.fwrites x.recvs 0 (fopen .a earlier)
  obtain ⟨hsub, hsent⟩ := wire_spec x.io x.file
  refine ⟨v, ?_, (hpre.trans x.delivered).sublist.trans hsub, ?_⟩
  · rw [transferclient, receiveTo, if_pos hopens, hv]
    rfl
  · rw [Exchange.complete_iff, ← hsent, ← hwritten]
    constructor
    · intro hall
      have hwire : wire x.io x.file = x.file :=
        hsub.antisymm (hall ▸ (hpre.trans x.delivered).sublist)
      have harrived : (arrived x.recvs).flatten = x.file :=
        (x.delivered.sublist.trans hsub).antisymm (hall ▸ hpre.sublist)
      exact ⟨.inl hopens, hwire, harrived.trans hwire.symm, hall.trans harrived.symm⟩
    · rintro ⟨-, hwire, harrived, hall⟩
      rw [hall, harrived, hwire]

/-- What a run does to the output file: one that cannot open it adds nothing. -/
theorem exchanges_cons (x : Exchange) (earlier : Option (List Byte)) :
    ∃ v file, (∀ xs, exchanges (x :: xs) earlier = exchanges xs file) ∧
      file.getD [] = earlier.getD [] ++ v ∧ v.Sublist x.file ∧ (v = x.file ↔ x.Complete) := by
  by_cases hopens : x.opens = true
  · obtain ⟨v, hv, hsub, hiff⟩ := transferclient_spec hopens earlier
    refine ⟨v, some (earlier.getD [] ++ v), fun xs => ?_, rfl, hsub, hiff⟩
    rw [exchanges, hv]
  · refine ⟨[], earlier, fun xs => ?_, (List.append_nil _).symm, List.nil_sublist _, ?_⟩
    · rw [exchanges, transferclient, receiveTo, if_neg hopens]
    · constructor
      · exact fun hempty => Exchange.complete_of_empty hempty.symm
      · exact fun hcomplete => (hcomplete.opened.resolve_left hopens).symm

end Runs

/-- Behind the earlier content of the output file there are bytes of the servers' files in their
    order; they are all of them exactly if nothing was lost in any run. -/
theorem exchanges_complete_iff (xs : List Exchange) (earlier : Option (List Byte)) :
    ∃ v, (exchanges xs earlier).getD [] = earlier.getD [] ++ v ∧
      v.Sublist (xs.map (·.file)).flatten ∧
      (v = (xs.map (·.file)).flatten ↔ ∀ x ∈ xs, x.Complete) := by
  induction xs generalizing earlier with
  | nil =>
    exact ⟨[], (List.append_nil _).symm, List.nil_sublist _,
      iff_of_true rfl fun _ hx => absurd hx List.not_mem_nil⟩
  | cons x xs ih =>
    obtain ⟨v, file, hrest, hfile, hsub, hiff⟩ := exchanges_cons x earlier
    obtain ⟨w, hw, hsubs, hiffs⟩ := ih file
    refine ⟨v ++ w, ?_, hsub.append hsubs, ?_⟩
    · rw [hrest, hw, hfile, List.append_assoc]
    · rw [List.forall_mem_cons, ← hiff, ← hiffs]
      exact append_eq_append_of_sublist hsub hsubs

/-- A byte of the first file is lost; the second file comes behind it. -/
example : exchanges
    [⟨ascii "ab", fun _ => some 1, true, [some (ascii "a")], fun _ => 4096, by decide +kernel⟩,
      ⟨ascii "c", fun _ => some 1, true, [some (ascii "c")], fun _ => 4096, by decide +kernel⟩] none =
    some (ascii "ac") := rfl

end IntroOS.Transfer
