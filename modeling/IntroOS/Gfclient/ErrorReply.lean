import IntroOS.Gfclient.Transfer

/-!
# Replies without content

A reply with the status FILE_NOT_FOUND or ERROR, cut in an arbitrary way. From the eleventh byte on
the client looks at the part of the status that it has received; no proper prefix of the two words
is a status, and the whole word is one even if the space behind it has not arrived.

Main results:

* `strParseHeader_unfinished`: while a part of the reply has arrived, the client waits.
* `error_reply_understood`: `gfc_perform` returns 0 with the status of the reply.
-/

namespace IntroOS.Gfclient

open CString Concurrency

/-- The word of a reply without content, and its status. -/
inductive ErrorReply : List Byte → GfStatus → Prop
  | fileNotFound : ErrorReply (ascii "FILE_NOT_FOUND") .fileNotFound
  | error : ErrorReply (ascii "ERROR") .error

section Reply

variable {cfg : Config} {e : Ending} {w : List Byte} {status : GfStatus} {l : StrLocals} {v : View}

theorem ErrorReply.clean (h : ErrorReply w status) :
    w ≠ [] ∧ 3 ≤ w.length ∧ (∀ a ∈ w, a ∉ ascii " \r\n") ∧ (0 : Byte) ∉ ascii "GETFILE " ++ w := by
  cases h <;> decide +kernel

/-- A proper prefix of the word is no status. -/
theorem ErrorReply.take_ne (h : ErrorReply w status) {j : ℕ} (hj : j < w.length) :
    w.take j ≠ ascii "OK" ∧ w.take j ≠ ascii "FILE_NOT_FOUND" ∧ w.take j ≠ ascii "ERROR" := by
  cases h with
  | fileNotFound =>
    have hall : ∀ j < 14, (ascii "FILE_NOT_FOUND").take j ≠ ascii "OK" ∧
        (ascii "FILE_NOT_FOUND").take j ≠ ascii "FILE_NOT_FOUND" ∧
        (ascii "FILE_NOT_FOUND").take j ≠ ascii "ERROR" := by decide +kernel
    exact hall j hj
  | error =>
    have hall : ∀ j < 5, (ascii "ERROR").take j ≠ ascii "OK" ∧
        (ascii "ERROR").take j ≠ ascii "FILE_NOT_FOUND" ∧
        (ascii "ERROR").take j ≠ ascii "ERROR" := by decide +kernel
    exact hall j hj

/-- The client waits while the word is not complete. -/
theorem strParseHeader_unfinished (h : ErrorReply w status) (cfg : Config) (v : View) {j : ℕ}
    (hj : j < (ascii "GETFILE " ++ w).length) :
    strParseHeader cfg (reading (ascii "GETFILE " ++ w) j) v =
      .ok (.next (reading (ascii "GETFILE " ++ w) j) v) := by
  have h8 : (ascii "GETFILE ").length = 8 := by decide
  rw [List.length_append, h8] at hj
  rcases Nat.lt_or_ge j 8 with h7 | h7
  · unfold strParseHeader
    exact if_neg (by simp only [reading]; omega)
  have hF : (reading (ascii "GETFILE " ++ w) j).fullData = ascii "GETFILE " ++ w.take (j - 8) := by
    rw [reading, List.take_append, h8, List.take_of_length_le (by omega)]
  rcases Nat.lt_or_ge 10 j with h10 | h10
  · obtain ⟨hne, -, hclean, -⟩ := h.clean
    obtain ⟨hok, hfnf, herr⟩ := h.take_ne (j := j - 8) (by omega)
    have htake : w.take (j - 8) ≠ [] := by
      rw [ne_eq, List.take_eq_nil_iff, not_or]
      exact ⟨by omega, hne⟩
    have hword := firstToken_of_token (token_whole htake
      fun a ha => hclean a (List.mem_of_mem_take ha))
    rw [strParseHeader_word hF h10 hword.1, if_neg hok, if_neg hfnf, if_neg herr]
  · exact strParseHeader_scheme hF h10

/-- The word is there. -/
theorem strParseHeader_reply (h : ErrorReply w status) {s : List Byte}
    (hF : l.fullData = ascii "GETFILE " ++ s) (h10 : 10 < l.bytesReceivedTotal)
    (hw : firstToken (ascii " \r\n") s = some w) :
    ∃ data, strParseHeader cfg l v = .ok (.done 0 { v with
      status := status
      log := v.log ++ cfg.headCalls data }) := by
  rw [strParseHeader_word hF h10 hw]
  cases h with
  | fileNotFound =>
    rw [if_neg (by decide), if_pos rfl]
    exact ⟨_, rfl⟩
  | error =>
    rw [if_neg (by decide), if_neg (by decide), if_pos rfl]
    exact ⟨_, rfl⟩

end Reply

/-! ## The whole request -/

/-- `gfc_perform` has returned 0 with `status`, and has not called the write callback. -/
def Understood (status : GfStatus) (res : Except Fault (Outcome × List Event)) : Prop :=
  ∃ o log, res = .ok (o, log) ∧ o.ret = 0 ∧ o.status = status ∧ writes log = []

/-- The chunk that completes the word ends the request. -/
theorem perform_reply {cfg : Config} {e : Ending} {w b : List Byte} {status : GfStatus} {k : ℕ}
    {c : Chunk} {cs : List Chunk} {v : View} (h : ErrorReply w status)
    (hk : k ≤ (ascii "GETFILE " ++ w).length) (hc : c.data = (ascii "GETFILE " ++ w).drop k ++ b)
    (hb : b = [] ∨ ∃ b', b = 32 :: b') (hfull : c.data.length < BUFSIZE)
    (hlt : k + c.data.length < 2 ^ 64) (hv : writes v.log = []) :
    ∃ v', perform cfg e (c :: cs) (reading (ascii "GETFILE " ++ w) k) v = .ok (0, v') ∧
      v'.status = status ∧ writes v'.log = [] := by
  obtain ⟨hne, h3, hclean, h0⟩ := h.clean
  have htotal : 10 < k + c.data.length := by
    have h8 : (ascii "GETFILE ").length = 8 := by decide
    have hlen := congrArg List.length hc
    rw [List.length_append, List.length_drop, List.length_append, h8] at hlen
    omega
  have hword : firstToken (ascii " \r\n") (w ++ b.takeWhile (· ≠ 0)) = some w := by
    obtain rfl | ⟨b', rfl⟩ := hb
    · rw [List.takeWhile_nil, List.append_nil]
      exact (firstToken_of_token (token_whole hne hclean)).1
    · rw [List.takeWhile_cons_of_pos (by decide)]
      exact (firstToken_of_token (token_front hne hclean (by decide))).1
  obtain ⟨data, hparse⟩ := @strParseHeader_reply cfg w status
    ⟨ascii "GETFILE " ++ w ++ b.takeWhile (· ≠ 0), false, k + c.data.length, 0⟩
    { v with bytesreceived := k + c.data.length } h _ (List.append_assoc ..) htotal hword
  rw [perform_reading_whole h0 hlt hk hc (.inl hfull), hparse]
  refine ⟨_, rfl, rfl, ?_⟩
  simp only [writes_append, hv, writes_headCalls, List.append_nil]

theorem error_reply_understood (w : List Byte) (status : GfStatus) (rs : Recvs) (junk : Gfcrequest)
    (cfg : Config) (h : ErrorReply w status)
    (hs : ascii "GETFILE " ++ w ++ ascii " " <+: received rs.chunks)
    (hlt : (received rs.chunks).length < 4096) : Understood status (request junk cfg rs) := by
  obtain ⟨chunks, e⟩ := rs
  obtain ⟨B, hB⟩ := hs
  dsimp only at hB hlt
  obtain ⟨hne, h3, -, h0⟩ := h.clean
  generalize hH : ascii "GETFILE " ++ w = H at hB h0
  rw [List.append_assoc] at hB
  have hpos : 0 < H.length := by
    rw [← hH, List.length_append]
    omega
  obtain ⟨pre, c, post, rfl, hk, hreach⟩ := @exists_crossing chunks (H.length - 1) (by
    rw [← hB, List.length_append]
    omega)
  have hfull : ∀ d ∈ pre ++ c :: post, d.data.length < BUFSIZE := fun d hd =>
    (length_le_received hd).trans_lt hlt
  rw [received_append, received_cons, List.length_append, List.length_append] at hlt
  have hpre := (split_stream hB.symm (by omega)).1
  obtain ⟨b, hc, hBb, -⟩ := split_whole hB.symm (by omega) (by omega)
  -- behind the word there is nothing in this chunk, or the space
  have hspace : b = [] ∨ ∃ b', b = 32 :: b' := by
    cases b with
    | nil => exact .inl rfl
    | cons x b => exact .inr ⟨b, congrArg (· :: b) (List.cons.inj hBb).1.symm⟩
  obtain ⟨v₁, hv₁, hlog, -⟩ := perform_reading (k := 0) cfg e pre (c :: post)
    (View.initial ⟨0, 0⟩ cfg.path) h0 (fun j v hj => ⟨v.status, by
      subst hH
      exact strParseHeader_unfinished h cfg v (by omega)⟩)
    (fun d hd => hfull d (List.mem_append_left _ hd)) (by omega) (by simpa using hpre)
  subst hH
  rw [Nat.zero_add] at hv₁
  obtain ⟨v, hv, hstatus, hwrites⟩ := @perform_reply cfg e w b status _ c post v₁ h (by omega) hc
    hspace (hfull c (by simp)) (by omega) (by rw [hlog]; rfl)
  refine ⟨v.outcome 0, v.log, ?_, rfl, hstatus, hwrites⟩
  rw [request_eq, performRequest]
  exact congrArg (Except.map _) (hv₁.trans hv)

/-- The reply to a malformed request, in three chunks. -/
theorem error_reply_understood_fnf :
    Understood .fileNotFound (request .zeroed (downloadConfig (ascii "localhost") (ascii "/a") 8080 2)
      ⟨[⟨ascii "GETFILE FILE", by decide, by decide⟩, ⟨ascii "_NOT_FOUND", by decide, by decide⟩,
        ⟨ascii "  \r\n\r\n" ++ [0], by decide, by decide⟩], .close⟩) :=
  error_reply_understood (ascii "FILE_NOT_FOUND") .fileNotFound _ _ _ .fileNotFound
    (by decide +kernel) (by decide +kernel)

end IntroOS.Gfclient
