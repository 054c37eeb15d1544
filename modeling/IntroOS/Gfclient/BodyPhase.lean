import IntroOS.Gfclient.Truncation

/-!
# The body phase behind a whole header

The header arrives in `recv` results of its own, and none of them starts inside its four terminator
bytes. Then every later `recv` result is handed to the write callback as it is, and the client stops
at the first one that makes its count equal to the announced length. The count is a `size_t`.

Main results:

* `perform_body_hits`, `perform_body_misses`: the two ways in which the body phase ends.
* `body_phase_exact`: what a request does, when bytes are counted modulo 2^64.
* `body_phase_of_lt`: fewer than 2^64 bytes are counted exactly.
-/

namespace IntroOS.Gfclient

open CString Concurrency

/-! ## The body phase -/

section Body

variable {cfg : Config} {e : Ending} {c : Chunk} {cs done rest : List Chunk} {l : StrLocals}
  {v : View} {n : ℕ}

theorem perform_body_hits (hl : l.headercheck = true)
    (hmiss : ¬ HitsLength v.filelen l.bytesReceivedFILE done)
    (hhit : sizeT (l.bytesReceivedFILE + (received (done ++ [c])).length) = v.filelen) :
    perform cfg e (done ++ c :: rest) l v =
      .ok (0, v.afterChunks cfg (sizeT (l.bytesReceivedTotal + (received (done ++ [c])).length))
        (done ++ [c])) := by
  induction done generalizing l v with
  | nil =>
    simp only [List.nil_append, received_cons, received_nil, List.append_nil] at hhit ⊢
    rw [perform_body_cons hl, if_pos hhit]
    simp [View.afterBody, View.afterChunks, hhit]
  | cons d done ih =>
    rw [hitsLength_cons, not_or] at hmiss
    rw [List.cons_append, received_cons, List.length_append, Nat.cast_add, ← add_assoc] at hhit
    have hrest := ih (l := l.count d.data.length)
      (v := v.afterBody cfg (sizeT (l.bytesReceivedTotal + d.data.length))
        (sizeT (l.bytesReceivedFILE + d.data.length)) d.data) hl hmiss.2
      (by simp only [StrLocals.count, View.afterBody, sizeT_add_right]; exact hhit)
    rw [List.cons_append, perform_body_cons hl, if_neg hmiss.1, hrest]
    simp only [StrLocals.count, sizeT_add_right]
    simp [View.afterBody, View.afterChunks, add_assoc]

/-- The announced length is never hit: all chunks are counted when the stream ends. -/
theorem perform_body_misses (hl : l.headercheck = true)
    (hmiss : ¬ HitsLength v.filelen l.bytesReceivedFILE cs)
    (hfile : v.bytesFileReceived = sizeT l.bytesReceivedFILE) :
    ∃ l' v', perform cfg e cs l v = strRecvEnd e l' v' ∧ l'.fullData = l.fullData ∧
      v'.status = v.status ∧ v'.filelen = v.filelen ∧
      v'.bytesFileReceived = sizeT (l.bytesReceivedFILE + (received cs).length) ∧
      v'.log = v.log ++ cs.map fun c => cfg.writeCall c.data := by
  induction cs generalizing l v with
  | nil => exact ⟨l, v, rfl, rfl, rfl, rfl, by simpa using hfile, by simp⟩
  | cons c cs ih =>
    rw [hitsLength_cons, not_or] at hmiss
    obtain ⟨l', v', hrun, hdata, hstatus, hfilelen, hcount, hlog⟩ :=
      ih (l := l.count c.data.length)
        (v := v.afterBody cfg (sizeT (l.bytesReceivedTotal + c.data.length))
          (sizeT (l.bytesReceivedFILE + c.data.length)) c.data) hl hmiss.2
        (sizeT_natCast (sizeT_lt _)).symm
    refine ⟨l', v', ?_, hdata, hstatus, hfilelen, ?_, ?_⟩
    · rw [perform_body_cons hl, if_neg hmiss.1, hrun]
    · rw [hcount, StrLocals.count, sizeT_add_right, received_cons, List.length_append, Nat.cast_add,
        add_assoc]
    · rw [hlog, View.afterBody, List.map_cons, List.append_assoc]
      rfl

/-- At the end the header is parsed once more, with the same results. -/
theorem strRecvEnd_okHeader (hF : l.fullData = Gfserver.okHeader n)
    (hfilelen : v.filelen = sizeT (atol (decimal n))) :
    ∃ v', strRecvEnd e l v = .ok (-1, v') ∧ v'.status = v.status ∧ v'.filelen = v.filelen ∧
      v'.bytesFileReceived = v.bytesFileReceived ∧ v'.log = v.log := by
  cases e with
  | error => exact ⟨_, rfl, rfl, rfl, rfl, rfl⟩
  | close =>
    have hscheme : token (ascii " ") l.fullData =
        some (ascii "GETFILE", ascii "OK " ++ (decimal n ++ ascii " \r\n\r\n")) := by
      rw [hF, Gfserver.okHeader, List.append_assoc]
      exact token_scheme (ascii "OK " ++ _)
    have hstatus : token (ascii " ") (ascii "OK " ++ (decimal n ++ ascii " \r\n\r\n")) =
        some (ascii "OK", decimal n ++ ascii " \r\n\r\n") :=
      token_front (t := ascii "OK") (y := 32) (by decide) (by decide +kernel) (by decide)
    have hlength : token (ascii " \r\n") (decimal n ++ ascii " \r\n\r\n") =
        some (decimal n, ascii "\r\n\r\n") :=
      token_front (y := 32) (decimal_ne_nil n) (fun a ha => (decimal_not_mem ha).1) (by decide)
    obtain ⟨h1, h2⟩ := firstToken_of_token hscheme
    obtain ⟨h3, h4⟩ := firstToken_of_token hstatus
    unfold strRecvEnd
    simp only [h1, h2, h3, h4, (firstToken_of_token hlength).1, ← hfilelen, and_self, if_true]
    exact ⟨_, rfl, rfl, rfl, rfl, rfl⟩

end Body

/-! ## The header phase -/

/-- The chunks `pre` are the header of the server for the length `n`, cut at will in front of its
    terminator. -/
structure WholeHeader (n : ℕ) (pre : List Chunk) : Prop where
  whole : received pre = Gfserver.okHeader n
  cuts : ∀ p, p <+: pre → (received p).length + 4 ≤ (Gfserver.okHeader n).length ∨
    received p = Gfserver.okHeader n

/-- What a request has done before its first `recv`. -/
def Config.sendLog (cfg : Config) : List Event := [.created ⟨0, 0⟩, .sent (clientscheme cfg.path)]

theorem WholeHeader.performed {n : ℕ} {pre : List Chunk} (h : WholeHeader n pre) (hn : n < 2 ^ 63)
    (cfg : Config) (e : Ending) (cs : List Chunk) :
    ∃ l v, performRequest cfg ⟨pre ++ cs, e⟩ ⟨0, 0⟩ = perform cfg e cs l v ∧
      l.headercheck = true ∧ l.fullData = Gfserver.okHeader n ∧ l.bytesReceivedFILE = 0 ∧
      v.status = .ok ∧ v.filelen = n ∧ v.bytesFileReceived = 0 ∧ v.log = cfg.sendLog := by
  obtain rfl | ⟨pre, c, rfl⟩ := List.eq_nil_or_concat' pre
  · have hlen := congrArg List.length h.whole
    rw [okHeader_length, received_nil, List.length_nil] at hlen
    omega
  have hreceived := h.whole
  rw [received_append, received_cons, received_nil, List.append_nil] at hreceived
  have hlen := congrArg List.length hreceived
  have hpos := c.length_pos
  rw [List.length_append] at hlen
  -- the last chunk of the header brings at least its terminator
  have hk : (received pre).length + 4 ≤ (Gfserver.okHeader n).length := by
    obtain hk | hk := h.cuts pre (List.prefix_append ..)
    · exact hk
    · rw [hk] at hlen
      omega
  have hpre : received pre = (Gfserver.okHeader n).take (received pre).length := by
    rw [← hreceived, List.take_left]
  have hc : c.data = (Gfserver.okHeader n).drop (received pre).length ++ [] := by
    rw [← hreceived, List.drop_left, List.append_nil]
  have hshort := okHeader_length_le (n := n) (by omega)
  have hclean : c.data.length < BUFSIZE ∨ 0 ∈ c.data := by
    unfold BUFSIZE
    omega
  have hfilelen : sizeT (atol (decimal n)) = n := by
    rw [filelen_decimal]
    omega
  obtain ⟨v₁, hv₁, hlog, hfile⟩ := perform_received cfg e pre (c :: cs)
    (View.initial ⟨0, 0⟩ cfg.path) (by omega) hk hpre
  rw [perform_whole (by omega) hk hc hclean, List.takeWhile_nil, firstToken_nil] at hv₁
  refine ⟨⟨Gfserver.okHeader n ++ [], true, (received pre).length + c.data.length, 0⟩,
    v₁.accepted n ((received pre).length + c.data.length), ?_, rfl, List.append_nil _, rfl, rfl,
    hfilelen, hfile, hlog⟩
  rw [performRequest, List.append_assoc]
  exact hv₁

theorem length_received_mono {p cs : List Chunk} (h : p <+: cs) :
    (received p).length ≤ (received cs).length := by
  obtain ⟨q, rfl⟩ := h
  rw [received_append, List.length_append]
  exact Nat.le_add_right ..

/-! ## The whole request -/

/-- What a request does with the chunks `cs` behind the header, when `count` says how many bytes it
    counts: it returns 0 with the first chunk at which these are `n`, and otherwise fails at the
    end; each chunk is written as it is. -/
structure BodyPhase (count : List Chunk → ℕ) (n : ℕ) (cfg : Config) (cs : List Chunk)
    (res : Except Fault (Outcome × List Event)) : Prop where
  hits : ∀ done c rest, cs = done ++ c :: rest → (∀ p, p ≠ [] → p <+: done → count p ≠ n) →
    count (done ++ [c]) = n → ∃ recvTotal, res = .ok (⟨0, .ok, n, n, recvTotal⟩,
      cfg.sendLog ++ (done ++ [c]).map fun c => cfg.writeCall c.data)
  misses : (∀ p, p ≠ [] → p <+: cs → count p ≠ n) →
    ∃ recvTotal, res = .ok (⟨-1, .ok, n, count cs, recvTotal⟩,
      cfg.sendLog ++ cs.map fun c => cfg.writeCall c.data)

theorem not_hitsLength {n : ℕ} {cs : List Chunk} (h : ∀ p, p ≠ [] → p <+: cs → counted p ≠ n) :
    ¬ HitsLength n 0 cs := by
  rintro ⟨p, hne, hp, hlen⟩
  rw [Nat.cast_zero, zero_add] at hlen
  exact h p hne hp hlen

theorem body_phase_exact (n : ℕ) (hn : n < 2 ^ 63) (pre cs : List Chunk) (e : Ending)
    (junk : Gfcrequest) (cfg : Config) (hpre : WholeHeader n pre) :
    BodyPhase counted n cfg cs (request junk cfg ⟨pre ++ cs, e⟩) := by
  obtain ⟨l, v, hrun, hl, hF, hfile, hstatus, hfilelen, hreceived, hlog⟩ :=
    hpre.performed hn cfg e cs
  refine ⟨fun done c rest hcs hmiss hhit => ?_, fun hmiss => ?_⟩
  · have hhits := @perform_body_hits cfg e c done rest l v hl
      (by rw [hfilelen, hfile]; exact not_hitsLength hmiss)
      (by rw [hfilelen, hfile, Nat.cast_zero, zero_add]; exact hhit)
    rw [request_eq, hrun, hcs, hhits]
    refine ⟨sizeT (l.bytesReceivedTotal + (received (done ++ [c])).length), ?_⟩
    simp only [Except.map, View.outcome, View.afterChunks, hstatus, hfilelen, hlog]
  · obtain ⟨l', v₁, hmisses, hF', hstatus₁, hfilelen₁, hcount, hlog₁⟩ :=
      @perform_body_misses cfg e cs l v hl
        (by rw [hfilelen, hfile]; exact not_hitsLength hmiss)
        (by rw [hreceived, hfile]; exact (sizeT_natCast (by norm_num)).symm)
    have hdecimal : sizeT (atol (decimal n)) = n := by
      rw [filelen_decimal]
      omega
    obtain ⟨v', hend, hstatus', hfilelen', hreceived', hlog'⟩ :=
      @strRecvEnd_okHeader e l' v₁ n (hF'.trans hF)
        (by rw [hfilelen₁, hfilelen, hdecimal])
    rw [hfile, Nat.cast_zero, zero_add] at hcount
    rw [request_eq, hrun, hmisses, hend]
    refine ⟨v'.bytesreceived, ?_⟩
    simp only [Except.map, View.outcome, hstatus', hstatus₁, hstatus, hfilelen', hfilelen₁,
      hfilelen, hreceived', hcount, hlog', hlog₁, hlog]
    rfl

/-- The last chunk brings at least the terminator. -/
theorem WholeHeader.concat {n : ℕ} {pre : List Chunk} {c : Chunk}
    (h : received (pre ++ [c]) = Gfserver.okHeader n) (hc : 4 ≤ c.data.length) :
    WholeHeader n (pre ++ [c]) := by
  refine ⟨h, fun p hp => ?_⟩
  obtain rfl | hp := List.prefix_concat_iff.mp hp
  · exact .inr h
  · left
    have hle := length_received_mono hp
    rw [← h, received_append, received_cons, received_nil, List.append_nil, List.length_append]
    omega

/-- The header for "hi" in three chunks, and the file in one. -/
theorem body_phase_exact_hi :
    let header : List Chunk := [⟨ascii "GETFI", by decide, by decide⟩,
      ⟨ascii "LE OK 2 ", by decide, by decide⟩] ++ [⟨ascii "\r\n\r\n", by decide, by decide⟩]
    let file : Chunk := ⟨ascii "hi", by decide, by decide⟩
    let cfg := downloadConfig (ascii "localhost") (ascii "/a") 8080 2
    BodyPhase counted 2 cfg [file] (request .zeroed cfg ⟨header ++ [file], .close⟩) :=
  body_phase_exact 2 (by decide) _ _ _ _ _ (WholeHeader.concat (by decide +kernel) (by decide))

theorem BodyPhase.congr {count count' : List Chunk → ℕ} {n : ℕ} {cfg : Config} {cs : List Chunk}
    {res : Except Fault (Outcome × List Event)} (h : BodyPhase count n cfg cs res)
    (hcount : ∀ p, p <+: cs → count p = count' p) : BodyPhase count' n cfg cs res where
  hits := by
    rintro done c rest rfl hmiss hhit
    refine h.hits done c rest rfl (fun p hne hp => ?_) ?_
    · rw [hcount p (hp.trans (List.prefix_append ..))]
      exact hmiss p hne hp
    · rw [hcount _ ⟨rest, by simp⟩, hhit]
  misses := fun hmiss => by
    rw [← hcount cs List.prefix_rfl]
    exact h.misses fun p hne hp => hcount p hp ▸ hmiss p hne hp

theorem body_phase_of_lt {n : ℕ} (hn : n < 2 ^ 63) {pre cs : List Chunk} (e : Ending)
    (junk : Gfcrequest) (cfg : Config) (hpre : WholeHeader n pre)
    (hlt : (received cs).length < 2 ^ 64) :
    BodyPhase (fun p => (received p).length) n cfg cs (request junk cfg ⟨pre ++ cs, e⟩) :=
  (body_phase_exact n hn pre cs e junk cfg hpre).congr fun _ hp =>
    sizeT_natCast ((length_received_mono hp).trans_lt hlt)

/-- A chunk that fills `buf`. -/
def fullChunk : Chunk where
  data := List.replicate BUFSIZE 0
  ne_nil := List.ne_nil_of_length_pos (by rw [List.length_replicate]; decide)
  le := (List.length_replicate ..).le

theorem received_replicate (k : ℕ) : (received (List.replicate k fullChunk)).length = k * BUFSIZE := by
  induction k with
  | zero => simp
  | succ k ih =>
    rw [List.replicate_succ, received_cons, List.length_append, ih, fullChunk, List.length_replicate]
    ring

/-- The header announces an empty file, and 2^64 bytes follow: the count is 0 again. -/
theorem body_phase_wraps :
    ¬ ∀ (n : ℕ), n < 2 ^ 63 → ∀ (pre cs : List Chunk) (e : Ending) (junk : Gfcrequest)
      (cfg : Config), WholeHeader n pre → BodyPhase (fun p => (received p).length) n cfg cs
        (request junk cfg ⟨pre ++ cs, e⟩) := by
  intro h
  let done := List.replicate (2 ^ 52 - 1) fullChunk
  let cfg := downloadConfig (ascii "localhost") (ascii "/a") 8080 2
  let header : Chunk := ⟨Gfserver.okHeader 0, by decide +kernel, by decide +kernel⟩
  have hdone : (received done).length = (2 ^ 52 - 1) * 4096 := received_replicate _
  have hheader : WholeHeader 0 ([] ++ [header]) :=
    WholeHeader.concat (by decide +kernel) (by decide +kernel)
  have hpos : ∀ p : List Chunk, p ≠ [] → 0 < (received p).length := by
    intro p hne
    obtain ⟨c, p, rfl⟩ := List.exists_cons_of_ne_nil hne
    rw [received_cons, List.length_append]
    exact Nat.add_pos_left c.length_pos _
  -- the number of bytes itself, without a bound, is never 0
  obtain ⟨t, hunbounded⟩ := (h 0 (by decide) [header] (done ++ [fullChunk]) .close .zeroed cfg
    hheader).misses fun p hne _ => (hpos p hne).ne'
  -- the last chunk makes the count 2^64
  have hmiss : ∀ p : List Chunk, p ≠ [] → p <+: done → counted p ≠ 0 := by
    intro p hne hp
    have hle := length_received_mono hp
    rw [counted, sizeT_natCast (by omega)]
    exact (hpos p hne).ne'
  have hhit : counted (done ++ [fullChunk]) = 0 := by
    have hlast : (received [fullChunk]).length = 4096 := received_replicate 1
    rw [counted, received_append, List.length_append, hdone, hlast]
    decide +kernel
  obtain ⟨t', hcode⟩ := (body_phase_exact 0 (by decide) [header] (done ++ [fullChunk]) .close .zeroed
    cfg hheader).hits done fullChunk [] rfl hmiss hhit
  rw [hunbounded] at hcode
  have hret : (-1 : ℤ) = 0 := congrArg (fun res => res.1.ret) (Except.ok.inj hcode)
  exact absurd hret (by decide)

end IntroOS.Gfclient
