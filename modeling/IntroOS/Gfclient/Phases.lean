import IntroOS.Gfclient.Refinement

/-!
# The two phases of `gfc_perform`

One iteration of `perform` in each phase, and the whole body phase: once the header is
complete, the client counts bytes until it has the announced number.

Main results:

* `perform_body_inv`: if the body phase returns, it returns 0 behind the first chunk that
  makes the count equal to the announced length, or -1 at the end of the stream.
* `perform_body_complete`: a stream that brings exactly the missing bytes is accepted.
* `perform_reading`: a header that arrives in pieces is waited for.
-/

namespace IntroOS.Gfclient

open CString Concurrency

/-- The bytes of some chunks. -/
def received (cs : List Chunk) : List Byte := (cs.map Chunk.data).flatten

@[simp] theorem received_nil : received [] = [] := rfl

@[simp] theorem received_cons (c : Chunk) (cs : List Chunk) :
    received (c :: cs) = c.data ++ received cs := rfl

@[simp] theorem received_append (cs ds : List Chunk) :
    received (cs ++ ds) = received cs ++ received ds := by
  simp [received]

theorem Chunk.length_pos (c : Chunk) : 0 < c.data.length := List.length_pos_of_ne_nil c.ne_nil

/-! ## The data written -/
theorem writes_append (a b : List Event) : writes (a ++ b) = writes a ++ writes b :=
  List.filterMap_append

theorem writes_headCalls (cfg : Config) (data : List Byte) : writes (cfg.headCalls data) = [] := by
  unfold Config.headCalls
  split <;> rfl

theorem writes_map (cfg : Config) (cs : List Chunk) :
    (writes (cs.map fun c => cfg.writeCall c.data)).flatten = received cs := by
  induction cs with
  | nil => rfl
  | cons c cs ih =>
    rw [received_cons, ← ih]
    rfl

section Body

variable {cfg : Config} {e : Ending} {c : Chunk} {cs : List Chunk} {l : StrLocals} {v v' : View}
  {ret : ℤ}

/-- The view after a chunk of the body phase. -/
def View.afterBody (v : View) (cfg : Config) (total file : ℕ) (data : List Byte) : View :=
  { v with
    bytesreceived := total
    bytesFileReceived := file
    log := v.log ++ [cfg.writeCall data] }

/-- The counters after `n` bytes of the body phase. -/
def StrLocals.count (l : StrLocals) (n : ℕ) : StrLocals :=
  { l with
    bytesReceivedTotal := sizeT (l.bytesReceivedTotal + n)
    bytesReceivedFILE := sizeT (l.bytesReceivedFILE + n) }

theorem perform_body_cons (hl : l.headercheck = true) :
    perform cfg e (c :: cs) l v =
      if sizeT (l.bytesReceivedFILE + c.data.length) = v.filelen then
        .ok (0, v.afterBody cfg (sizeT (l.bytesReceivedTotal + c.data.length))
          (sizeT (l.bytesReceivedFILE + c.data.length)) c.data)
      else perform cfg e cs (l.count c.data.length)
        (v.afterBody cfg (sizeT (l.bytesReceivedTotal + c.data.length))
          (sizeT (l.bytesReceivedFILE + c.data.length)) c.data) := by
  rw [perform]
  dsimp only
  rw [if_pos hl]
  unfold strBodyChunk
  by_cases heq : sizeT (l.bytesReceivedFILE + c.data.length) = v.filelen
  · rw [if_pos heq]
    simp only [heq, if_true]
    rfl
  · rw [if_neg heq]
    simp only [heq, if_false]
    rfl

/-- The view at the end of a body phase that ends with the chunks `cs`. -/
def View.afterChunks (v : View) (cfg : Config) (total : ℕ) (cs : List Chunk) : View :=
  { v with
    bytesreceived := total
    bytesFileReceived := v.filelen
    log := v.log ++ cs.map fun c => cfg.writeCall c.data }

theorem strRecvEnd_ret (h : strRecvEnd e l v = .ok (ret, v')) : ret = -1 := by
  cases e with
  | error => cases h; rfl
  | close =>
    unfold strRecvEnd at h
    dsimp only at h
    cases hs : firstToken (ascii " ") (restToken (ascii " ") l.fullData) with
    | none => simp [hs] at h
    | some status =>
      simp only [hs] at h
      split_ifs at h <;> cases h <;> rfl

theorem perform_body_inv (hl : l.headercheck = true) (h : perform cfg e cs l v = .ok (ret, v')) :
    ret = -1 ∨ ret = 0 ∧ ∃ cs₁ cs₂, cs = cs₁ ++ cs₂ ∧ cs₁ ≠ [] ∧
      sizeT (l.bytesReceivedFILE + (received cs₁).length) = v.filelen ∧
      v' = v.afterChunks cfg (sizeT (l.bytesReceivedTotal + (received cs₁).length)) cs₁ := by
  induction cs generalizing l v with
  | nil => exact Or.inl (strRecvEnd_ret h)
  | cons c cs ih =>
    rw [perform_body_cons hl] at h
    split_ifs at h with heq
    · cases h
      refine Or.inr ⟨rfl, [c], cs, rfl, by simp, by simpa using heq, ?_⟩
      simp [View.afterBody, View.afterChunks, heq]
    · rcases ih (l := l.count c.data.length) hl h with hret | ⟨hret, cs₁, cs₂, rfl, -, hfile, rfl⟩
      · exact Or.inl hret
      · refine Or.inr ⟨hret, c :: cs₁, cs₂, rfl, by simp, ?_, ?_⟩
        · simp only [StrLocals.count] at hfile
          rw [sizeT_add_right] at hfile
          rw [received_cons, List.length_append, Nat.cast_add, ← add_assoc]
          exact hfile
        · simp only [StrLocals.count]
          rw [sizeT_add_right]
          simp [View.afterBody, View.afterChunks, add_assoc]

theorem perform_body_complete (hl : l.headercheck = true) (hcs : cs ≠ [])
    (hfile : l.bytesReceivedFILE + (received cs).length = v.filelen) (hlt : v.filelen < 2 ^ 64) :
    perform cfg e cs l v =
      .ok (0, v.afterChunks cfg (sizeT (l.bytesReceivedTotal + (received cs).length)) cs) := by
  induction cs generalizing l v with
  | nil => exact absurd rfl hcs
  | cons c cs ih =>
    rw [received_cons, List.length_append] at hfile
    have hc := c.length_pos
    have hsize : sizeT ((l.bytesReceivedFILE : ℤ) + c.data.length) =
        l.bytesReceivedFILE + c.data.length := by
      exact_mod_cast sizeT_natCast (n := l.bytesReceivedFILE + c.data.length) (by omega)
    rw [perform_body_cons hl, hsize]
    cases cs with
    | nil =>
      rw [received_nil, List.length_nil] at hfile
      rw [if_pos (by omega)]
      simp [View.afterBody, View.afterChunks]
      omega
    | cons c' cs =>
      have hc' := c'.length_pos
      rw [received_cons, List.length_append] at hfile
      rw [if_neg (by omega)]
      refine (ih (l := l.count c.data.length) (v := v.afterBody cfg _ _ _) hl (by simp) ?_ hlt).trans ?_
      · simp only [received_cons, List.length_append, View.afterBody, StrLocals.count, hsize]
        omega
      · simp only [StrLocals.count]
        rw [sizeT_add_right]
        simp [View.afterBody, View.afterChunks, add_assoc]

end Body

section Header

variable {cfg : Config} {e : Ending} {c : Chunk} {cs : List Chunk} {l : StrLocals} {v v' : View}
  {new : List Byte}

/-- The locals after a chunk of `n` bytes in the header phase. -/
def StrLocals.recv (l : StrLocals) (n : ℕ) (new : List Byte) : StrLocals :=
  { l with
    fullData := l.fullData ++ new
    bytesReceivedTotal := sizeT (l.bytesReceivedTotal + n) }

/-- The rest of the run behind an iteration. -/
def StrFlow.continue (cfg : Config) (e : Ending) (cs : List Chunk) :
    StrFlow → Except Fault (ℤ × View)
  | .done ret v => .ok (ret, v)
  | .next l v => perform cfg e cs l v

theorem perform_header_cons (hl : l.headercheck = false) (hnew : cstr (recvBuf c) 0 = .ok new)
    (hfits : l.fullData.length + new.length ≤ sizeT (l.bytesReceivedTotal + c.data.length)) :
    perform cfg e (c :: cs) l v =
      (strParseHeader cfg (l.recv c.data.length new)
        { v with bytesreceived := sizeT (l.bytesReceivedTotal + c.data.length) }).bind
        (StrFlow.continue cfg e cs) := by
  rw [perform]
  dsimp only
  rw [if_neg (by simp [hl]), strHeaderChunk_fits hnew hfits]
  rfl

theorem perform_header_fault {f : Fault} (hl : l.headercheck = false)
    (hnew : cstr (recvBuf c) 0 = .error f) : perform cfg e (c :: cs) l v = .error f := by
  rw [perform]
  dsimp only
  rw [if_neg (by simp [hl]), strHeaderChunk, hnew]
  rfl

/-- A chunk without a NUL that fills `buf`: `strcat` leaves it. -/
theorem perform_header_unterminated (hl : l.headercheck = false)
    (hfull : ¬ (c.data.length < BUFSIZE ∨ 0 ∈ c.data)) :
    perform cfg e (c :: cs) l v = .error .unterminated :=
  perform_header_fault hl (by rw [cstr_recvBuf, if_neg hfull])

theorem perform_header_long (hl : l.headercheck = false) (hnew : cstr (recvBuf c) 0 = .ok new)
    (hlong : sizeT (l.bytesReceivedTotal + c.data.length) < l.fullData.length + new.length) :
    perform cfg e (c :: cs) l v = .error .overflow := by
  rw [perform]
  dsimp only
  rw [if_neg (by simp [hl]), strHeaderChunk_long hnew hlong]
  rfl

/-- An iteration of the header phase of a run that ends well. -/
theorem perform_header_inv {res : ℤ × View} (hl : l.headercheck = false)
    (h : perform cfg e (c :: cs) l v = .ok res) :
    ∃ new flow, cstr (recvBuf c) 0 = .ok new ∧
      strParseHeader cfg (l.recv c.data.length new)
        { v with bytesreceived := sizeT (l.bytesReceivedTotal + c.data.length) } = .ok flow ∧
      flow.continue cfg e cs = .ok res := by
  cases hnew : cstr (recvBuf c) 0 with
  | error f =>
    rw [perform_header_fault hl hnew] at h
    cases h
  | ok new =>
    rcases Nat.lt_or_ge (sizeT (l.bytesReceivedTotal + c.data.length))
      (l.fullData.length + new.length) with hlong | hfits
    · rw [perform_header_long hl hnew hlong] at h
      cases h
    · rw [perform_header_cons hl hnew hfits] at h
      cases hparse : strParseHeader cfg (l.recv c.data.length new)
          { v with bytesreceived := sizeT (l.bytesReceivedTotal + c.data.length) } with
      | error f => rw [hparse] at h; cases h
      | ok flow =>
        rw [hparse] at h
        exact ⟨new, flow, rfl, hparse, h⟩

/-- A chunk that is a C string in `buf`. -/
theorem cstr_recvBuf_clean (h0 : 0 ∉ c.data) (hlt : c.data.length < BUFSIZE) :
    cstr (recvBuf c) 0 = .ok c.data := by
  rw [cstr_recvBuf, if_pos (Or.inl hlt)]
  congr 1
  exact List.takeWhile_eq_self_iff.mpr fun a ha => by simpa using ne_of_mem_of_not_mem ha h0

/-- The scheme, and what is behind it. -/
theorem token_scheme (s : List Byte) :
    token (ascii " ") (ascii "GETFILE " ++ s) = some (ascii "GETFILE", s) :=
  token_front (t := ascii "GETFILE") (y := 32) (by decide) (by decide +kernel) (by decide)

/-- The scheme is there, and it is not yet time to look at the status. -/
theorem strParseHeader_scheme {s : List Byte} (hF : l.fullData = ascii "GETFILE " ++ s)
    (h10 : l.bytesReceivedTotal ≤ 10) : strParseHeader cfg l v = .ok (.next l v) := by
  have hscheme : firstToken (ascii " ") l.fullData = some (ascii "GETFILE") := by
    rw [hF]
    exact (firstToken_of_token (token_scheme s)).1
  unfold strParseHeader
  by_cases h7 : l.bytesReceivedTotal > 7
  · rw [if_pos h7]
    simp only [hscheme, ne_eq, not_true_eq_false, if_false]
    rw [if_neg (by omega)]
  · rw [if_neg h7]

/-- The scheme is there, and the status word `u`. -/
theorem strParseHeader_word {s u : List Byte} (hF : l.fullData = ascii "GETFILE " ++ s)
    (h10 : 10 < l.bytesReceivedTotal) (hu : firstToken (ascii " \r\n") s = some u) :
    strParseHeader cfg l v =
      if u = ascii "OK" then .ok (strHeaderOk cfg (restToken (ascii " \r\n") s) l v)
      else if u = ascii "FILE_NOT_FOUND" then .ok (.done 0 { v with
        status := .fileNotFound
        log := v.log ++ cfg.headCalls (ascii "GETFILE FILE_NOT_FOUND") })
      else if u = ascii "ERROR" then .ok (.done 0 { v with
        status := .error
        log := v.log ++ cfg.headCalls (ascii "GETFILE ERROR") })
      else .ok (.next l v) := by
  obtain ⟨h1, h2⟩ := firstToken_of_token (token_scheme s)
  unfold strParseHeader
  rw [if_pos (by omega)]
  simp only [hF, h1, h2, hu, ne_eq, not_true_eq_false, if_false]
  rw [if_pos h10]

/-- The scheme and the status "OK" are there. -/
theorem strParseHeader_ok {s : List Byte} (hF : l.fullData = ascii "GETFILE OK " ++ s)
    (h10 : 10 < l.bytesReceivedTotal) :
    strParseHeader cfg l v = .ok (strHeaderOk cfg s l v) := by
  have hF' : l.fullData = ascii "GETFILE " ++ (ascii "OK " ++ s) := hF
  have hstatus : token (ascii " \r\n") (ascii "OK " ++ s) = some (ascii "OK", s) :=
    token_front (t := ascii "OK") (y := 32) (by decide) (by decide +kernel) (by decide)
  obtain ⟨h1, h2⟩ := firstToken_of_token hstatus
  rw [strParseHeader_word hF' h10 h1, if_pos rfl, h2]

end Header

/-! ## A header that arrives in pieces -/

section Reading

variable {cfg : Config} {e : Ending} {H b : List Byte} {k : ℕ} {c : Chunk} {cs : List Chunk}
  {v : View}

/-- The locals when `k` bytes of the header `H` have been received. -/
def reading (H : List Byte) (k : ℕ) : StrLocals := ⟨H.take k, false, k, 0⟩

/-- One chunk of the header. -/
theorem perform_reading_chunk (h0 : 0 ∉ H) (hfull : c.data.length < BUFSIZE)
    (hlt : k + c.data.length < 2 ^ 64) (hc : c.data = (H.drop k).take c.data.length) :
    perform cfg e (c :: cs) (reading H k) v =
      (strParseHeader cfg (reading H (k + c.data.length))
        { v with bytesreceived := k + c.data.length }).bind (StrFlow.continue cfg e cs) := by
  have h0c : 0 ∉ c.data := by
    rw [hc]
    exact fun h => h0 (List.mem_of_mem_drop (List.mem_of_mem_take h))
  have htake : H.take k ++ c.data = H.take (k + c.data.length) := by
    rw [List.take_add, ← hc]
  have hsize : sizeT ((k : ℤ) + c.data.length) = k + c.data.length := sizeT_add hlt
  rw [perform_header_cons (l := reading H k) rfl (cstr_recvBuf_clean h0c hfull)]
  · simp only [reading, StrLocals.recv, hsize, htake]
  · simp only [reading, hsize, List.length_take]
    omega

/-- The client waits for as long as the header received so far only makes it wait. -/
theorem perform_reading (cfg : Config) (e : Ending) (pre cs : List Chunk) (v : View) (h0 : 0 ∉ H)
    (hwait : ∀ j v, j ≤ k + (received pre).length →
      ∃ s, strParseHeader cfg (reading H j) v = .ok (.next (reading H j) { v with status := s }))
    (hfull : ∀ d ∈ pre, d.data.length < BUFSIZE) (hlt : k + (received pre).length < 2 ^ 64)
    (hpre : received pre = (H.drop k).take (received pre).length) :
    ∃ v', perform cfg e (pre ++ cs) (reading H k) v =
        perform cfg e cs (reading H (k + (received pre).length)) v' ∧
      v'.log = v.log ∧ v'.bytesFileReceived = v.bytesFileReceived := by
  induction pre generalizing k v with
  | nil => exact ⟨v, rfl, rfl, rfl⟩
  | cons c pre ih =>
    rw [received_cons, List.length_append] at hpre hlt hwait
    rw [List.take_add] at hpre
    obtain ⟨hfull₁, hfull₂⟩ := List.forall_mem_cons.mp hfull
    have hlen := congrArg List.length hpre
    simp only [List.length_append, List.length_take, List.length_drop] at hlen
    obtain ⟨hc, hrest⟩ := List.append_inj hpre (by simp; omega)
    rw [List.drop_drop] at hrest
    obtain ⟨s, hs⟩ := hwait (k + c.data.length) { v with bytesreceived := k + c.data.length }
      (by omega)
    obtain ⟨v', hv', hlog⟩ := ih { v with bytesreceived := k + c.data.length, status := s }
      (k := k + c.data.length) (fun j v hj => hwait j v (by omega)) hfull₂ (by omega) hrest
    refine ⟨v', ?_, hlog⟩
    rw [List.cons_append, perform_reading_chunk h0 hfull₁ (by omega) hc, hs, received_cons,
      List.length_append, ← add_assoc]
    exact hv'

/-- The string of a chunk that brings the rest of the header and the bytes `b`. -/
theorem cstr_recvBuf_whole (h0 : 0 ∉ H) (hc : c.data = H.drop k ++ b)
    (hclean : c.data.length < BUFSIZE ∨ 0 ∈ c.data) :
    cstr (recvBuf c) 0 = .ok (H.drop k ++ b.takeWhile (· ≠ 0)) := by
  rw [cstr_recvBuf, if_pos hclean, hc, List.takeWhile_append_of_pos]
  exact fun a ha => by simpa using ne_of_mem_of_not_mem (List.mem_of_mem_drop ha) h0

theorem perform_reading_whole (h0 : 0 ∉ H) (hlt : k + c.data.length < 2 ^ 64) (hk : k ≤ H.length)
    (hc : c.data = H.drop k ++ b) (hclean : c.data.length < BUFSIZE ∨ 0 ∈ c.data) :
    perform cfg e (c :: cs) (reading H k) v =
      (strParseHeader cfg ⟨H ++ b.takeWhile (· ≠ 0), false, k + c.data.length, 0⟩
        { v with bytesreceived := k + c.data.length }).bind (StrFlow.continue cfg e cs) := by
  have hb : (b.takeWhile (· ≠ 0)).length ≤ b.length := (List.takeWhile_prefix _).length_le
  have hclen : c.data.length = H.length - k + b.length := by
    rw [hc, List.length_append, List.length_drop]
  have hsize : sizeT ((k : ℤ) + c.data.length) = k + c.data.length := sizeT_add hlt
  have hF : H.take k ++ (H.drop k ++ b.takeWhile (· ≠ 0)) = H ++ b.takeWhile (· ≠ 0) := by
    rw [← List.append_assoc, List.take_append_drop]
  rw [perform_header_cons (l := reading H k) rfl (cstr_recvBuf_whole h0 hc hclean)]
  · simp only [reading, StrLocals.recv, hsize, hF]
  · simp only [reading, hsize, List.length_take, List.length_append, List.length_drop]
    omega

end Reading

end IntroOS.Gfclient
