import IntroOS.Gfclient.Perform
import IntroOS.Gfclient.Memory

/-!
# `gfc_perform` as a function on strings

The abstract client: `gfc_perform` without memory, pointers and `strtok` state. The
accumulated header is a list of bytes, a token is a list of bytes, and what the caller
can see of the request is a `View`. `perform` is the loop.

Main results:

* `cstr_recvBuf`: the string that a chunk adds to the header.
* `Pending.body_lt`: the body bytes that come with the header fit into an `int`.
* `strParseHeader_case`: what parsing the header can lead to.
-/

namespace IntroOS.Gfclient

open CString Concurrency

/-! ## The client on strings -/

/-- What the caller sees of a request: the fields behind the `gfc_get_*` functions, the
    field `bytesreceived`, and what the thread has done. -/
structure View where
  status : GfStatus
  filelen : ℕ
  bytesreceived : ℕ
  bytesFileReceived : ℕ
  log : List Event

/-- The local variables of the loop, with the string in place of `fullData`. -/
structure StrLocals where
  fullData : List Byte
  headercheck : Bool
  bytesReceivedTotal : ℕ
  bytesReceivedFILE : ℕ

/-- How an iteration ends, with the view that it leaves. -/
inductive StrFlow
  | done (ret : ℤ) (v : View)
  | next (l : StrLocals) (v : View)

/-- The calls of the header callback with `data`. -/
def Config.headCalls (cfg : Config) (data : List Byte) : List Event :=
  match cfg.head with
  | some (f, some arg) => [.head f data (some arg)]
  | _ => []

/-- The call of the write callback with `data`. -/
def Config.writeCall (cfg : Config) (data : List Byte) : Event :=
  .write cfg.writefunc data cfg.writearg

/-- The header string that the client rebuilds (lines 304–308). -/
def okHeader (filelen : List Byte) : List Byte :=
  ascii "GETFILE OK " ++ filelen ++ ascii " \r\n\r\n"

/-- `firstData`: the part `data` of the body that came with the header. -/
def strFirstData (cfg : Config) (filelen data : List Byte) (l : StrLocals) (v : View) : StrFlow :=
  let file := sizeT (l.bytesReceivedFILE + data.length)
  let v := { v with
    bytesFileReceived := file
    log := v.log ++ cfg.headCalls (okHeader filelen) ++ [cfg.writeCall data] }
  if file = v.filelen then .done 0 v else .next { l with bytesReceivedFILE := file } v

/-- `chooseData`. -/
def strChooseData (temp2 fileData : Option (List Byte)) : Option (List Byte) :=
  if temp2.isSome ∧ temp2 ≠ some (ascii "\r") then temp2 else fileData

/-- `headerOk`: `s` is the string behind the status "OK". -/
def strHeaderOk (cfg : Config) (s : List Byte) (l : StrLocals) (v : View) : StrFlow :=
  let filelen := firstToken (ascii " \r\n") s
  let s := restToken (ascii " \r\n") s
  let temp1 := firstToken (ascii "\n") s
  let s := restToken (ascii "\n") s
  let temp2 := firstToken (ascii "\n") s
  let s := restToken (ascii "\n") s
  let fileData := firstToken (ascii "\n") s
  let v := { v with status := .ok }
  match filelen, temp1 with
  | some filelen, some _ =>
    let v := { v with filelen := sizeT (atol filelen) }
    let l := { l with headercheck := true }
    match strChooseData temp2 fileData with
    | none => .next l v
    | some data => strFirstData cfg filelen data l v
  | _, _ => .next l v

/-- `parseHeader`. -/
def strParseHeader (cfg : Config) (l : StrLocals) (v : View) : Except Fault StrFlow :=
  if l.bytesReceivedTotal > 7 then
    match firstToken (ascii " ") l.fullData with
    | none => .error .nullPointer
    | some scheme =>
      if scheme ≠ ascii "GETFILE" then
        .ok (.done (-1)
          { v with status := .invalid, bytesFileReceived := l.bytesReceivedTotal })
      else if l.bytesReceivedTotal > 10 then
        let s := restToken (ascii " ") l.fullData
        match firstToken (ascii " \r\n") s with
        | none => .error .nullPointer
        | some status =>
          if status = ascii "OK" then
            .ok (strHeaderOk cfg (restToken (ascii " \r\n") s) l v)
          else if status = ascii "FILE_NOT_FOUND" then
            .ok (.done 0 { v with
              status := .fileNotFound
              log := v.log ++ cfg.headCalls (ascii "GETFILE FILE_NOT_FOUND") })
          else if status = ascii "ERROR" then
            .ok (.done 0 { v with
              status := .error
              log := v.log ++ cfg.headCalls (ascii "GETFILE ERROR") })
          else .ok (.next l v)
      else .ok (.next l v)
  else .ok (.next l v)

/-- `headerChunk`. -/
def strHeaderChunk (cfg : Config) (c : Chunk) (l : StrLocals) (v : View) : Except Fault StrFlow :=
  (cstr (recvBuf c) 0).bind fun new =>
    if l.bytesReceivedTotal < l.fullData.length + new.length then .error .overflow
    else strParseHeader cfg { l with fullData := l.fullData ++ new } v

/-- `bodyChunk`. -/
def strBodyChunk (cfg : Config) (c : Chunk) (l : StrLocals) (v : View) : StrFlow :=
  let file := sizeT (l.bytesReceivedFILE + c.data.length)
  let v := { v with bytesFileReceived := file, log := v.log ++ [cfg.writeCall c.data] }
  if file = v.filelen then .done 0 v else .next { l with bytesReceivedFILE := file } v

/-- `recvEnd`. -/
def strRecvEnd (e : Ending) (l : StrLocals) (v : View) : Except Fault (ℤ × View) :=
  let v := { v with bytesreceived := sizeT (l.bytesReceivedTotal + e.bytesrecv) }
  match e with
  | .error => .ok (-1, v)
  | .close =>
    let scheme := firstToken (ascii " ") l.fullData
    let s := restToken (ascii " ") l.fullData
    let status := firstToken (ascii " ") s
    let s := restToken (ascii " ") s
    let filelen := firstToken (ascii " \r\n") s
    let v := match filelen with
      | none => v
      | some filelen => { v with filelen := sizeT (atol filelen) }
    match status with
    | none => .error .nullPointer
    | some status =>
      if status = ascii "OK" ∧ scheme = some (ascii "GETFILE") then .ok (-1, v)
      else .ok (-1, { v with status := .invalid })

/-- `gfcPerformLoop`. -/
def perform (cfg : Config) (e : Ending) : List Chunk → StrLocals → View → Except Fault (ℤ × View)
  | [], l, v => strRecvEnd e l v
  | c :: cs, l, v =>
    let l := { l with bytesReceivedTotal := sizeT (l.bytesReceivedTotal + c.data.length) }
    let v := { v with bytesreceived := l.bytesReceivedTotal }
    (if l.headercheck then .ok (strBodyChunk cfg c l v) else strHeaderChunk cfg c l v).bind fun
      | .done ret v => .ok (ret, v)
      | .next l v => perform cfg e cs l v

/-- The view of a request before its first `recv`. -/
def View.initial (h : Handle) (path : List Byte) : View :=
  ⟨.fileNotFound, 0, 0, 0, [.created h, .sent (clientscheme path)]⟩

/-- What a request ends with whose `gfc_perform` has returned `ret`. -/
def View.outcome (v : View) (ret : ℤ) : Outcome :=
  ⟨ret, v.status, v.filelen, v.bytesFileReceived, v.bytesreceived⟩

/-- `gfc_perform` for the request `h`. -/
def performRequest (cfg : Config) (rs : Recvs) (h : Handle) : Except Fault (ℤ × View) :=
  perform cfg rs.ending rs.chunks ⟨[], false, 0, 0⟩ (View.initial h cfg.path)

/-- The length, the end of its line, or both are still to come. -/
theorem strHeaderOk_incomplete {cfg : Config} {s : List Byte} {l : StrLocals} {v : View}
    (h : firstToken (ascii "\n") (restToken (ascii " \r\n") s) = none) :
    strHeaderOk cfg s l v = .next l { v with status := .ok } := by
  unfold strHeaderOk
  simp only [h]
  cases firstToken (ascii " \r\n") s <;> rfl

/-- The length `filelen` is there, and its line has an end. -/
theorem strHeaderOk_complete {cfg : Config} {s filelen r : List Byte} {l : StrLocals} {v : View}
    (h : afterTokens [(ascii " \r\n", (· = filelen)), (ascii "\n", fun _ => true)] s = some r) :
    strHeaderOk cfg s l v =
      match strChooseData (firstToken (ascii "\n") r)
        (firstToken (ascii "\n") (restToken (ascii "\n") r)) with
      | none => .next { l with headercheck := true }
          { v with status := .ok, filelen := sizeT (atol filelen) }
      | some data => strFirstData cfg filelen data { l with headercheck := true }
          { v with status := .ok, filelen := sizeT (atol filelen) } := by
  obtain ⟨t, u, htok, ht, hu⟩ := afterTokens_cons_some.mp h
  obtain ⟨t', u', htok', -, hu'⟩ := afterTokens_cons_some.mp hu
  obtain rfl : t = filelen := by simpa using ht
  obtain rfl : u' = r := Option.some.inj hu'
  obtain ⟨h1, h2⟩ := firstToken_of_token htok
  obtain ⟨h3, h4⟩ := firstToken_of_token htok'
  unfold strHeaderOk
  simp only [h1, h2, h3, h4]

/-- The string that a chunk adds to the header: a chunk of 4096 bytes without a NUL fills
    `buf`, and `strcpy` reads past its end. -/
theorem cstr_recvBuf (c : Chunk) :
    cstr (recvBuf c) 0 = if c.data.length < BUFSIZE ∨ 0 ∈ c.data then
      .ok (c.data.takeWhile (· ≠ 0)) else .error .unterminated := by
  have hle := c.le
  by_cases h0 : 0 ∈ c.data
  · obtain ⟨u, m, hu, h0u⟩ := List.eq_append_cons_of_mem h0
    rw [if_pos (Or.inr h0), cstr_eq_ok_iff, recvBuf, hu, takeWhile_ne_zero h0u, List.drop_zero]
    exact ⟨h0u, m ++ List.replicate (BUFSIZE - (u ++ 0 :: m).length) 0, by simp⟩
  · have hself : c.data.takeWhile (· ≠ 0) = c.data :=
      List.takeWhile_eq_self_iff.mpr fun a ha => by simpa using ne_of_mem_of_not_mem ha h0
    by_cases hlt : c.data.length < BUFSIZE
    · rw [if_pos (Or.inl hlt), cstr_eq_ok_iff, recvBuf, hself, List.drop_zero]
      refine ⟨h0, List.replicate (BUFSIZE - c.data.length - 1) 0, ?_⟩
      rw [← List.replicate_succ, show BUFSIZE - c.data.length - 1 + 1 = BUFSIZE - c.data.length by
        omega]
    · rw [if_neg (by simp [hlt, h0]), cstr_eq_error_iff, recvBuf, List.drop_zero]
      have hfull : BUFSIZE - c.data.length = 0 := by omega
      exact ⟨rfl, by simpa [hfull] using h0⟩

/-- The string of a chunk is not longer than the chunk. -/
theorem cstr_recvBuf_length {c : Chunk} {new : List Byte} (h : cstr (recvBuf c) 0 = .ok new) :
    new.length ≤ c.data.length := by
  rw [cstr_recvBuf] at h
  split_ifs at h
  cases h
  exact (List.takeWhile_prefix _).length_le

/-- The string does not fit into the buffer for `bytesReceivedTotal` bytes. -/
theorem strHeaderChunk_long {cfg : Config} {c : Chunk} {new : List Byte} {l : StrLocals} {v : View}
    (h : cstr (recvBuf c) 0 = .ok new)
    (hlong : l.bytesReceivedTotal < l.fullData.length + new.length) :
    strHeaderChunk cfg c l v = .error .overflow := by
  rw [strHeaderChunk, h]
  exact if_pos hlong

theorem strHeaderChunk_fits {cfg : Config} {c : Chunk} {new : List Byte} {l : StrLocals} {v : View}
    (h : cstr (recvBuf c) 0 = .ok new)
    (hfits : l.fullData.length + new.length ≤ l.bytesReceivedTotal) :
    strHeaderChunk cfg c l v = strParseHeader cfg { l with fullData := l.fullData ++ new } v := by
  rw [strHeaderChunk, h]
  exact if_neg (not_lt.mpr hfits)

/-! ## The body bytes that come with the header -/

/-- The string behind the length and one more line. -/
def behindLength (s : List Byte) : Option (List Byte) :=
  afterTokens [(ascii " \r\n", fun _ => true), (ascii "\n", fun _ => true)] s

/-- The string behind the scheme, the status "OK", the length and one more line: the place
    where the client looks for the body. -/
def bodyStart (s : List Byte) : Option (List Byte) :=
  afterTokens [(ascii " ", (· = ascii "GETFILE")), (ascii " \r\n", (· = ascii "OK")),
    (ascii " \r\n", fun _ => true), (ascii "\n", fun _ => true)] s

/-- The header `s` received so far has not been found complete when it was last parsed; it
    is parsed while more than 10 bytes are counted. -/
def Pending (s : List Byte) (total : ℕ) : Prop :=
  s.length ≤ total ∧ (10 < total → bodyStart s = none)

theorem Pending.nil : Pending [] 0 := ⟨le_rfl, fun _ => rfl⟩

/-- The body bytes that the next chunk brings. -/
theorem Pending.body_lt {s new r : List Byte} {total : ℕ} (h : Pending s total)
    (hnew : new.length ≤ BUFSIZE) (hr : bodyStart (s ++ new) = some r) : r.length < 2 ^ 31 := by
  unfold BUFSIZE at hnew
  by_cases ht : 10 < total
  · have hle : r.length ≤ new.length := afterTokens_append_length (h.2 ht) hr
    omega
  · have hle : r.length ≤ (s ++ new).length := afterTokens_length hr
    have hs := h.1
    rw [List.length_append] at hle
    omega

/-! ## What parsing the header can lead to -/

theorem bodyStart_eq_some_iff {s r : List Byte} :
    bodyStart s = some r ↔ firstToken (ascii " ") s = some (ascii "GETFILE") ∧
      firstToken (ascii " \r\n") (restToken (ascii " ") s) = some (ascii "OK") ∧
      behindLength (restToken (ascii " \r\n") (restToken (ascii " ") s)) = some r := by
  unfold bodyStart
  constructor
  · intro h
    obtain ⟨t, u, htok, ht, hu⟩ := afterTokens_cons_some.mp h
    obtain ⟨t', u', htok', ht', hu'⟩ := afterTokens_cons_some.mp hu
    obtain rfl : t = ascii "GETFILE" := by simpa using ht
    obtain rfl : t' = ascii "OK" := by simpa using ht'
    obtain ⟨h1, h2⟩ := firstToken_of_token htok
    obtain ⟨h3, h4⟩ := firstToken_of_token htok'
    exact ⟨h1, by rw [h2, h3], by rw [h2, h4]; exact hu'⟩
  · rintro ⟨h1, h2, h3⟩
    refine afterTokens_cons_some.mpr ⟨_, _, token_eq_some h1, by simp, ?_⟩
    exact afterTokens_cons_some.mpr ⟨_, _, token_eq_some h2, by simp, h3⟩

/-- The chosen data is part of the string behind the line of the length. -/
theorem strChooseData_length {s data : List Byte}
    (hdata : strChooseData (firstToken (ascii "\n") s)
      (firstToken (ascii "\n") (restToken (ascii "\n") s)) = some data) :
    data.length ≤ s.length := by
  have hle : ∀ u : List Byte, ∀ tok, firstToken (ascii "\n") u = some tok →
      tok.length + (restToken (ascii "\n") u).length ≤ u.length :=
    fun u tok htok => token_length_lt (token_eq_some htok)
  unfold strChooseData at hdata
  split_ifs at hdata with hcond
  · have := hle s data hdata
    omega
  · have h3 := hle _ data hdata
    cases h2 : firstToken (ascii "\n") s with
    | none => rw [restToken_of_none h2] at h3; simp at h3; simp [h3]
    | some tok => have := hle s tok h2; omega

theorem strBodyChunk_headercheck {cfg : Config} {c : Chunk} {l l' : StrLocals} {v v' : View}
    (h : strBodyChunk cfg c l v = .next l' v') : l.headercheck = l'.headercheck := by
  unfold strBodyChunk at h
  dsimp only at h
  split_ifs at h
  cases h
  rfl

section Cases

variable {cfg : Config} {e : Ending} {l : StrLocals} {v v' : View} {flow : StrFlow} {ret : ℤ}

theorem behindLength_eq_some {s r : List Byte} (h : behindLength s = some r) :
    ∃ filelen, afterTokens [(ascii " \r\n", (· = filelen)), (ascii "\n", fun _ => true)] s =
      some r := by
  obtain ⟨filelen, u, htok, -, hu⟩ := afterTokens_cons_some.mp h
  exact ⟨filelen, afterTokens_cons_some.mpr ⟨_, _, htok, by simp, hu⟩⟩

theorem strHeaderOk_waits (cfg : Config) {s : List Byte} (l : StrLocals) (v : View)
    (h : behindLength s = none) : strHeaderOk cfg s l v = .next l { v with status := .ok } := by
  apply strHeaderOk_incomplete
  cases htok : token (ascii " \r\n") s with
  | none => rw [restToken_of_none (firstToken_eq_none.mpr htok), firstToken_nil]
  | some tu =>
    cases htok' : token (ascii "\n") tu.2 with
    | none => rw [(firstToken_of_token htok).2, firstToken_eq_none.mpr htok']
    | some tw => simp [behindLength, afterTokens, htok, htok'] at h

theorem strHeaderOk_cases (cfg : Config) {s r : List Byte} (l : StrLocals) (v : View)
    (h : behindLength s = some r) :
    (∃ n, strHeaderOk cfg s l v =
        .next { l with headercheck := true } { v with status := .ok, filelen := n }) ∨
      ∃ filelen data, data.length ≤ s.length ∧ strHeaderOk cfg s l v =
        strFirstData cfg filelen data { l with headercheck := true }
          { v with status := .ok, filelen := sizeT (atol filelen) } := by
  obtain ⟨filelen, hcomplete⟩ := behindLength_eq_some h
  rw [strHeaderOk_complete hcomplete]
  cases hdata : strChooseData (firstToken (ascii "\n") r)
      (firstToken (ascii "\n") (restToken (ascii "\n") r)) with
  | none => exact Or.inl ⟨_, rfl⟩
  | some data =>
    refine Or.inr ⟨filelen, data, ?_, rfl⟩
    exact (strChooseData_length hdata).trans (afterTokens_length hcomplete)

/-- A header whose status is not "OK" has no line with a length. -/
theorem bodyStart_eq_none {s : List Byte}
    (h : firstToken (ascii " \r\n") (restToken (ascii " ") s) ≠ some (ascii "OK")) :
    bodyStart s = none :=
  Option.eq_none_iff_forall_ne_some.mpr fun _ hb => h (bodyStart_eq_some_iff.mp hb).2.1

/-- The ways through `strParseHeader`, and what they end with. -/
inductive HeaderCase (cfg : Config) (l : StrLocals) (v : View) : Except Fault StrFlow → Prop
  | short (h7 : l.bytesReceivedTotal ≤ 7) : HeaderCase cfg l v (.ok (.next l v))
  | noScheme (h7 : 7 < l.bytesReceivedTotal) (hscheme : firstToken (ascii " ") l.fullData = none) :
      HeaderCase cfg l v (.error .nullPointer)
  | otherScheme (scheme : List Byte) (h7 : 7 < l.bytesReceivedTotal)
      (hscheme : firstToken (ascii " ") l.fullData = some scheme) (hget : scheme ≠ ascii "GETFILE") :
      HeaderCase cfg l v (.ok (.done (-1)
        { v with status := .invalid, bytesFileReceived := l.bytesReceivedTotal }))
  | noWord (h10 : l.bytesReceivedTotal ≤ 10)
      (hscheme : firstToken (ascii " ") l.fullData = some (ascii "GETFILE")) :
      HeaderCase cfg l v (.ok (.next l v))
  | noStatus (h10 : 10 < l.bytesReceivedTotal)
      (hscheme : firstToken (ascii " ") l.fullData = some (ascii "GETFILE"))
      (hstatus : firstToken (ascii " \r\n") (restToken (ascii " ") l.fullData) = none) :
      HeaderCase cfg l v (.error .nullPointer)
  | okWaits (h10 : 10 < l.bytesReceivedTotal)
      (hscheme : firstToken (ascii " ") l.fullData = some (ascii "GETFILE"))
      (hstatus : firstToken (ascii " \r\n") (restToken (ascii " ") l.fullData) = some (ascii "OK"))
      (hbody : bodyStart l.fullData = none) :
      HeaderCase cfg l v (.ok (.next l { v with status := .ok }))
  | ok (r : List Byte) (h10 : 10 < l.bytesReceivedTotal) (hbody : bodyStart l.fullData = some r) :
      HeaderCase cfg l v
        (.ok (strHeaderOk cfg (restToken (ascii " \r\n") (restToken (ascii " ") l.fullData)) l v))
  | fileNotFound (h10 : 10 < l.bytesReceivedTotal)
      (hscheme : firstToken (ascii " ") l.fullData = some (ascii "GETFILE"))
      (hstatus : firstToken (ascii " \r\n") (restToken (ascii " ") l.fullData) =
        some (ascii "FILE_NOT_FOUND")) :
      HeaderCase cfg l v (.ok (.done 0 { v with
        status := .fileNotFound
        log := v.log ++ cfg.headCalls (ascii "GETFILE FILE_NOT_FOUND") }))
  | error (h10 : 10 < l.bytesReceivedTotal)
      (hscheme : firstToken (ascii " ") l.fullData = some (ascii "GETFILE"))
      (hstatus : firstToken (ascii " \r\n") (restToken (ascii " ") l.fullData) =
        some (ascii "ERROR")) :
      HeaderCase cfg l v (.ok (.done 0 { v with
        status := .error
        log := v.log ++ cfg.headCalls (ascii "GETFILE ERROR") }))
  | otherStatus (status : List Byte) (h10 : 10 < l.bytesReceivedTotal)
      (hscheme : firstToken (ascii " ") l.fullData = some (ascii "GETFILE"))
      (hstatus : firstToken (ascii " \r\n") (restToken (ascii " ") l.fullData) = some status)
      (hok : status ≠ ascii "OK") (hfnf : status ≠ ascii "FILE_NOT_FOUND")
      (herr : status ≠ ascii "ERROR") : HeaderCase cfg l v (.ok (.next l v))

theorem strParseHeader_case (cfg : Config) (l : StrLocals) (v : View) :
    HeaderCase cfg l v (strParseHeader cfg l v) := by
  unfold strParseHeader
  by_cases h7 : l.bytesReceivedTotal > 7
  swap
  · rw [if_neg h7]
    exact .short (Nat.le_of_not_lt h7)
  rw [if_pos h7]
  cases hscheme : firstToken (ascii " ") l.fullData with
  | none => exact .noScheme h7 hscheme
  | some scheme =>
    dsimp only
    by_cases hget : scheme ≠ ascii "GETFILE"
    · rw [if_pos hget]
      exact .otherScheme scheme h7 hscheme hget
    rw [if_neg hget]
    obtain rfl : scheme = ascii "GETFILE" := not_not.mp hget
    by_cases h10 : l.bytesReceivedTotal > 10
    swap
    · rw [if_neg h10]
      exact .noWord (Nat.le_of_not_lt h10) hscheme
    rw [if_pos h10]
    cases hstatus : firstToken (ascii " \r\n") (restToken (ascii " ") l.fullData) with
    | none => exact .noStatus h10 hscheme hstatus
    | some status =>
      dsimp only
      by_cases hok : status = ascii "OK"
      · subst hok
        rw [if_pos rfl]
        cases hbody : bodyStart l.fullData with
        | some r => exact .ok r h10 hbody
        | none =>
          rw [strHeaderOk_waits]
          · exact .okWaits h10 hscheme hstatus hbody
          · refine Option.eq_none_iff_forall_ne_some.mpr fun u hu => ?_
            rw [bodyStart_eq_some_iff.mpr ⟨hscheme, hstatus, hu⟩] at hbody
            cases hbody
      rw [if_neg hok]
      by_cases hfnf : status = ascii "FILE_NOT_FOUND"
      · rw [if_pos hfnf]
        exact .fileNotFound h10 hscheme (hstatus.trans (congrArg some hfnf))
      rw [if_neg hfnf]
      by_cases herr : status = ascii "ERROR"
      · rw [if_pos herr]
        exact .error h10 hscheme (hstatus.trans (congrArg some herr))
      rw [if_neg herr]
      exact .otherStatus status h10 hscheme hstatus hok hfnf herr

theorem strParseHeader_cases (h : strParseHeader cfg l v = .ok flow) :
    (∃ v', flow = .done (-1) v') ∨ (∃ v', flow = .done 0 v' ∧ v'.status ≠ .ok) ∨
      (∃ s, flow = .next l { v with status := s } ∧
        (10 < l.bytesReceivedTotal → bodyStart l.fullData = none)) ∨
      (∃ n, flow = .next { l with headercheck := true } { v with status := .ok, filelen := n }) ∨
      ∃ filelen data, data.length ≤ l.fullData.length ∧ flow =
        strFirstData cfg filelen data { l with headercheck := true }
          { v with status := .ok, filelen := sizeT (atol filelen) } := by
  have hcase := strParseHeader_case cfg l v
  rw [h] at hcase
  cases hcase with
  | otherScheme _ _ _ _ => exact Or.inl ⟨_, rfl⟩
  | fileNotFound _ _ _ => exact Or.inr (Or.inl ⟨_, rfl, by simp⟩)
  | error _ _ _ => exact Or.inr (Or.inl ⟨_, rfl, by simp⟩)
  | short h7 => exact Or.inr (Or.inr (Or.inl ⟨v.status, rfl, fun h10 => absurd h10 (by omega)⟩))
  | noWord h10 _ =>
    exact Or.inr (Or.inr (Or.inl ⟨v.status, rfl, fun h => absurd h (Nat.not_lt.mpr h10)⟩))
  | okWaits _ _ _ hbody => exact Or.inr (Or.inr (Or.inl ⟨.ok, rfl, fun _ => hbody⟩))
  | otherStatus status _ _ hstatus hok _ _ =>
    refine Or.inr (Or.inr (Or.inl ⟨v.status, rfl, fun _ => bodyStart_eq_none ?_⟩))
    rw [hstatus, ne_eq, Option.some.injEq]
    exact hok
  | ok r _ hbody =>
    obtain ⟨hscheme, hstatus, hlength⟩ := bodyStart_eq_some_iff.mp hbody
    have hs : (restToken (ascii " \r\n") (restToken (ascii " ") l.fullData)).length ≤
        l.fullData.length := by
      have h1 := token_length_lt (token_eq_some hscheme)
      have h2 := token_length_lt (token_eq_some hstatus)
      omega
    rcases strHeaderOk_cases cfg l v hlength with ⟨n, hnext⟩ | ⟨filelen, data, hle, hfirst⟩
    · exact Or.inr (Or.inr (Or.inr (Or.inl ⟨n, hnext⟩)))
    · exact Or.inr (Or.inr (Or.inr (Or.inr ⟨filelen, data, hle.trans hs, hfirst⟩)))

/-- If the header is incomplete after a chunk and more than 10 bytes are counted, the string
    received so far has no line with the length. -/
theorem strParseHeader_next {l' : StrLocals} (h : strParseHeader cfg l v = .ok (.next l' v'))
    (hl' : l'.headercheck = false) :
    l' = l ∧ (10 < l.bytesReceivedTotal → bodyStart l.fullData = none) := by
  rcases strParseHeader_cases h with ⟨_, hflow⟩ | ⟨_, hflow, -⟩ | ⟨s, hflow, hnone⟩ | ⟨n, hflow⟩ |
    ⟨filelen, data, -, hflow⟩
  · cases hflow
  · cases hflow
  · cases hflow
    exact ⟨rfl, hnone⟩
  · cases hflow
    cases hl'
  · unfold strFirstData at hflow
    dsimp only at hflow
    split_ifs at hflow
    cases hflow
    cases hl'

end Cases

end IntroOS.Gfclient
