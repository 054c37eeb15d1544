import IntroOS.Gfclient.Phases
import IntroOS.Gfserver.Model

/-!
# The transfer of a file

The stream that the server produces for a file, `serverStream`, is cut into `recv` results
in an arbitrary way. The client finds the header complete as soon as it has seen one byte
behind the length and the space; it takes the line behind the next LF for the body.

Main results:

* `perform_prefix`: while at most the length and the space have arrived, the client waits.
* `perform_cut`, `perform_whole`: the chunk that goes beyond them.
* `transferred_iff`: the transfer succeeds exactly if the cut is clean.
-/

namespace IntroOS.Gfclient

open CString Concurrency

/-- What the server sends for the file `B`: the header of `gfs_sendheader`, then the file. -/
def serverStream (B : List Byte) : List Byte := Gfserver.okHeader (sizeT B.length) ++ B

/-! ## The header of the server -/

section Header

variable {cfg : Config} {e : Ending} {n : ℕ} {l : StrLocals} {v : View}

theorem okHeader_length (n : ℕ) :
    (Gfserver.okHeader n).length = (decimal n).length + 16 := by
  have h1 : (ascii "GETFILE OK ").length = 11 := by decide
  have h2 : (ascii " \r\n\r\n").length = 5 := by decide
  simp only [Gfserver.okHeader, List.length_append, h1, h2]
  omega

/-- The header in front of its terminator. -/
theorem okHeader_eq (n : ℕ) :
    Gfserver.okHeader n = ascii "GETFILE OK " ++ (decimal n ++ [32]) ++ ascii "\r\n\r\n" := by
  have h : ascii " \r\n\r\n" = [32] ++ ascii "\r\n\r\n" := by decide
  simp only [Gfserver.okHeader, h, List.append_assoc]

theorem zero_not_mem_okHeader (n : ℕ) : (0 : Byte) ∉ Gfserver.okHeader n := by
  have h1 : (0 : Byte) ∉ ascii "GETFILE OK " := by decide
  have h2 : (0 : Byte) ∉ ascii " \r\n\r\n" := by decide
  have h3 : (0 : Byte) ∉ decimal n := fun h => (decimal_not_mem h).2 rfl
  simp [Gfserver.okHeader, h1, h2, h3]

/-- No line end behind a part of the length and the space. -/
theorem firstToken_length (n j : ℕ) :
    firstToken (ascii "\n") (restToken (ascii " \r\n") ((decimal n ++ [32]).take j)) = none := by
  have hd : ∀ a ∈ decimal n, a ∉ ascii " \r\n" := fun a ha => (decimal_not_mem ha).1
  have hrest : restToken (ascii " \r\n") ((decimal n ++ [32]).take j) = [] := by
    rcases Nat.lt_or_ge (decimal n).length j with hj | hj
    · rw [List.take_of_length_le (by simp; omega)]
      exact (firstToken_of_token (token_front (decimal_ne_nil n) hd
        (by decide))).2
    · rw [List.take_append_of_le_length hj]
      rcases eq_or_ne ((decimal n).take j) [] with h0 | h0
      · rw [h0, restToken_nil]
      · exact (firstToken_of_token (token_whole h0
          fun a ha => hd a (List.mem_of_mem_take ha))).2
  rw [hrest, firstToken_nil]

/-- The client waits while at most the length and the space have arrived. -/
theorem strParseHeader_prefix {k : ℕ} (hk : k + 4 ≤ (Gfserver.okHeader n).length)
    (hF : l.fullData = (Gfserver.okHeader n).take k) (ht : l.bytesReceivedTotal = k) :
    ∃ s, strParseHeader cfg l v = .ok (.next l { v with status := s }) := by
  have h11 : (ascii "GETFILE OK ").length = 11 := by decide
  rw [okHeader_length] at hk
  by_cases h10 : 10 < k
  · refine ⟨.ok, ?_⟩
    have hlen : (decimal n ++ [32]).length = (decimal n).length + 1 := by simp
    have hF' : l.fullData = ascii "GETFILE OK " ++ (decimal n ++ [32]).take (k - 11) := by
      rw [hF, okHeader_eq, List.take_append_of_le_length (by simp [h11]; omega), List.take_append,
        h11, List.take_of_length_le (by omega)]
    rw [strParseHeader_ok hF' (by omega), strHeaderOk_incomplete (firstToken_length n _)]
  · refine ⟨v.status, ?_⟩
    by_cases h7 : 7 < k
    · have hF' : l.fullData = ascii "GETFILE " ++ (ascii "OK ").take (k - 8) := by
        have h8 : (ascii "GETFILE ").length = 8 := by decide
        have hsplit : ascii "GETFILE OK " = ascii "GETFILE " ++ ascii "OK " := by decide
        rw [hF, okHeader_eq, List.append_assoc, List.take_append_of_le_length (by omega), hsplit,
          List.take_append, h8, List.take_of_length_le (by omega)]
      exact strParseHeader_scheme hF' (by omega)
    · unfold strParseHeader
      rw [if_neg (by omega)]

/-- The CR of the terminator ends the length, and the LF, if it is there, ends the line. -/
theorem afterTokens_length_cr (n : ℕ) :
    afterTokens [(ascii " \r\n", (· = decimal n)), (ascii "\n", fun _ => true)]
      (decimal n ++ 32 :: [13]) = some [] := by
  have hd : ∀ a ∈ decimal n, a ∉ ascii " \r\n" := fun a ha => (decimal_not_mem ha).1
  refine afterTokens_cons_some.mpr ⟨decimal n, [13],
    token_front (decimal_ne_nil n) hd (by decide), by simp, ?_⟩
  decide

theorem afterTokens_length_crlf (n : ℕ) (w : List Byte) :
    afterTokens [(ascii " \r\n", (· = decimal n)), (ascii "\n", fun _ => true)]
      (decimal n ++ 32 :: 13 :: 10 :: w) = some w := by
  have hd : ∀ a ∈ decimal n, a ∉ ascii " \r\n" := fun a ha => (decimal_not_mem ha).1
  refine afterTokens_cons_some.mpr ⟨decimal n, 13 :: 10 :: w,
    token_front (decimal_ne_nil n) hd (by decide), by simp, ?_⟩
  refine afterTokens_cons_some.mpr ⟨[13], w, ?_, rfl, rfl⟩
  exact token_front (t := [13]) (y := 10) (by simp) (by decide +kernel)
    (by decide)

/-- The line behind the CR LF of the header is the body. -/
theorem strChooseData_body (b : List Byte) :
    strChooseData (firstToken (ascii "\n") (13 :: 10 :: b))
      (firstToken (ascii "\n") (restToken (ascii "\n") (13 :: 10 :: b))) =
      firstToken (ascii "\n") b := by
  have htok : token (ascii "\n") (13 :: 10 :: b) = some ([13], b) :=
    token_front (t := [13]) (y := 10) (by simp) (by decide +kernel)
    (by decide)
  obtain ⟨h1, h2⟩ := firstToken_of_token htok
  have hcr : ascii "\r" = [13] := by decide
  rw [h1, h2, strChooseData, hcr]
  simp

/-- The header is found complete with the CR of its terminator, and there are no body bytes
    before its last LF. -/
theorem strHeaderOk_cut {w : List Byte} (hw : w <+: [10, 13]) :
    strHeaderOk cfg (decimal n ++ 32 :: 13 :: w) l v =
      .next { l with headercheck := true }
        { v with status := .ok, filelen := sizeT (atol (decimal n)) } := by
  obtain rfl | ⟨w', rfl, hw'⟩ : w = [] ∨ ∃ w', w = 10 :: w' ∧ (w' = [] ∨ w' = [13]) := by
    obtain ⟨u, hu⟩ := hw
    rcases w with - | ⟨x, w'⟩
    · exact Or.inl rfl
    · rw [List.cons_append] at hu
      obtain ⟨rfl, hu'⟩ := List.cons.inj hu
      refine Or.inr ⟨w', rfl, ?_⟩
      rcases List.append_eq_singleton_iff.mp hu' with ⟨h, -⟩ | ⟨h, -⟩
      · exact Or.inl h
      · exact Or.inr h
  · rw [strHeaderOk_complete (afterTokens_length_cr n)]
    simp [strChooseData]
  · rw [strHeaderOk_complete (afterTokens_length_crlf n w')]
    have hnone : strChooseData (firstToken (ascii "\n") w')
        (firstToken (ascii "\n") (restToken (ascii "\n") w')) = none := by
      rcases hw' with rfl | rfl <;> decide
    rw [hnone]

/-- The header is there, and `b` of the body. -/
theorem strHeaderOk_whole (b : List Byte) :
    strHeaderOk cfg (decimal n ++ 32 :: 13 :: 10 :: 13 :: 10 :: b) l v =
      match firstToken (ascii "\n") b with
      | none => .next { l with headercheck := true }
          { v with status := .ok, filelen := sizeT (atol (decimal n)) }
      | some data => strFirstData cfg (decimal n) data { l with headercheck := true }
          { v with status := .ok, filelen := sizeT (atol (decimal n)) } := by
  have h := @strHeaderOk_complete cfg _ _ _ l v (afterTokens_length_crlf n (13 :: 10 :: b))
  rw [strChooseData_body] at h
  exact h

end Header

/-! ## The header phase on the stream of the server -/

section Stream

variable {cfg : Config} {e : Ending} {n k : ℕ} {pre cs : List Chunk} {c : Chunk} {v : View}

/-- The locals when `k` bytes of the header have been received. -/
def waiting (n k : ℕ) : StrLocals := ⟨(Gfserver.okHeader n).take k, false, k, 0⟩

/-- The header for a `size_t` is short. -/
theorem okHeader_length_le (hn : n < 2 ^ 64) : (Gfserver.okHeader n).length ≤ 36 := by
  have hlen := okHeader_length n
  have hdec := decimal_length_le hn
  omega

theorem perform_prefix (cfg : Config) (e : Ending) (pre cs : List Chunk) (v : View)
    (hfull : ∀ d ∈ pre, d.data.length < BUFSIZE) (hlt : k + (received pre).length < 2 ^ 64)
    (hk : k + (received pre).length + 4 ≤ (Gfserver.okHeader n).length)
    (hpre : received pre = ((Gfserver.okHeader n).drop k).take (received pre).length) :
    ∃ v', perform cfg e (pre ++ cs) (waiting n k) v =
        perform cfg e cs (waiting n (k + (received pre).length)) v' ∧
      v'.log = v.log ∧ v'.bytesFileReceived = v.bytesFileReceived :=
  perform_reading cfg e pre cs v (zero_not_mem_okHeader n)
    (fun _ _ hj => strParseHeader_prefix ((Nat.add_le_add_right hj 4).trans hk) rfl rfl) hfull hlt hpre

theorem length_le_received {d : Chunk} {cs : List Chunk} (h : d ∈ cs) :
    d.data.length ≤ (received cs).length := by
  obtain ⟨cs₁, cs₂, rfl⟩ := List.append_of_mem h
  rw [received_append, received_cons, List.length_append, List.length_append]
  omega

/-- `perform_prefix` from the start. -/
theorem perform_received (cfg : Config) (e : Ending) (pre cs : List Chunk) (v : View)
    (hn : n < 2 ^ 64) (hk : (received pre).length + 4 ≤ (Gfserver.okHeader n).length)
    (hpre : received pre = (Gfserver.okHeader n).take (received pre).length) :
    ∃ v', perform cfg e (pre ++ cs) (waiting n 0) v =
        perform cfg e cs (waiting n (received pre).length) v' ∧
      v'.log = v.log ∧ v'.bytesFileReceived = v.bytesFileReceived := by
  have hshort := okHeader_length_le hn
  have hfull : ∀ d ∈ pre, d.data.length < BUFSIZE := by
    intro d hd
    have hle := length_le_received hd
    unfold BUFSIZE
    omega
  obtain ⟨v', hv', hlog⟩ := perform_prefix cfg e pre cs v (n := n) (k := 0) hfull (by omega) (by omega)
    (by simpa using hpre)
  exact ⟨v', by rwa [Nat.zero_add] at hv', hlog⟩

/-- The view when the header has been found complete after `total` bytes. -/
def View.accepted (v : View) (n total : ℕ) : View :=
  { v with bytesreceived := total, status := .ok, filelen := sizeT (atol (decimal n)) }

/-- The chunk goes beyond the length and the space but not beyond the header: the missing
    bytes of the terminator will be counted as body. -/
theorem perform_cut (hfull : c.data.length < BUFSIZE) (hlt : k + c.data.length < 2 ^ 64)
    (hk : (Gfserver.okHeader n).length < k + c.data.length + 4)
    (hk' : k + c.data.length < (Gfserver.okHeader n).length)
    (hc : c.data = ((Gfserver.okHeader n).drop k).take c.data.length) :
    perform cfg e (c :: cs) (waiting n k) v =
      perform cfg e cs { waiting n (k + c.data.length) with headercheck := true }
        (v.accepted n (k + c.data.length)) := by
  have hlen := okHeader_length n
  have h11 : (ascii "GETFILE OK ").length = 11 := by decide
  have hcrlf : ascii "\r\n\r\n" = 13 :: ([10, 13] ++ [10]) := by decide
  obtain ⟨j, hj, hj2⟩ : ∃ j, k + c.data.length = (decimal n).length + 12 + (j + 1) ∧ j ≤ 2 :=
    ⟨k + c.data.length - (decimal n).length - 13, by omega, by omega⟩
  have hF : (reading (Gfserver.okHeader n) (k + c.data.length)).fullData =
      ascii "GETFILE OK " ++ (decimal n ++ 32 :: 13 :: [10, 13].take j) := by
    have hbefore : (ascii "GETFILE OK " ++ (decimal n ++ [32])).length = (decimal n).length + 12 := by
      simp only [List.length_append, h11, List.length_singleton]
      omega
    rw [reading, hj, okHeader_eq, ← hbefore, List.take_length_add_append, hcrlf, List.take_succ_cons,
      List.take_append_of_le_length (by simpa using hj2)]
    simp only [List.append_assoc, List.singleton_append]
  apply (perform_reading_chunk (zero_not_mem_okHeader n) hfull hlt hc).trans
  rw [strParseHeader_ok hF (by simp only [reading]; omega), strHeaderOk_cut (List.take_prefix _ _)]
  rfl

/-- The chunk brings the rest of the header and the body bytes `b`, of which only those
    before the first NUL are seen. -/
theorem perform_whole {b : List Byte} (hlt : k + c.data.length < 2 ^ 64)
    (hk : k + 4 ≤ (Gfserver.okHeader n).length)
    (hc : c.data = (Gfserver.okHeader n).drop k ++ b)
    (hclean : c.data.length < BUFSIZE ∨ 0 ∈ c.data) :
    perform cfg e (c :: cs) (waiting n k) v =
      (match firstToken (ascii "\n") (b.takeWhile (· ≠ 0)) with
        | none => StrFlow.next
          ⟨Gfserver.okHeader n ++ b.takeWhile (· ≠ 0), true, k + c.data.length, 0⟩
          (v.accepted n (k + c.data.length))
        | some data => strFirstData cfg (decimal n) data
          ⟨Gfserver.okHeader n ++ b.takeWhile (· ≠ 0), true, k + c.data.length, 0⟩
          (v.accepted n (k + c.data.length))).continue cfg e cs := by
  have hlen := okHeader_length n
  have hF : Gfserver.okHeader n ++ b.takeWhile (· ≠ 0) =
      ascii "GETFILE OK " ++ (decimal n ++ 32 :: 13 :: 10 :: 13 :: 10 :: b.takeWhile (· ≠ 0)) := by
    have hcrlf : ascii "\r\n\r\n" = [13, 10, 13, 10] := by decide
    simp only [okHeader_eq, hcrlf, List.append_assoc, List.cons_append, List.nil_append]
  have htotal : 10 < k + c.data.length := by
    have hclen := congrArg List.length hc
    rw [List.length_append, List.length_drop] at hclen
    omega
  apply (perform_reading_whole (zero_not_mem_okHeader n) hlt (by omega) hc hclean).trans
  rw [strParseHeader_ok hF htotal, strHeaderOk_whole]
  rfl

end Stream

/-! ## Clean cuts -/

/-- The request has got the file `B`: `gfc_perform` has returned 0 with all of the stream
    received, and the status, the lengths and the data written are right. -/
def Transferred (B : List Byte) (rs : Recvs) (res : Except Fault (Outcome × List Event)) : Prop :=
  ∃ log, res = .ok (⟨0, .ok, B.length, B.length, (received rs.chunks).length⟩, log) ∧
    (writes log).flatten = B

/-- The file is not empty and its length fits into a `long`; the first chunk that goes beyond
    the length and the space of the header reaches its end, does not fill `buf`, and brings
    neither a NUL nor an LF of the body. -/
structure CleanCut (B : List Byte) (chunks : List Chunk) : Prop where
  ne_nil : B ≠ []
  lt : B.length < 2 ^ 63
  cut : ∃ pre c post, chunks = pre ++ c :: post ∧
    (received pre).length + 4 ≤ (Gfserver.okHeader (sizeT B.length)).length ∧
    (Gfserver.okHeader (sizeT B.length)).length ≤ (received pre).length + c.data.length ∧
    c.data.length < BUFSIZE ∧
    ∀ x ∈ c.data.drop ((Gfserver.okHeader (sizeT B.length)).length - (received pre).length),
      x ≠ 0 ∧ x ≠ 10

theorem exists_crossing (cs : List Chunk) {T : ℕ} (h : T < (received cs).length) :
    ∃ pre c post, cs = pre ++ c :: post ∧ (received pre).length ≤ T ∧
      T < (received pre).length + c.data.length := by
  induction cs generalizing T with
  | nil => simp at h
  | cons c cs ih =>
    rcases Nat.lt_or_ge T c.data.length with hc | hc
    · exact ⟨[], c, cs, rfl, by simp, by simpa using hc⟩
    · rw [received_cons, List.length_append] at h
      obtain ⟨pre, c', post, rfl, h1, h2⟩ := ih (T := T - c.data.length) (by omega)
      refine ⟨c :: pre, c', post, rfl, ?_, ?_⟩ <;> rw [received_cons, List.length_append] <;> omega

/-- `atol` reads the length up to `LONG_MAX`. -/
theorem filelen_decimal (n : ℕ) : sizeT (atol (decimal n)) = min n (2 ^ 63 - 1) := by
  have h : atol (decimal n) = ((min n (2 ^ 63 - 1) : ℕ) : ℤ) := by
    rw [atol_decimal]
    push_cast
    norm_num
  rw [h]
  exact sizeT_natCast (by omega)

theorem perform_body_filelen {cfg : Config} {e : Ending} {cs : List Chunk} {l : StrLocals}
    {v v' : View} (hl : l.headercheck = true) (h : perform cfg e cs l v = .ok (0, v')) :
    v'.filelen = v.filelen := by
  rcases perform_body_inv hl h with hret | ⟨-, cs₁, cs₂, -, -, -, rfl⟩
  · cases hret
  · rfl

/-- A body phase that ends well at the end of the stream has counted the announced length. -/
theorem body_counts {cfg : Config} {e : Ending} {cs : List Chunk} {l : StrLocals} {v v' : View}
    (hl : l.headercheck = true) (h : perform cfg e cs l v = .ok (0, v'))
    (htotal : v'.bytesreceived = l.bytesReceivedTotal + (received cs).length)
    (hlt : l.bytesReceivedTotal + (received cs).length < 2 ^ 64)
    (hlt' : l.bytesReceivedFILE + (received cs).length < 2 ^ 64) :
    cs ≠ [] ∧ v'.filelen = v.filelen ∧ l.bytesReceivedFILE + (received cs).length = v.filelen := by
  rcases perform_body_inv hl h with hret | ⟨-, cs₁, cs₂, rfl, hne, hfile, rfl⟩
  · cases hret
  · rw [received_append, List.length_append] at htotal hlt hlt'
    simp only [View.afterChunks] at htotal
    rw [sizeT_add (by omega)] at htotal hfile
    rw [received_append, List.length_append]
    exact ⟨by simp [hne], rfl, by omega⟩

theorem takeWhile_clean {b : List Byte} (hb : ∀ x ∈ b, x ≠ 0 ∧ x ≠ 10) :
    b.takeWhile (· ≠ 0) = b :=
  List.takeWhile_eq_self_iff.mpr fun a ha => by simpa using (hb a ha).1

/-- A string without an LF is one line. -/
theorem firstToken_line {b : List Byte} (hne : b ≠ []) (hb : ∀ x ∈ b, x ≠ 0 ∧ x ≠ 10) :
    firstToken (ascii "\n") b = some b :=
  (firstToken_of_token (token_whole hne fun x hx => by
    have h := (hb x hx).2
    simpa [ascii] using h)).1

/-- The line that comes with the header is no longer than what comes behind it. -/
theorem firstData_length_le {b x : List Byte}
    (h : firstToken (ascii "\n") (b.takeWhile (· ≠ 0)) = some x) : x.length ≤ b.length := by
  have hlen := token_length_lt (token_eq_some h)
  have hpre : (b.takeWhile (· ≠ 0)).length ≤ b.length := (List.takeWhile_prefix _).length_le
  omega

/-- A chunk that `strcat` does not leave `buf` with is not full, if the body brings no NUL. -/
theorem fits_of_clean {c : Chunk} {n k : ℕ} {b : List Byte}
    (hc : c.data = (Gfserver.okHeader n).drop k ++ b)
    (hclean : c.data.length < BUFSIZE ∨ 0 ∈ c.data) (hb : ∀ x ∈ b, x ≠ 0 ∧ x ≠ 10) :
    c.data.length < BUFSIZE := by
  refine hclean.resolve_right fun h0 => ?_
  rw [hc] at h0
  rcases List.mem_append.mp h0 with h0 | h0
  · exact zero_not_mem_okHeader n (List.mem_of_mem_drop h0)
  · exact (hb 0 h0).1 rfl

/-- A line without an LF is the whole of its string. -/
theorem firstToken_whole {b x : List Byte}
    (h : firstToken (ascii "\n") (b.takeWhile (· ≠ 0)) = some x) (hx : b.length ≤ x.length) :
    x = b ∧ ∀ y ∈ b, y ≠ 0 ∧ y ≠ 10 := by
  have hpre : (b.takeWhile (· ≠ 0)).length ≤ b.length := (List.takeWhile_prefix _).length_le
  have hself : b.takeWhile (· ≠ 0) = b := by
    apply (List.takeWhile_prefix _).eq_of_length_le
    have := token_length_lt (token_eq_some h)
    omega
  have hno0 := List.takeWhile_eq_self_iff.mp hself
  rw [hself] at h
  obtain ⟨sp, -, -, hxd, ⟨hb, -⟩ | ⟨y, -, hb⟩⟩ := token_eq_some_iff.mp (token_eq_some h)
  · have hlen := congrArg List.length hb
    rw [List.length_append] at hlen
    obtain rfl : sp = [] := List.length_eq_zero_iff.mp (by omega)
    obtain rfl : b = x := hb
    refine ⟨rfl, fun y hy => ⟨by simpa using hno0 y hy, ?_⟩⟩
    rintro rfl
    exact hxd 10 hy (by decide)
  · have hlen := congrArg List.length hb
    simp only [List.length_append, List.length_cons] at hlen
    omega

/-- The stream, seen from a chunk that starts in the header. -/
theorem split_stream {H B : List Byte} {pre post : List Chunk} {c : Chunk}
    (hs : received (pre ++ c :: post) = H ++ B) (hpre : (received pre).length ≤ H.length) :
    received pre = H.take (received pre).length ∧
      c.data ++ received post = H.drop (received pre).length ++ B := by
  rw [received_append, received_cons] at hs
  have h1 := congrArg (List.take (received pre).length) hs
  have h2 := congrArg (List.drop (received pre).length) hs
  rw [List.take_left, List.take_append_of_le_length hpre] at h1
  rw [List.drop_left, List.drop_append_of_le_length hpre] at h2
  exact ⟨h1, h2⟩

/-- The chunk ends in the header. -/
theorem split_cut {H B : List Byte} {pre post : List Chunk} {c : Chunk}
    (hs : received (pre ++ c :: post) = H ++ B)
    (hc : (received pre).length + c.data.length ≤ H.length) :
    c.data = (H.drop (received pre).length).take c.data.length := by
  have h := congrArg (List.take c.data.length) (split_stream hs (by omega)).2
  rwa [List.take_left, List.take_append_of_le_length (by rw [List.length_drop]; omega)] at h

/-- The chunk reaches the end of the header. -/
theorem split_whole {H B : List Byte} {pre post : List Chunk} {c : Chunk}
    (hs : received (pre ++ c :: post) = H ++ B) (hpre : (received pre).length ≤ H.length)
    (hc : H.length ≤ (received pre).length + c.data.length) :
    ∃ b, c.data = H.drop (received pre).length ++ b ∧ B = b ++ received post ∧
      b = c.data.drop (H.length - (received pre).length) := by
  obtain ⟨-, h⟩ := split_stream hs hpre
  have hlen : (H.drop (received pre).length).length ≤ c.data.length := by
    rw [List.length_drop]
    omega
  obtain ⟨b, hb⟩ : H.drop (received pre).length <+: c.data :=
    List.prefix_of_prefix_length_le ⟨B, h.symm⟩ ⟨received post, rfl⟩ hlen
  refine ⟨b, hb.symm, ?_, ?_⟩
  · rw [← hb, List.append_assoc] at h
    exact (List.append_cancel_left h).symm
  · rw [← hb, ← List.length_drop, List.drop_left]

/-- A request that runs alone transfers the file exactly if the client on strings does. -/
theorem transferred_request {B : List Byte} {rs : Recvs} {junk : Gfcrequest} {cfg : Config} :
    Transferred B rs (request junk cfg rs) ↔ ∃ v, performRequest cfg rs ⟨0, 0⟩ = .ok (0, v) ∧
      v.status = .ok ∧ v.filelen = B.length ∧ v.bytesFileReceived = B.length ∧
      v.bytesreceived = (received rs.chunks).length ∧ (writes v.log).flatten = B := by
  unfold Transferred
  rw [request_eq]
  constructor
  · rintro ⟨log, h, hlog⟩
    cases hp : performRequest cfg rs ⟨0, 0⟩ with
    | error f => rw [hp] at h; cases h
    | ok b =>
      obtain ⟨ret, v⟩ := b
      rw [hp] at h
      simp only [Except.map, View.outcome, Except.ok.injEq, Prod.mk.injEq, Outcome.mk.injEq] at h
      obtain ⟨⟨rfl, h1, h2, h3, h4⟩, rfl⟩ := h
      exact ⟨v, rfl, h1, h2, h3, h4, hlog⟩
  · rintro ⟨v, hp, h1, h2, h3, h4, hlog⟩
    refine ⟨v.log, ?_, hlog⟩
    rw [hp]
    simp only [Except.map, View.outcome, h1, h2, h3, h4]

section Crossing

variable {cfg : Config} {e : Ending} {n k : ℕ} {b : List Byte} {c : Chunk} {post : List Chunk}
  {v v' : View}

/-- A cut inside the terminator of the header: its missing bytes are counted as body, and a
    request that ends well has not got all of the stream. -/
theorem not_performed_cut {body : ℕ} (hn : n < 2 ^ 64)
    (hk : (Gfserver.okHeader n).length < k + c.data.length + 4)
    (hk' : k + c.data.length < (Gfserver.okHeader n).length)
    (hc : c.data = ((Gfserver.okHeader n).drop k).take c.data.length)
    (hlen : k + c.data.length + (received post).length = (Gfserver.okHeader n).length + body)
    (hfilelen : v'.filelen = body)
    (htotal : v'.bytesreceived = k + c.data.length + (received post).length) :
    perform cfg e (c :: post) (waiting n k) v ≠ .ok (0, v') := by
  intro hrun
  have hhead := okHeader_length_le hn
  rw [perform_cut (by unfold BUFSIZE; omega) (by omega) hk hk' hc] at hrun
  have hfl := (perform_body_filelen rfl hrun).trans (filelen_decimal n)
  obtain ⟨-, -, hcount⟩ := body_counts rfl hrun htotal (by simp only [waiting]; omega)
    (by simp only [waiting]; omega)
  simp only [waiting, View.accepted, filelen_decimal] at hcount
  omega

/-- The chunk reaches the end of the header and brings the body bytes `b`. If the request ends
    well with all of the stream, all of `b` has been seen. -/
theorem clean_of_performed {body : ℕ} (hn : n < 2 ^ 64)
    (hk : k + 4 ≤ (Gfserver.okHeader n).length) (hc : c.data = (Gfserver.okHeader n).drop k ++ b)
    (hrun : perform cfg e (c :: post) (waiting n k) v = .ok (0, v'))
    (hlen : body = b.length + (received post).length) (hfilelen : v'.filelen = body)
    (htotal : v'.bytesreceived = k + c.data.length + (received post).length) :
    0 < body ∧ body < 2 ^ 63 ∧ c.data.length < BUFSIZE ∧ ∀ x ∈ b, x ≠ 0 ∧ x ≠ 10 := by
  have hhead := okHeader_length n
  have hdec := decimal_length_le hn
  have hclen : c.data.length = (Gfserver.okHeader n).length - k + b.length := by
    rw [hc, List.length_append, List.length_drop]
  by_cases hclean : c.data.length < BUFSIZE ∨ 0 ∈ c.data
  swap
  · -- `strcat` leaves `buf`
    rw [perform_header_unterminated rfl hclean] at hrun
    cases hrun
  have hcle := c.le
  rw [perform_whole (by unfold BUFSIZE at hcle; omega) hk hc hclean] at hrun
  cases htok : firstToken (ascii "\n") (b.takeWhile (· ≠ 0)) with
  | none =>
    rw [htok] at hrun
    dsimp only [StrFlow.continue] at hrun
    have hfl := (perform_body_filelen rfl hrun).trans (filelen_decimal n)
    obtain ⟨hpost, -, hcount⟩ := body_counts rfl hrun htotal (by simp only; omega)
      (by simp only; omega)
    simp only [View.accepted, filelen_decimal] at hcount
    obtain rfl : b = [] := List.length_eq_zero_iff.mp (by omega)
    obtain ⟨c', post', rfl⟩ := List.exists_cons_of_ne_nil hpost
    have hpos := c'.length_pos
    rw [received_cons, List.length_append] at hlen
    exact ⟨by omega, by omega, fits_of_clean hc hclean (by simp), by simp⟩
  | some x =>
    rw [htok] at hrun
    have hxlen := firstData_length_le htok
    have hxpos : 0 < x.length := by
      obtain ⟨-, -, hne, -⟩ := token_eq_some_iff.mp (token_eq_some htok)
      exact List.length_pos_of_ne_nil hne
    have hfile : sizeT (((0 : ℕ) : ℤ) + x.length) = x.length := by
      rw [sizeT_add (by unfold BUFSIZE at hcle; omega), Nat.zero_add]
    dsimp only at hrun
    unfold strFirstData at hrun
    dsimp only at hrun
    rw [hfile] at hrun
    simp only [View.accepted, filelen_decimal] at hrun
    -- `x` is as long as `b`
    have hx : b.length ≤ x.length ∧ body < 2 ^ 63 := by
      by_cases heq : x.length = min n (2 ^ 63 - 1)
      · rw [if_pos heq] at hrun
        cases hrun
        simp only at hfilelen htotal
        omega
      · rw [if_neg heq] at hrun
        dsimp only [StrFlow.continue] at hrun
        have hfl := perform_body_filelen rfl hrun
        simp only at hfl
        obtain ⟨-, -, hcount⟩ := body_counts rfl hrun htotal (by simp only; omega)
          (by simp only; omega)
        simp only at hcount
        omega
    obtain ⟨rfl, hb⟩ := firstToken_whole htok hx.1
    exact ⟨by omega, hx.2, fits_of_clean hc hclean hb, hb⟩

/-- The chunk reaches the end of the header and brings the body bytes `b` without NUL and LF;
    `post` brings the rest of the body. -/
theorem performed_of_clean (hlt : n < 2 ^ 63) (hpos : 0 < n)
    (hk : k + 4 ≤ (Gfserver.okHeader n).length) (hc : c.data = (Gfserver.okHeader n).drop k ++ b)
    (hfull : c.data.length < BUFSIZE) (hb : ∀ x ∈ b, x ≠ 0 ∧ x ≠ 10)
    (hlen : n = b.length + (received post).length) (hlog : writes v.log = []) :
    ∃ v', perform cfg e (c :: post) (waiting n k) v = .ok (0, v') ∧ v'.status = .ok ∧
      v'.filelen = n ∧ v'.bytesFileReceived = n ∧
      v'.bytesreceived = k + c.data.length + (received post).length ∧
      (writes v'.log).flatten = b ++ received post := by
  have hhead := okHeader_length n
  have hdec := decimal_length_le (n := n) (by omega)
  have hcle := c.le
  have hfl : sizeT (atol (decimal n)) = n := by
    rw [filelen_decimal]
    omega
  have hsize : sizeT (((k + c.data.length : ℕ) : ℤ) + (received post).length) =
      k + c.data.length + (received post).length :=
    sizeT_add (by unfold BUFSIZE at hcle; omega)
  rw [perform_whole (by unfold BUFSIZE at hcle; omega) hk hc (Or.inl hfull), takeWhile_clean hb]
  rcases eq_or_ne b [] with rfl | hbne
  · -- all of the body comes behind this chunk
    rw [List.length_nil, Nat.zero_add] at hlen
    have hpost : post ≠ [] := by
      rintro rfl
      rw [received_nil, List.length_nil] at hlen
      omega
    rw [firstToken_nil]
    dsimp only [StrFlow.continue]
    rw [perform_body_complete rfl hpost (by simp only [View.accepted]; omega)
      (by simp only [View.accepted]; omega)]
    refine ⟨_, rfl, rfl, hfl, hfl, hsize, ?_⟩
    simp only [View.afterChunks, View.accepted, writes_append, hlog, List.nil_append, writes_map]
  · rw [firstToken_line hbne hb]
    have hfile : sizeT (((0 : ℕ) : ℤ) + b.length) = b.length := by
      rw [sizeT_add (by omega), Nat.zero_add]
    dsimp only
    unfold strFirstData
    dsimp only
    rw [hfile]
    simp only [View.accepted, hfl]
    by_cases heq : b.length = n
    · -- and all of it with this chunk
      rw [if_pos heq]
      have hpost : post = [] := by
        cases post with
        | nil => rfl
        | cons c' post =>
          have := c'.length_pos
          rw [received_cons, List.length_append] at hlen
          omega
      subst hpost
      refine ⟨_, rfl, rfl, rfl, heq, rfl, ?_⟩
      simp only [writes_append, writes_headCalls, hlog, List.nil_append]
      rfl
    · rw [if_neg heq]
      have hpost : post ≠ [] := by
        rintro rfl
        rw [received_nil, List.length_nil] at hlen
        omega
      dsimp only [StrFlow.continue]
      rw [perform_body_complete rfl hpost (by simp only; omega) (by simp only; omega)]
      refine ⟨_, rfl, rfl, rfl, rfl, hsize, ?_⟩
      simp only [View.afterChunks, writes_append, writes_headCalls, hlog, List.nil_append,
        List.flatten_append, writes_map]
      exact congrArg (· ++ received post) (List.append_nil b)

end Crossing

theorem CleanCut.transferred {B : List Byte} {rs : Recvs} (hcut : CleanCut B rs.chunks)
    (hs : received rs.chunks = serverStream B) (cfg : Config) (h : Handle) :
    ∃ v, performRequest cfg rs h = .ok (0, v) ∧
      v.status = .ok ∧ v.filelen = B.length ∧ v.bytesFileReceived = B.length ∧
      v.bytesreceived = (received rs.chunks).length ∧ (writes v.log).flatten = B := by
  obtain ⟨hne, hlt, pre, c, post, hchunks, hk, hreach, hfull, hclean⟩ := hcut
  obtain ⟨chunks, ending⟩ := rs
  dsimp only at hchunks hs
  subst hchunks
  have hsize : sizeT (B.length : ℤ) = B.length := sizeT_natCast (by omega)
  unfold serverStream at hs
  rw [hsize] at hs hk hreach hclean
  obtain ⟨b, hc, hB, hb⟩ := split_whole hs (by omega) hreach
  rw [← hb] at hclean
  obtain ⟨v₁, hv₁, hlog₁, -⟩ := perform_received cfg ending pre (c :: post)
    (View.initial h cfg.path) (by omega) hk (split_stream hs (by omega)).1
  obtain ⟨v, hv, hst, hfilelen, hfile, htotal, hwrites⟩ := @performed_of_clean cfg ending _ _ b c
    post v₁ hlt (List.length_pos_of_ne_nil hne) hk hc hfull hclean
    ((congrArg List.length hB).trans List.length_append) (by rw [hlog₁]; rfl)
  refine ⟨v, hv₁.trans hv, hst, hfilelen, hfile, ?_, hwrites.trans hB.symm⟩
  rw [htotal, received_append, received_cons, List.length_append, List.length_append, add_assoc]

theorem CleanCut.of_performed {B : List Byte} {rs : Recvs} {cfg : Config} {h : Handle} {v : View}
    (hs : received rs.chunks = serverStream B) (hrun : performRequest cfg rs h = .ok (0, v))
    (hfilelen : v.filelen = B.length) (htotal : v.bytesreceived = (received rs.chunks).length) :
    CleanCut B rs.chunks := by
  obtain ⟨chunks, ending⟩ := rs
  dsimp only at hs htotal ⊢
  unfold serverStream at hs
  have hn : sizeT (B.length : ℤ) < 2 ^ 64 := sizeT_lt _
  generalize hndef : sizeT (B.length : ℤ) = n at hs hn
  have hhead := okHeader_length n
  have hlen : (received chunks).length = (Gfserver.okHeader n).length + B.length := by
    rw [hs, List.length_append]
  obtain ⟨pre, c, post, rfl, hk, hreach⟩ := @exists_crossing chunks
    ((Gfserver.okHeader n).length - 4) (by omega)
  rw [received_append, received_cons, List.length_append, List.length_append, ← add_assoc]
    at hlen htotal
  obtain ⟨v₁, hv₁, -⟩ := perform_received cfg ending pre (c :: post) (View.initial h cfg.path) hn
    (by omega) (split_stream hs (by omega)).1
  have hrun₁ := hv₁.symm.trans hrun
  rcases Nat.lt_or_ge ((received pre).length + c.data.length) (Gfserver.okHeader n).length with
    hcut | hwhole
  · exact absurd hrun₁
      (not_performed_cut hn (by omega) hcut (split_cut hs hcut.le) hlen hfilelen htotal)
  · obtain ⟨b, hc, hB, hb⟩ := split_whole hs (by omega) hwhole
    obtain ⟨hpos, hlt, hfull, hclean⟩ := clean_of_performed hn (by omega) hc hrun₁
      ((congrArg List.length hB).trans List.length_append) hfilelen htotal
    exact ⟨List.ne_nil_of_length_pos hpos, hlt, pre, c, post, rfl, by rw [hndef]; omega,
      by rwa [hndef], hfull, by rwa [hndef, ← hb]⟩

/-- The transfer of a file succeeds, for whatever request and callbacks, exactly if the stream
    is cut cleanly. -/
theorem transferred_iff (B : List Byte) (rs : Recvs) (junk : Gfcrequest) (cfg : Config)
    (hs : received rs.chunks = serverStream B) :
    Transferred B rs (request junk cfg rs) ↔ CleanCut B rs.chunks := by
  rw [transferred_request]
  constructor
  · rintro ⟨v, hrun, -, hfilelen, -, htotal, -⟩
    exact CleanCut.of_performed hs hrun hfilelen htotal
  · intro hcut
    exact hcut.transferred hs cfg ⟨0, 0⟩

/-- The header and the file "hi" in one chunk. -/
theorem transferred_iff_hi :
    Transferred (ascii "hi")
      ⟨[⟨serverStream (ascii "hi"), by decide +kernel, by decide +kernel⟩], .close⟩
      (request .zeroed (downloadConfig (ascii "localhost") (ascii "/a") 8080 2)
        ⟨[⟨serverStream (ascii "hi"), by decide +kernel, by decide +kernel⟩], .close⟩) :=
  (transferred_iff (ascii "hi")
    ⟨[⟨serverStream (ascii "hi"), by decide +kernel, by decide +kernel⟩], .close⟩ .zeroed
    (downloadConfig (ascii "localhost") (ascii "/a") 8080 2) (by decide +kernel)).mpr
    ⟨by decide, by decide, [], ⟨serverStream (ascii "hi"), by decide +kernel, by decide +kernel⟩, [],
      rfl, by decide +kernel, by decide +kernel, by decide +kernel, by decide +kernel⟩

/-- The header and the file "a\nb" in one chunk: the bytes behind the LF are lost. -/
theorem not_transferred_lf :
    ¬ ∀ (B : List Byte) (rs : Recvs) (junk : Gfcrequest) (cfg : Config),
      received rs.chunks = serverStream B → Transferred B rs (request junk cfg rs) := by
  intro h
  obtain ⟨log, hres, -⟩ := h (ascii "a\nb")
    ⟨[⟨serverStream (ascii "a\nb"), by decide +kernel, by decide +kernel⟩], .close⟩ .zeroed
    (downloadConfig (ascii "localhost") (ascii "/a") 8080 2) (by decide +kernel)
  have hret : ((request .zeroed (downloadConfig (ascii "localhost") (ascii "/a") 8080 2)
      ⟨[⟨serverStream (ascii "a\nb"), by decide +kernel, by decide +kernel⟩], .close⟩).map
      fun r => r.1.ret) = .ok (-1) := by decide +kernel
  rw [hres] at hret
  cases hret

end IntroOS.Gfclient
