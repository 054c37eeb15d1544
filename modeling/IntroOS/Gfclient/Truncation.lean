import IntroOS.Gfclient.Transfer
import IntroOS.Gfclient.Survival

/-!
# Transfers cut short

A proper prefix of the stream of a file that contains the whole header, and then the end of the
connection. The client tells a cut from a complete transfer by its count of body bytes only.

Main results:

* `body_reported_iff`: in the body phase, a cut is reported unless the count hits the announced
  length at the end of a chunk.
* `truncated_reported_iff`: the cuts that are reported with the right count.
-/

namespace IntroOS.Gfclient

open CString Concurrency

/-! ## The end of the body phase -/

section Body

variable {cfg : Config} {e : Ending} {cs : List Chunk} {l : StrLocals} {v : View} {n : ℕ}

/-- `gfc_perform` reports a failure and `n` bytes of the body. -/
def Reports (res : Except Fault (ℤ × View)) (n : ℕ) : Prop :=
  ∃ ret v, res = .ok (ret, v) ∧ ret < 0 ∧ v.bytesFileReceived = n

theorem Reports.done {ret : ℤ} : Reports (.ok (ret, v)) n ↔ ret < 0 ∧ v.bytesFileReceived = n := by
  constructor
  · rintro ⟨ret', v', h, hret, hn⟩
    cases h
    exact ⟨hret, hn⟩
  · rintro ⟨hret, hn⟩
    exact ⟨ret, v, rfl, hret, hn⟩

/-- The end of the connection leaves the count of body bytes. -/
theorem strRecvEnd_reports (hs : Closes l.fullData) :
    Reports (strRecvEnd e l v) n ↔ v.bytesFileReceived = n := by
  cases e with
  | error => exact Reports.done.trans (and_iff_right (by decide))
  | close =>
    obtain ⟨status, hstatus⟩ := Option.ne_none_iff_exists'.mp hs
    unfold strRecvEnd
    simp only [hstatus]
    cases firstToken (ascii " \r\n") (restToken (ascii " ") (restToken (ascii " ") l.fullData)) <;>
      split_ifs <;> exact Reports.done.trans (and_iff_right (by decide))

/-- Some chunks of `cs` bring the count of body bytes from `file` to the announced length. -/
def HitsLength (filelen file : ℕ) (cs : List Chunk) : Prop :=
  ∃ cs₁, cs₁ ≠ [] ∧ cs₁ <+: cs ∧ sizeT (file + (received cs₁).length) = filelen

theorem hitsLength_cons {filelen file : ℕ} {c : Chunk} :
    HitsLength filelen file (c :: cs) ↔ sizeT (file + c.data.length) = filelen ∨
      HitsLength filelen (sizeT (file + c.data.length)) cs := by
  have hsize : ∀ cs₁ : List Chunk, sizeT ((file : ℤ) + (received (c :: cs₁)).length) =
      sizeT (sizeT (file + c.data.length) + (received cs₁).length) := by
    intro cs₁
    rw [sizeT_add_right, received_cons, List.length_append, Nat.cast_add, add_assoc]
  constructor
  · rintro ⟨cs₁, hne, hpre, hlen⟩
    obtain ⟨d, cs₂, rfl⟩ := List.exists_cons_of_ne_nil hne
    obtain ⟨rfl, hpre₂⟩ := List.cons_prefix_cons.mp hpre
    rw [hsize] at hlen
    rcases eq_or_ne cs₂ [] with rfl | hne₂
    · rw [received_nil, List.length_nil, sizeT_add_right] at hlen
      exact Or.inl (by simpa using hlen)
    · exact Or.inr ⟨cs₂, hne₂, hpre₂, hlen⟩
  · rintro (hlen | ⟨cs₁, hne, hpre, hlen⟩)
    · exact ⟨[c], by simp, by simp, by simpa using hlen⟩
    · exact ⟨c :: cs₁, by simp, List.cons_prefix_cons.mpr ⟨rfl, hpre⟩, by rw [hsize]; exact hlen⟩

theorem not_hitsLength_iff {filelen file : ℕ} (hlt : file + (received cs).length < 2 ^ 64)
    (hfile : file = 0 ∨ file ≠ filelen) :
    ¬ HitsLength filelen file cs ↔ ∀ cs₁, cs₁ <+: cs →
      0 < file + (received cs₁).length → file + (received cs₁).length ≠ filelen := by
  have hsize : ∀ cs₁, cs₁ <+: cs →
      sizeT (file + (received cs₁).length) = file + (received cs₁).length := by
    rintro cs₁ ⟨cs₂, rfl⟩
    rw [received_append, List.length_append] at hlt
    exact sizeT_add (by omega)
  constructor
  · intro h cs₁ hpre hpos heq
    rcases eq_or_ne cs₁ [] with rfl | hne
    · rw [received_nil, List.length_nil, Nat.add_zero] at hpos heq
      exact hfile.elim (by omega) (fun hne => hne heq)
    · exact h ⟨cs₁, hne, hpre, (hsize cs₁ hpre).trans heq⟩
  · rintro h ⟨cs₁, hne, hpre, heq⟩
    rw [hsize cs₁ hpre] at heq
    refine h cs₁ hpre ?_ heq
    obtain ⟨c, cs₂, rfl⟩ := List.exists_cons_of_ne_nil hne
    have := c.length_pos
    rw [received_cons, List.length_append]
    omega

theorem body_reported_iff (hl : l.headercheck = true) (hs : Closes l.fullData)
    (hfile : v.bytesFileReceived = sizeT l.bytesReceivedFILE) :
    Reports (perform cfg e cs l v) n ↔ ¬ HitsLength v.filelen l.bytesReceivedFILE cs ∧
      sizeT (l.bytesReceivedFILE + (received cs).length) = n := by
  induction cs generalizing l v with
  | nil =>
    have hnone : ¬ HitsLength v.filelen l.bytesReceivedFILE [] := by
      rintro ⟨cs₁, hne, hpre, -⟩
      exact hne (List.prefix_nil.mp hpre)
    rw [perform, strRecvEnd_reports hs, hfile, received_nil, List.length_nil, and_iff_right hnone]
    simp
  | cons c cs ih =>
    rw [perform_body_cons hl, hitsLength_cons]
    by_cases heq : sizeT (l.bytesReceivedFILE + c.data.length) = v.filelen
    · rw [if_pos heq, Reports.done]
      simp [heq]
    · rw [if_neg heq, ih (l := l.count c.data.length) hl hs]
      · simp only [StrLocals.count, View.afterBody]
        rw [sizeT_add_right, received_cons, List.length_append, Nat.cast_add, add_assoc,
          not_or, and_iff_right heq]
      · exact (sizeT_natCast (sizeT_lt _)).symm

end Body

/-! ## Cuts of the stream of a file -/

/-- A stream that announces `n` bytes and is cut behind its header: the first chunk that goes
    beyond the length and the space of the header reaches its end, does not fill `buf`, and
    brings neither a NUL nor an LF of the body; and the body bytes at the ends of later chunks
    are never as many as announced (they are fewer unless 2^63 bytes or more are announced). -/
def CleanTruncation (n : ℕ) (chunks : List Chunk) : Prop :=
  ∃ pre c post, chunks = pre ++ c :: post ∧
    (received pre).length + 4 ≤ (Gfserver.okHeader n).length ∧
    (Gfserver.okHeader n).length ≤ (received pre).length + c.data.length ∧
    c.data.length < BUFSIZE ∧
    (∀ x ∈ c.data.drop ((Gfserver.okHeader n).length - (received pre).length), x ≠ 0 ∧ x ≠ 10) ∧
    (received chunks).length < (Gfserver.okHeader n).length + 2 ^ 64 ∧
    ∀ cs, cs <+: post →
      let file := (received (pre ++ c :: cs)).length - (Gfserver.okHeader n).length
      0 < file → file ≠ min n (2 ^ 63 - 1)

section Cuts

variable {cfg : Config} {e : Ending} {n k : ℕ} {b : List Byte} {c : Chunk} {post : List Chunk}
  {l : StrLocals} {v : View}

theorem closes_ok (s : List Byte) : Closes (ascii "GETFILE OK " ++ s) := by
  have hscheme : token (ascii " ") (ascii "GETFILE OK " ++ s) =
      some (ascii "GETFILE", ascii "OK " ++ s) := token_scheme (ascii "OK " ++ s)
  have hstatus : token (ascii " ") (ascii "OK " ++ s) = some (ascii "OK", s) :=
    token_front (t := ascii "OK") (y := 32) (by decide) (by decide +kernel) (by decide)
  rw [Closes, (firstToken_of_token hscheme).2, (firstToken_of_token hstatus).1]
  simp

theorem closes_okHeader (b : List Byte) : Closes (Gfserver.okHeader n ++ b) := by
  rw [okHeader_eq, List.append_assoc, List.append_assoc]
  exact closes_ok _

/-- A cut inside the terminator of the header: its missing bytes are counted. -/
theorem cut_not_reported (hn : n < 2 ^ 64)
    (hk : (Gfserver.okHeader n).length < k + c.data.length + 4)
    (hk' : k + c.data.length < (Gfserver.okHeader n).length)
    (hc : c.data = ((Gfserver.okHeader n).drop k).take c.data.length)
    (hv : v.bytesFileReceived = 0) {body : ℕ}
    (hbody : k + c.data.length + (received post).length = (Gfserver.okHeader n).length + body) :
    ¬ Reports (perform cfg e (c :: post) (waiting n k) v) body := by
  have hcloses : Closes (waiting n (k + c.data.length)).fullData := by
    have hlen := okHeader_length n
    have h11 : (ascii "GETFILE OK ").length = 11 := by decide
    rw [waiting, okHeader_eq, List.append_assoc, List.take_append, List.take_of_length_le (by omega)]
    exact closes_ok _
  have hshort := okHeader_length_le hn
  rw [perform_cut (by unfold BUFSIZE; omega) (by omega) hk hk' hc]
  intro h
  obtain ⟨-, hcount⟩ := (body_reported_iff
    (l := { waiting n (k + c.data.length) with headercheck := true })
    (v := v.accepted n (k + c.data.length)) rfl hcloses
    (hv.trans (sizeT_natCast (n := 0) (by norm_num)).symm)).mp h
  simp only [waiting] at hcount
  unfold sizeT at hcount
  omega

/-- The body bytes `b` come with the header and `post` behind it: no NUL and no LF is in `b`, and
    no count at the end of a chunk is the announced length `m`. -/
def CleanBody (m : ℕ) (b : List Byte) (post : List Chunk) : Prop :=
  (∀ x ∈ b, x ≠ 0 ∧ x ≠ 10) ∧ b.length + (received post).length < 2 ^ 64 ∧
    ∀ cs, cs <+: post → 0 < b.length + (received cs).length →
      b.length + (received cs).length ≠ m

/-- No line comes with the header: nothing of `b` is counted. -/
theorem no_line_reported_iff (hl : l.headercheck = true) (hs : Closes l.fullData)
    (hfile : l.bytesReceivedFILE = 0) (hv : v.bytesFileReceived = 0)
    (htok : firstToken (ascii "\n") (b.takeWhile (· ≠ 0)) = none) :
    Reports (perform cfg e post l v) (b.length + (received post).length) ↔
      CleanBody v.filelen b post := by
  have hzero : sizeT ((0 : ℕ) : ℤ) = 0 := sizeT_natCast (by norm_num)
  rw [body_reported_iff hl hs (by rw [hfile, hv, hzero]), hfile, Nat.cast_zero, zero_add]
  constructor
  · rintro ⟨hhits, hcount⟩
    have hlt := sizeT_lt ((received post).length : ℤ)
    have hle : sizeT ((received post).length : ℤ) ≤ (received post).length := by
      unfold sizeT
      omega
    obtain rfl : b = [] := List.length_eq_zero_iff.mp (by omega)
    rw [List.length_nil, Nat.zero_add] at hcount
    have hmiss := (@not_hitsLength_iff post v.filelen 0 (by omega) (Or.inl rfl)).mp hhits
    exact ⟨by simp, by rw [List.length_nil]; omega, hmiss⟩
  · rintro ⟨hb, hlt, hmiss⟩
    rw [takeWhile_clean hb] at htok
    -- a line without an LF would have been found
    obtain rfl : b = [] := by
      by_contra hne
      rw [firstToken_line hne hb] at htok
      cases htok
    refine ⟨(not_hitsLength_iff hlt (Or.inl rfl)).mpr hmiss, ?_⟩
    rw [List.length_nil, Nat.zero_add] at hlt ⊢
    exact sizeT_natCast hlt

/-- The line `x` comes with the header and is counted. -/
theorem line_reported_iff {x filelen : List Byte} (hl : l.headercheck = true)
    (hs : Closes l.fullData) (hfile : l.bytesReceivedFILE = 0) (hlt64 : b.length < 2 ^ 64)
    (htok : firstToken (ascii "\n") (b.takeWhile (· ≠ 0)) = some x) :
    Reports ((strFirstData cfg filelen x l v).continue cfg e post)
        (b.length + (received post).length) ↔ CleanBody v.filelen b post := by
  have hxlen := firstData_length_le htok
  have hcount : sizeT (((0 : ℕ) : ℤ) + x.length) = x.length := by
    rw [sizeT_add (by omega), Nat.zero_add]
  -- the line is all of `b` exactly if `b` is clean
  have hall : (∀ y ∈ b, y ≠ 0 ∧ y ≠ 10) → x = b := by
    intro hb
    have hne : b ≠ [] := by
      rintro rfl
      rw [List.takeWhile_nil, firstToken_nil] at htok
      cases htok
    rw [takeWhile_clean hb, firstToken_line hne hb] at htok
    exact (Option.some.inj htok).symm
  unfold strFirstData
  dsimp only
  rw [hfile, hcount]
  by_cases heq : x.length = v.filelen
  · rw [if_pos heq]
    dsimp only [StrFlow.continue]
    rw [Reports.done]
    refine ⟨fun h => absurd h.1 (by decide), fun ⟨hb, _, hmiss⟩ => ?_⟩
    have hx := hall hb
    have hpos : 0 < x.length := by
      apply List.length_pos_of_ne_nil
      obtain ⟨-, -, hne, -⟩ := token_eq_some_iff.mp (token_eq_some htok)
      exact hne
    have h := hmiss [] List.nil_prefix (by rw [← hx]; exact Nat.lt_add_right _ hpos)
    rw [← hx, received_nil, List.length_nil, Nat.add_zero] at h
    exact absurd heq h
  · rw [if_neg heq]
    dsimp only [StrFlow.continue]
    have hx : x.length = sizeT x.length := (sizeT_natCast (n := x.length) (by omega)).symm
    rw [body_reported_iff (l := { l with bytesReceivedFILE := x.length }) hl hs hx]
    dsimp only
    constructor
    · rintro ⟨hhits, htotal⟩
      have hlt := sizeT_lt ((x.length : ℤ) + (received post).length)
      have hle : sizeT ((x.length : ℤ) + (received post).length) ≤
          x.length + (received post).length := by
        unfold sizeT
        omega
      obtain ⟨rfl, hb⟩ := firstToken_whole htok (by omega)
      exact ⟨hb, htotal ▸ hlt, (not_hitsLength_iff (htotal ▸ hlt) (Or.inr heq)).mp hhits⟩
    · rintro ⟨hb, hlt, hmiss⟩
      obtain rfl := hall hb
      exact ⟨(not_hitsLength_iff hlt (Or.inr heq)).mpr hmiss, sizeT_add hlt⟩

/-- The chunk reaches the end of the header and brings the body bytes `b`. -/
theorem whole_reported_iff (hn : n < 2 ^ 64) (hk : k + 4 ≤ (Gfserver.okHeader n).length)
    (hc : c.data = (Gfserver.okHeader n).drop k ++ b) (hv : v.bytesFileReceived = 0) :
    Reports (perform cfg e (c :: post) (waiting n k) v) (b.length + (received post).length) ↔
      c.data.length < BUFSIZE ∧ CleanBody (min n (2 ^ 63 - 1)) b post := by
  have hcle := c.le
  have hblen : b.length ≤ c.data.length := by
    rw [hc, List.length_append]
    omega
  by_cases hclean : c.data.length < BUFSIZE ∨ 0 ∈ c.data
  swap
  · -- `strcat` leaves `buf`
    rw [perform_header_unterminated rfl hclean]
    refine ⟨fun h => ?_, fun h => absurd (Or.inl h.1) hclean⟩
    obtain ⟨ret, v', h, -⟩ := h
    cases h
  have hshort := okHeader_length_le hn
  have hlt : k + c.data.length < 2 ^ 64 := by
    unfold BUFSIZE at hcle
    omega
  rw [and_iff_right_of_imp fun h => fits_of_clean hc hclean h.1, perform_whole hlt hk hc hclean,
    ← filelen_decimal n]
  cases htok : firstToken (ascii "\n") (b.takeWhile (· ≠ 0)) with
  | none => exact no_line_reported_iff rfl (closes_okHeader _) rfl hv htok
  | some x =>
    exact line_reported_iff rfl (closes_okHeader _) rfl (by unfold BUFSIZE at hcle; omega) htok

end Cuts

/-! ## Requests -/

/-- A request whose transfer has been cut short has been reported as such: `gfc_perform` has
    returned a negative value, and `gfc_get_bytesreceived` returns `n`. -/
def CutReported (n : ℕ) (res : Except Fault (Outcome × List Event)) : Prop :=
  ∃ o log, res = .ok (o, log) ∧ o.ret < 0 ∧ o.bytesreceived = n

theorem cutReported_request {n : ℕ} {junk : Gfcrequest} {cfg : Config} {rs : Recvs} :
    CutReported n (request junk cfg rs) ↔ Reports (performRequest cfg rs ⟨0, 0⟩) n := by
  unfold CutReported Reports
  rw [request_eq]
  constructor
  · rintro ⟨o, log, h, hret, hn⟩
    cases hp : performRequest cfg rs ⟨0, 0⟩ with
    | error f => rw [hp] at h; cases h
    | ok r =>
      rw [hp] at h
      cases h
      exact ⟨r.1, r.2, rfl, hret, hn⟩
  · rintro ⟨ret, v, h, hret, hn⟩
    exact ⟨v.outcome ret, v.log, by rw [h]; rfl, hret, hn⟩

/-- The header for the file `B` arrives, and `b` behind it: a proper prefix of `B`, or any other
    bytes. That the file is not complete is reported, with the number of body bytes received,
    exactly if the cut is clean. -/
theorem truncated_reported_iff (B b : List Byte) (rs : Recvs) (junk : Gfcrequest) (cfg : Config)
    (hs : received rs.chunks = Gfserver.okHeader (sizeT B.length) ++ b) :
    CutReported b.length (request junk cfg rs) ↔ CleanTruncation (sizeT B.length) rs.chunks := by
  rw [cutReported_request]
  obtain ⟨chunks, e⟩ := rs
  dsimp only at hs ⊢
  have hn : sizeT (B.length : ℤ) < 2 ^ 64 := sizeT_lt _
  generalize sizeT (B.length : ℤ) = n at hs hn ⊢
  have hlen := okHeader_length n
  have hstart : performRequest cfg ⟨chunks, e⟩ ⟨0, 0⟩ =
      perform cfg e chunks (waiting n 0) (View.initial ⟨0, 0⟩ cfg.path) := rfl
  rw [hstart]
  -- the run up to the chunk `c` that goes beyond the length and the space
  have hcrossing : ∀ pre c post, chunks = pre ++ c :: post →
      (received pre).length + 4 ≤ (Gfserver.okHeader n).length →
      ∃ v, perform cfg e chunks (waiting n 0) (View.initial ⟨0, 0⟩ cfg.path) =
        perform cfg e (c :: post) (waiting n (received pre).length) v ∧
          v.bytesFileReceived = 0 := by
    rintro pre c post rfl hk
    obtain ⟨v, hv, -, hv0⟩ := perform_received cfg e pre (c :: post)
      (View.initial ⟨0, 0⟩ cfg.path) hn hk (split_stream hs (by omega)).1
    exact ⟨v, hv, hv0⟩
  have hwhole : ∀ pre c post, chunks = pre ++ c :: post →
      (received pre).length + 4 ≤ (Gfserver.okHeader n).length →
      (Gfserver.okHeader n).length ≤ (received pre).length + c.data.length →
      (Reports (perform cfg e chunks (waiting n 0) (View.initial ⟨0, 0⟩ cfg.path)) b.length ↔
        c.data.length < BUFSIZE ∧
        (∀ x ∈ c.data.drop ((Gfserver.okHeader n).length - (received pre).length),
          x ≠ 0 ∧ x ≠ 10) ∧
        (received chunks).length < (Gfserver.okHeader n).length + 2 ^ 64 ∧
        ∀ cs, cs <+: post →
          let file := (received (pre ++ c :: cs)).length - (Gfserver.okHeader n).length
          0 < file → file ≠ min n (2 ^ 63 - 1)) := by
    intro pre c post hchunks hk hreach
    obtain ⟨v, hv, hv0⟩ := hcrossing pre c post hchunks hk
    subst hchunks
    obtain ⟨b₁, hc, hB, hb₁⟩ := split_whole hs (by omega) hreach
    have hclen : (received pre).length + c.data.length =
        (Gfserver.okHeader n).length + b₁.length := by
      rw [hc, List.length_append, List.length_drop]
      omega
    have hfile : ∀ cs, (received (pre ++ c :: cs)).length - (Gfserver.okHeader n).length =
        b₁.length + (received cs).length := by
      intro cs
      rw [received_append, received_cons, List.length_append, List.length_append]
      omega
    have htotal : (received (pre ++ c :: post)).length =
        (Gfserver.okHeader n).length + (b₁.length + (received post).length) := by
      rw [received_append, received_cons, List.length_append, List.length_append]
      omega
    rw [hv, hB, List.length_append, whole_reported_iff hn hk hc hv0, CleanBody, ← hb₁,
      htotal, Nat.add_lt_add_iff_left]
    simp only [hfile]
  constructor
  · intro h
    have htotal : (received chunks).length = (Gfserver.okHeader n).length + b.length := by
      rw [hs, List.length_append]
    obtain ⟨pre, c, post, hchunks, hk, hreach⟩ := exists_crossing chunks
      (T := (Gfserver.okHeader n).length - 4) (by omega)
    rcases Nat.lt_or_ge ((received pre).length + c.data.length) (Gfserver.okHeader n).length with
      hcut | hreach'
    · obtain ⟨v, hv, hv0⟩ := hcrossing pre c post hchunks (by omega)
      rw [hv] at h
      subst hchunks
      have hc := split_cut hs hcut.le
      rw [received_append, received_cons, List.length_append, List.length_append] at htotal
      exact absurd h (cut_not_reported hn (by omega) hcut hc hv0 (by omega))
    · exact ⟨pre, c, post, hchunks, by omega, hreach',
        (hwhole pre c post hchunks (by omega) hreach').mp h⟩
  · rintro ⟨pre, c, post, hchunks, hk, hreach, hclean⟩
    exact (hwhole pre c post hchunks hk hreach).mpr hclean

/-- The header for the file "abc" and its first byte. -/
theorem truncated_reported_abc :
    CutReported (ascii "a").length (request .zeroed
      (downloadConfig (ascii "localhost") (ascii "/a") 8080 2)
      ⟨[⟨ascii "GETFILE OK 3 \r\n\r\na", by decide +kernel, by decide +kernel⟩], .close⟩) :=
  (truncated_reported_iff (ascii "abc") (ascii "a")
    ⟨[⟨ascii "GETFILE OK 3 \r\n\r\na", by decide +kernel, by decide +kernel⟩], .close⟩ .zeroed
    (downloadConfig (ascii "localhost") (ascii "/a") 8080 2) (by decide +kernel)).mpr
    ⟨[], ⟨ascii "GETFILE OK 3 \r\n\r\na", by decide +kernel, by decide +kernel⟩, [], rfl,
      by decide +kernel, by decide +kernel, by decide +kernel, by decide +kernel, by decide +kernel,
      fun cs hcs => by
        obtain rfl := List.prefix_nil.mp hcs
        decide +kernel⟩

/-- The header for the file "abc" in two chunks, cut behind its first CR, and no byte of the
    file: the rest of the header is counted as the three bytes of the body. -/
theorem truncated_not_reported :
    ¬ ∀ (B b : List Byte) (rs : Recvs) (junk : Gfcrequest) (cfg : Config), b <+: B → b ≠ B →
      received rs.chunks = Gfserver.okHeader (sizeT B.length) ++ b →
        CutReported b.length (request junk cfg rs) := by
  intro h
  obtain ⟨o, log, hres, hret, -⟩ := h (ascii "abc") []
    ⟨[⟨ascii "GETFILE OK 3 \r", by decide +kernel, by decide +kernel⟩,
      ⟨ascii "\n\r\n", by decide +kernel, by decide +kernel⟩], .close⟩ .zeroed
    (downloadConfig (ascii "localhost") (ascii "/a") 8080 2) List.nil_prefix (by decide +kernel)
    (by decide +kernel)
  have hzero : ((request .zeroed (downloadConfig (ascii "localhost") (ascii "/a") 8080 2)
      ⟨[⟨ascii "GETFILE OK 3 \r", by decide +kernel, by decide +kernel⟩,
        ⟨ascii "\n\r\n", by decide +kernel, by decide +kernel⟩], .close⟩).map
      fun r => r.1.ret) = .ok 0 := by decide +kernel
  rw [hres] at hzero
  have hret0 : o.ret = 0 := Except.ok.inj hzero
  omega

end IntroOS.Gfclient
