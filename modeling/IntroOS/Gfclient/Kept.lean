import IntroOS.Gfclient.BodyPhase
import IntroOS.Gfclient.Download

/-!
# What a download keeps

The local file behind one iteration of `main` (`pr1/gflib/gfclient_download.c`), when the peer is
the server: what has been received is a part of the stream of a file, from its start, cut in an
arbitrary way. The end of the header is the weak place. The client leaves the header phase as soon
as it has seen one byte of the four of its terminator, and counts the others as bytes of the body
if they come with a later `recv`.

Main results:

* `kept_body`: the body phase keeps what it has received when the count hits the length.
* `download_kept_iff`: the local file is kept exactly if the stream is cut cleanly and complete, or
  cut in the terminator and received up to as many bytes behind the cut as are announced; in this
  case the file is not the one that was asked for.
-/

namespace IntroOS.Gfclient

open CString Concurrency

/-- The local file is kept with `content`. -/
def Kept (res : Except Fault (ℤ × View)) (content : List Byte) : Prop :=
  ∃ ret v, res = .ok (ret, v) ∧ 0 ≤ ret ∧ v.status = .ok ∧ content = (writes v.log).flatten

section Request

variable {server path : List Byte} {port : ℕ} {file : VoidPtr} {junk : Gfcrequest} {rs : Recvs}
  {content : List Byte}

/-- What the run on strings has written is what is in the file. -/
theorem kept_request (hlt : (received rs.chunks).length < 2 ^ 64) :
    (∃ o log, request junk (downloadConfig server path port file) rs = .ok (o, log) ∧
        localFile file o log = some content) ↔
      Kept (performRequest (downloadConfig server path port file) rs ⟨0, 0⟩) content := by
  have hbalanced : ∀ ret v, performRequest (downloadConfig server path port file) rs ⟨0, 0⟩ =
      .ok (ret, v) → 0 ≤ ret → v.status = .ok →
        v.log.foldl (writecbFile file) [] = (writes v.log).flatten := by
    intro ret v hp hret hstatus
    have hbal : v.Balanced (downloadConfig server path port file) :=
      header_balanced rfl rfl rfl (by simpa using hlt)
        (by intro f data arg hmem; simp [View.initial] at hmem) hp hret hstatus
    rw [foldl_writecbFile hbal.only, List.nil_append]
  rw [request_eq]
  constructor
  · rintro ⟨o, log, h, hfile⟩
    unfold localFile at hfile
    dsimp only at hfile
    split_ifs at hfile with hstatus hret
    cases hp : performRequest (downloadConfig server path port file) rs ⟨0, 0⟩ with
    | error f => rw [hp] at h; cases h
    | ok b =>
      obtain ⟨ret, v⟩ := b
      rw [hp] at h
      cases h
      have hret' : 0 ≤ ret := by simpa [View.outcome] using hret
      have hok : v.status = .ok := by simpa [View.outcome] using hstatus
      rw [hbalanced ret v hp hret' hok, Option.some.injEq] at hfile
      exact ⟨ret, v, rfl, hret', hok, hfile.symm⟩
  · rintro ⟨ret, v, hp, hret, hstatus, rfl⟩
    refine ⟨v.outcome ret, v.log, by rw [hp]; rfl, ?_⟩
    have hret' : ¬ 0 > (v.outcome ret).ret := not_lt.mpr hret
    have hok : ¬ (v.outcome ret).status ≠ .ok := not_not.mpr hstatus
    unfold localFile
    rw [if_neg hok, if_neg hret', hbalanced ret v hp hret hstatus]

end Request

/-! ## The body phase -/

section Body

variable {cfg : Config} {e : Ending} {cs : List Chunk} {l : StrLocals} {v : View}
  {content : List Byte}

theorem kept_body (hl : l.headercheck = true) (hstatus : v.status = .ok)
    (hlt : l.bytesReceivedFILE + (received cs).length < 2 ^ 64) :
    Kept (perform cfg e cs l v) content ↔ ∃ done, done <+: cs ∧ done ≠ [] ∧
      l.bytesReceivedFILE + (received done).length = v.filelen ∧
      content = (writes v.log).flatten ++ received done := by
  have hcount : ∀ p, p <+: cs → sizeT (l.bytesReceivedFILE + (received p).length) =
      l.bytesReceivedFILE + (received p).length := by
    intro p hp
    have hle := length_received_mono hp
    exact sizeT_add (by omega)
  constructor
  · rintro ⟨ret, v', h, hret, -, rfl⟩
    rcases perform_body_inv hl h with hneg | ⟨-, done, rest, rfl, hne, hfile, rfl⟩
    · omega
    rw [hcount done (List.prefix_append ..)] at hfile
    refine ⟨done, List.prefix_append .., hne, hfile, ?_⟩
    rw [View.afterChunks, writes_append, List.flatten_append, writes_map]
  · rintro ⟨done, ⟨rest, rfl⟩, hne, hfile, rfl⟩
    obtain ⟨init, c, rfl⟩ := (List.eq_nil_or_concat' done).resolve_left hne
    have hmiss : ¬ HitsLength v.filelen l.bytesReceivedFILE init := by
      rintro ⟨p, -, hp, hlen⟩
      have hle := length_received_mono hp
      have hpos := c.length_pos
      rw [hcount p (by rw [List.append_assoc]; exact hp.trans (List.prefix_append ..))] at hlen
      rw [received_append, List.length_append, received_cons, received_nil, List.append_nil] at hfile
      omega
    have hhit := (hcount _ (List.prefix_append ..)).trans hfile
    rw [List.append_assoc, List.singleton_append, perform_body_hits hl hmiss hhit]
    refine ⟨0, _, rfl, le_rfl, hstatus, ?_⟩
    rw [View.afterChunks, writes_append, List.flatten_append, writes_map]

/-- Every chunk brings something. -/
theorem eq_of_received_le {p : List Chunk} (hp : p <+: cs)
    (hle : (received cs).length ≤ (received p).length) : p = cs := by
  obtain ⟨rest, rfl⟩ := hp
  cases rest with
  | nil => rw [List.append_nil]
  | cons c rest =>
    have hpos := c.length_pos
    rw [received_append, received_cons, List.length_append, List.length_append] at hle
    omega

theorem not_kept_end : ¬ Kept (strRecvEnd e l v) content := by
  rintro ⟨ret, v', h, hret, -⟩
  have hneg := strRecvEnd_ret h
  omega

end Body

/-! ## A part of a stream -/

section Split

variable {S : List Byte} {pre post : List Chunk} {c : Chunk}

/-- What the chunks bring, when they bring the stream `S` as far as they go. -/
theorem split_prefix (hs : received (pre ++ c :: post) <+: S) :
    received pre = S.take (received pre).length ∧
      c.data = (S.drop (received pre).length).take c.data.length ∧
      received post =
        (S.drop ((received pre).length + c.data.length)).take (received post).length := by
  obtain ⟨u, rfl⟩ := hs
  rw [received_append, received_cons, List.append_assoc, List.append_assoc]
  refine ⟨by rw [List.take_left], by rw [List.drop_left, List.take_left], ?_⟩
  rw [← List.drop_drop, List.drop_left, List.drop_left, List.take_left]

end Split

/-! ## The crossing -/

section Crossing

variable {cfg : Config} {e : Ending} {n k : ℕ} {b content : List Byte} {c : Chunk}
  {post : List Chunk} {v : View}

theorem kept_cut (hn : n < 2 ^ 63) (hk : (Gfserver.okHeader n).length < k + c.data.length + 4)
    (hk' : k + c.data.length < (Gfserver.okHeader n).length)
    (hc : c.data = ((Gfserver.okHeader n).drop k).take c.data.length)
    (hlt : (received post).length < 2 ^ 64) (hlog : writes v.log = []) :
    Kept (perform cfg e (c :: post) (waiting n k) v) content ↔
      ∃ done, done <+: post ∧ done ≠ [] ∧ (received done).length = n ∧ content = received done := by
  have hhead := okHeader_length_le (n := n) (by omega)
  have hfl : sizeT (atol (decimal n)) = n := by
    rw [filelen_decimal]
    omega
  rw [perform_cut (by unfold BUFSIZE; omega) (by omega) hk hk' hc, kept_body rfl rfl]
  · simp only [waiting, View.accepted, hfl, hlog, Nat.zero_add, List.flatten_nil, List.nil_append]
  · simpa only [waiting, Nat.zero_add] using hlt

/-- A chunk that reaches the end of the header, in a stream with at most as many bytes as
    announced: all of them have come, and all have been seen. -/
theorem kept_whole (hn : n < 2 ^ 63) (hk : k + 4 ≤ (Gfserver.okHeader n).length)
    (hc : c.data = (Gfserver.okHeader n).drop k ++ b) (hle : b.length + (received post).length ≤ n)
    (hlog : writes v.log = []) (h : Kept (perform cfg e (c :: post) (waiting n k) v) content) :
    b.length + (received post).length = n ∧ 0 < n ∧ c.data.length < BUFSIZE ∧
      (∀ x ∈ b, x ≠ 0 ∧ x ≠ 10) ∧ content = b ++ received post := by
  have hhead := okHeader_length_le (n := n) (by omega)
  have hcle := c.le
  have hfl : sizeT (atol (decimal n)) = n := by
    rw [filelen_decimal]
    omega
  by_cases hclean : c.data.length < BUFSIZE ∨ 0 ∈ c.data
  swap
  · -- `strcat` leaves `buf`
    rw [perform_header_unterminated rfl hclean] at h
    obtain ⟨ret, v', h, -⟩ := h
    cases h
  rw [perform_whole (by unfold BUFSIZE at hcle; omega) hk hc hclean] at h
  cases htok : firstToken (ascii "\n") (b.takeWhile (· ≠ 0)) with
  | none =>
    rw [htok] at h
    dsimp only [StrFlow.continue] at h
    obtain ⟨done, hdone, hne, hcount, rfl⟩ := (kept_body rfl rfl (by simp only; omega)).mp h
    simp only [View.accepted, hfl, Nat.zero_add] at hcount
    have hmono := length_received_mono hdone
    obtain rfl := eq_of_received_le hdone (by omega)
    obtain rfl : b = [] := List.length_eq_zero_iff.mp (by omega)
    obtain ⟨d, done, rfl⟩ := List.exists_cons_of_ne_nil hne
    have hpos := d.length_pos
    rw [received_cons, List.length_append] at hcount hle
    refine ⟨by rw [List.length_nil, Nat.zero_add, received_cons, List.length_append, hcount],
      by omega, fits_of_clean hc hclean (by simp), by simp, ?_⟩
    simp only [View.accepted, hlog, List.flatten_nil, List.nil_append]
  | some x =>
    rw [htok] at h
    have hxlen := firstData_length_le htok
    have hxpos : 0 < x.length := by
      obtain ⟨-, -, hne, -⟩ := token_eq_some_iff.mp (token_eq_some htok)
      exact List.length_pos_of_ne_nil hne
    have hfile : sizeT (((0 : ℕ) : ℤ) + x.length) = x.length := by
      rw [sizeT_add (by omega), Nat.zero_add]
    dsimp only at h
    unfold strFirstData at h
    dsimp only at h
    rw [hfile] at h
    simp only [View.accepted, hfl] at h
    have hwritten : (writes (v.log ++ cfg.headCalls (okHeader (decimal n)) ++
        [cfg.writeCall x])).flatten = x := by
      rw [writes_append, writes_append, writes_headCalls, hlog]
      exact List.append_nil x
    by_cases heq : x.length = n
    · -- the whole file came with the header
      rw [if_pos heq] at h
      obtain ⟨ret, v', hres, -, -, rfl⟩ := h
      cases hres
      obtain ⟨rfl, hb⟩ := firstToken_whole htok (by omega)
      have hpost : received post = [] := List.length_eq_zero_iff.mp (by omega)
      rw [hpost]
      refine ⟨by simpa using heq, by omega, fits_of_clean hc hclean hb, hb, ?_⟩
      rw [List.append_nil]
      exact hwritten
    · rw [if_neg heq] at h
      dsimp only [StrFlow.continue] at h
      obtain ⟨done, hdone, hne, hcount, rfl⟩ := (kept_body rfl rfl (by simp only; omega)).mp h
      dsimp only at hcount
      have hmono := length_received_mono hdone
      obtain rfl := eq_of_received_le hdone (by omega)
      obtain ⟨rfl, hb⟩ := firstToken_whole htok (by omega)
      refine ⟨hcount, by omega, fits_of_clean hc hclean hb, hb, ?_⟩
      exact congrArg (· ++ received done) hwritten

end Crossing

/-! ## The whole download -/

/-- The first chunk that goes beyond the length and the space of the header ends in the terminator,
    and a later one ends as many bytes behind it as are announced. These are the rest of the
    terminator and the file without its last bytes. -/
def ShiftedCut (B : List Byte) (chunks : List Chunk) (content : List Byte) : Prop :=
  ∃ pre c post done, chunks = pre ++ c :: post ∧
    (received pre).length + 4 ≤ (Gfserver.okHeader B.length).length ∧
    (Gfserver.okHeader B.length).length < (received pre).length + c.data.length + 4 ∧
    (received pre).length + c.data.length < (Gfserver.okHeader B.length).length ∧
    done <+: post ∧ done ≠ [] ∧ (received done).length = B.length ∧
    content = ((Gfserver.okHeader B.length).drop ((received pre).length + c.data.length) ++
      B).take B.length

section Download

variable {cfg : Config} {B content : List Byte} {rs : Recvs}

/-- A clean cut of the whole stream is kept. -/
theorem CleanCut.kept (hB : B.length < 2 ^ 63) (hcut : CleanCut B rs.chunks)
    (hs : received rs.chunks = Gfserver.okHeader B.length ++ B) :
    Kept (performRequest cfg rs ⟨0, 0⟩) B := by
  have hsize : sizeT (B.length : ℤ) = B.length := sizeT_natCast (by omega)
  obtain ⟨v, hv, hstatus, -, -, -, hwrites⟩ :=
    hcut.transferred (by rw [serverStream, hsize, hs]) cfg ⟨0, 0⟩
  exact ⟨0, v, hv, le_rfl, hstatus, hwrites.symm⟩

/-- While at most the length and the space of the header have come, the client waits to the end. -/
theorem not_kept_short (hB : B.length < 2 ^ 63)
    (hs : received rs.chunks <+: Gfserver.okHeader B.length ++ B)
    (hshort : (received rs.chunks).length + 4 ≤ (Gfserver.okHeader B.length).length) :
    ¬ Kept (performRequest cfg rs ⟨0, 0⟩) content := by
  have hpre : received rs.chunks =
      (Gfserver.okHeader B.length).take (received rs.chunks).length := by
    have hlen : (received rs.chunks).length ≤ (Gfserver.okHeader B.length).length := by omega
    rw [← List.take_append_of_le_length hlen]
    exact List.prefix_iff_eq_take.mp hs
  obtain ⟨v, hv, -⟩ := perform_received cfg rs.ending rs.chunks [] (View.initial ⟨0, 0⟩ cfg.path)
    (by omega) hshort hpre
  rw [List.append_nil] at hv
  have hrun : performRequest cfg rs ⟨0, 0⟩ = _ := hv
  rw [hrun]
  exact not_kept_end

/-- The first chunk beyond the length and the space of the header ends in the terminator. -/
theorem kept_iff_cut {e : Ending} {pre post : List Chunk} {c : Chunk} (hB : B.length < 2 ^ 63)
    (hs : received (pre ++ c :: post) <+: Gfserver.okHeader B.length ++ B)
    (hk : (received pre).length + 4 ≤ (Gfserver.okHeader B.length).length)
    (hbehind : (Gfserver.okHeader B.length).length < (received pre).length + c.data.length + 4)
    (hcut : (received pre).length + c.data.length < (Gfserver.okHeader B.length).length) :
    Kept (performRequest cfg ⟨pre ++ c :: post, e⟩ ⟨0, 0⟩) content ↔
      ∃ done, done <+: post ∧ done ≠ [] ∧ (received done).length = B.length ∧
        content = ((Gfserver.okHeader B.length).drop ((received pre).length + c.data.length) ++
          B).take B.length := by
  have hhead := okHeader_length_le (n := B.length) (by omega)
  have hle := hs.length_le
  rw [received_append, received_cons, List.length_append, List.length_append, List.length_append]
    at hle
  obtain ⟨hpre, hc, hpost⟩ := split_prefix hs
  rw [List.take_append_of_le_length (by omega)] at hpre
  rw [List.drop_append_of_le_length (by omega),
    List.take_append_of_le_length (by rw [List.length_drop]; omega)] at hc
  rw [List.drop_append_of_le_length (by omega)] at hpost
  obtain ⟨v, hv, hlog, -⟩ := perform_received cfg e pre (c :: post) (View.initial ⟨0, 0⟩ cfg.path)
    (by omega) hk hpre
  have hrun : performRequest cfg ⟨pre ++ c :: post, e⟩ ⟨0, 0⟩ = _ := hv
  rw [hrun, kept_cut hB hbehind hcut hc (by omega) (by rw [hlog]; rfl)]
  have hdata : ∀ done, done <+: post → (received done).length = B.length → received done =
      ((Gfserver.okHeader B.length).drop ((received pre).length + c.data.length) ++
        B).take B.length := by
    rintro done ⟨rest, rfl⟩ hdone
    have hfront := congrArg (List.take B.length) hpost
    rw [List.take_take, min_eq_left (by rw [received_append, List.length_append]; omega),
      received_append, ← hdone, List.take_left, hdone] at hfront
    exact hfront
  refine exists_congr fun done => and_congr_right fun hdone => and_congr_right fun _ =>
    and_congr_right fun hlen => ?_
  rw [hdata done hdone hlen]

/-- The first chunk beyond the length and the space of the header reaches its end. -/
theorem clean_of_kept {e : Ending} {pre post : List Chunk} {c : Chunk} (hB : B.length < 2 ^ 63)
    (hs : received (pre ++ c :: post) <+: Gfserver.okHeader B.length ++ B)
    (hk : (received pre).length + 4 ≤ (Gfserver.okHeader B.length).length)
    (hwhole : (Gfserver.okHeader B.length).length ≤ (received pre).length + c.data.length)
    (h : Kept (performRequest cfg ⟨pre ++ c :: post, e⟩ ⟨0, 0⟩) content) :
    received (pre ++ c :: post) = Gfserver.okHeader B.length ++ B ∧
      CleanCut B (pre ++ c :: post) ∧ content = B := by
  have hsize : sizeT (B.length : ℤ) = B.length := sizeT_natCast (by omega)
  obtain ⟨B', hB'⟩ : Gfserver.okHeader B.length <+: received (pre ++ c :: post) := by
    refine List.prefix_of_prefix_length_le (List.prefix_append _ B) hs ?_
    rw [received_append, received_cons, List.length_append, List.length_append]
    omega
  rw [← hB', List.prefix_append_right_inj] at hs
  have hle := hs.length_le
  obtain ⟨b, hc, hbody, hb⟩ := split_whole hB'.symm (by omega) hwhole
  rw [hbody, List.length_append] at hle
  obtain ⟨v, hv, hlog, -⟩ := perform_received cfg e pre (c :: post) (View.initial ⟨0, 0⟩ cfg.path)
    (by omega) hk (split_stream hB'.symm (by omega)).1
  have hrun : performRequest cfg ⟨pre ++ c :: post, e⟩ ⟨0, 0⟩ = _ := hv
  rw [hrun] at h
  obtain ⟨hall, hpos, hfull, hclean, rfl⟩ := kept_whole hB hk hc hle (by rw [hlog]; rfl) h
  rw [← List.length_append, ← hbody] at hall
  obtain rfl := hs.eq_of_length hall
  refine ⟨hB'.symm, ⟨List.ne_nil_of_length_pos hpos, hB, pre, c, post, rfl, ?_⟩, hbody.symm⟩
  rw [hsize]
  exact ⟨hk, hwhole, hfull, by rwa [← hb]⟩

theorem kept_iff (hB : B.length < 2 ^ 63)
    (hs : received rs.chunks <+: Gfserver.okHeader B.length ++ B) :
    Kept (performRequest cfg rs ⟨0, 0⟩) content ↔
      received rs.chunks = Gfserver.okHeader B.length ++ B ∧ CleanCut B rs.chunks ∧ content = B ∨
        ShiftedCut B rs.chunks content := by
  have hlen := okHeader_length B.length
  constructor
  · intro h
    obtain ⟨chunks, ending⟩ := rs
    dsimp only at hs ⊢
    rcases Nat.lt_or_ge ((Gfserver.okHeader B.length).length - 4) (received chunks).length with
      hcross | hshort
    swap
    · exact absurd h (not_kept_short hB hs (by dsimp only; omega))
    obtain ⟨pre, c, post, rfl, hk, hreach⟩ := exists_crossing chunks hcross
    rcases Nat.lt_or_ge ((received pre).length + c.data.length)
      (Gfserver.okHeader B.length).length with hcut | hwhole
    · obtain ⟨done, hdone, hne, hdone', hcontent⟩ :=
        (kept_iff_cut hB hs (by omega) (by omega) hcut).mp h
      exact .inr ⟨pre, c, post, done, rfl, by omega, by omega, hcut, hdone, hne, hdone', hcontent⟩
    · exact .inl (clean_of_kept hB hs (by omega) hwhole h)
  · rintro (⟨hall, hcut, rfl⟩ | ⟨pre, c, post, done, hchunks, hk, hbehind, hcut, hdone⟩)
    · exact hcut.kept hB hall
    · obtain ⟨chunks, ending⟩ := rs
      dsimp only at hs hchunks
      subst hchunks
      exact (kept_iff_cut hB hs hk hbehind hcut).mpr ⟨done, hdone⟩

end Download

end IntroOS.Gfclient
