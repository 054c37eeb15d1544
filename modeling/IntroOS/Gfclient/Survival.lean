import IntroOS.Gfclient.Phases

/-!
# Surviving the peer

Which sequences of `recv` results end `gfc_perform` with a fault: a missing token is passed
to `strcmp`, or a chunk fills `buf` without a NUL. Both happen in the header phase only, so
the condition speaks about the prefixes of the stream after which the client still waits
for the header.

Main results:

* `strParseHeader_survives`: when parsing the header ends with a fault.
* `body_survives`: the body phase does not.
* `request_survives_iff`: exactly when a request survives.
-/

namespace IntroOS.Gfclient

open CString Concurrency

/-! ## Prefixes of the stream -/

/-- The string that is accumulated from some chunks: each contributes the bytes before its
    first NUL. -/
def headerString (cs : List Chunk) : List Byte :=
  (cs.map fun c => c.data.takeWhile (· ≠ 0)).flatten

/-- `bytesReceivedTotal` after some chunks. -/
def counted (cs : List Chunk) : ℕ := sizeT (received cs).length

/-- The tokens are there that are passed to `strcmp` once `total` bytes are counted. -/
def Parses (s : List Byte) (total : ℕ) : Prop :=
  (7 < total → firstToken (ascii " ") s ≠ none) ∧
    (10 < total → firstToken (ascii " ") s = some (ascii "GETFILE") →
      firstToken (ascii " \r\n") (restToken (ascii " ") s) ≠ none)

/-- The client goes on waiting for the rest of the header: too few bytes are counted, or the
    header is neither a reply without a body nor complete. -/
def Waits (s : List Byte) (total : ℕ) : Prop :=
  total ≤ 7 ∨ firstToken (ascii " ") s = some (ascii "GETFILE") ∧
    (total ≤ 10 ∨ bodyStart s = none ∧
      firstToken (ascii " \r\n") (restToken (ascii " ") s) ≠ some (ascii "FILE_NOT_FOUND") ∧
      firstToken (ascii " \r\n") (restToken (ascii " ") s) ≠ some (ascii "ERROR"))

/-- A status is there when the peer closes the connection. -/
def Closes (s : List Byte) : Prop := firstToken (ascii " ") (restToken (ascii " ") s) ≠ none

/-- The client waits after every prefix of `cs`. -/
def Waiting (cs : List Chunk) : Prop :=
  ∀ pre, pre ≠ [] → pre <+: cs → Waits (headerString pre) (counted pre)

/-- The chunk `c` behind the chunks `done` does not fill `buf` without a NUL, its string fits
    into the memory for the header (it does if fewer than 2^64 bytes have been received), and
    the tokens are there that are passed to `strcmp`. -/
def ChunkSafe (done : List Chunk) (c : Chunk) : Prop :=
  (c.data.length < BUFSIZE ∨ 0 ∈ c.data) ∧
    (headerString (done ++ [c])).length ≤ counted (done ++ [c]) ∧
    Parses (headerString (done ++ [c])) (counted (done ++ [c]))

/-- Every chunk that arrives while the client waits is safe, and the connection is not closed
    while the client waits and there is no status. -/
structure Survivable (rs : Recvs) : Prop where
  chunk : ∀ pre c post, rs.chunks = pre ++ c :: post → Waiting pre → ChunkSafe pre c
  close : rs.ending = .close → Waiting rs.chunks → Closes (headerString rs.chunks)

/-! ## The body phase -/

section Phases

variable {cfg : Config} {e : Ending} {cs : List Chunk} {l : StrLocals} {v : View}

theorem strRecvEnd_survives (h : e = .close → Closes l.fullData) :
    ∃ res, strRecvEnd e l v = .ok res := by
  cases e with
  | error => exact ⟨_, rfl⟩
  | close =>
    obtain ⟨status, hs⟩ := Option.ne_none_iff_exists'.mp (h rfl)
    unfold strRecvEnd
    simp only [hs]
    split_ifs
    · exact ⟨_, rfl⟩
    · exact ⟨_, rfl⟩

theorem strRecvEnd_fault (he : e = .close) (h : ¬ Closes l.fullData) :
    strRecvEnd e l v = .error .nullPointer := by
  subst he
  unfold Closes at h
  rw [not_not] at h
  unfold strRecvEnd
  simp only [h]

theorem body_survives (hl : l.headercheck = true) (hs : Closes l.fullData) :
    ∃ res, perform cfg e cs l v = .ok res := by
  induction cs generalizing l v with
  | nil => exact strRecvEnd_survives fun _ => hs
  | cons c cs ih =>
    rw [perform_body_cons hl]
    split_ifs
    · exact ⟨_, rfl⟩
    · exact ih (l := l.count c.data.length) hl hs

/-! ## The header phase -/

/-- A header with its status has two words. -/
theorem closes_of_bodyStart {s r : List Byte} (h : bodyStart s = some r) : Closes s := by
  have hstatus := (bodyStart_eq_some_iff.mp h).2.1
  intro hnone
  have hblank := token_eq_none_iff.mp (firstToken_eq_none.mp hnone)
  have hsub : ∀ a ∈ ascii " ", a ∈ ascii " \r\n" := by decide +kernel
  rw [firstToken_eq_none.mpr (token_eq_none_iff.mpr fun a ha => hsub a (hblank a ha))] at hstatus
  cases hstatus

/-- Behind the status "OK" nothing goes wrong. -/
theorem strHeaderOk_survives (cfg : Config) (e : Ending) (cs : List Chunk) (v : View)
    {r : List Byte} (h : bodyStart l.fullData = some r) :
    ∃ res, StrFlow.continue cfg e cs
      (strHeaderOk cfg (restToken (ascii " \r\n") (restToken (ascii " ") l.fullData)) l v) =
        .ok res := by
  have hcloses := closes_of_bodyStart h
  rcases strHeaderOk_cases cfg l v (bodyStart_eq_some_iff.mp h).2.2 with
    ⟨n, hflow⟩ | ⟨filelen, data, -, hflow⟩
  · rw [hflow]
    exact body_survives (l := { l with headercheck := true }) rfl hcloses
  · rw [hflow]
    unfold strFirstData
    dsimp only
    split_ifs
    · exact ⟨_, rfl⟩
    · exact body_survives rfl hcloses

/-- The client waits, or it goes on without a fault, or a token is missing. -/
theorem strParseHeader_survives (cfg : Config) (l : StrLocals) (v : View) :
    (Parses l.fullData l.bytesReceivedTotal ∧ Waits l.fullData l.bytesReceivedTotal ∧
        ∃ s, strParseHeader cfg l v = .ok (.next l { v with status := s })) ∨
      (Parses l.fullData l.bytesReceivedTotal ∧ ¬ Waits l.fullData l.bytesReceivedTotal ∧
        ∀ e cs, ∃ res, (strParseHeader cfg l v).bind (StrFlow.continue cfg e cs) = .ok res) ∨
      (¬ Parses l.fullData l.bytesReceivedTotal ∧
        ∃ f, strParseHeader cfg l v = .error f) := by
  unfold Parses Waits
  have hcase := strParseHeader_case cfg l v
  revert hcase
  generalize strParseHeader cfg l v = m
  intro hcase
  cases hcase with
  | short h7 => exact Or.inl ⟨⟨by omega, by omega⟩, Or.inl h7, v.status, rfl⟩
  | noScheme h7 hscheme => exact Or.inr (Or.inr ⟨by simp [h7, hscheme], _, rfl⟩)
  | otherScheme scheme h7 hscheme hget =>
    exact Or.inr (Or.inl ⟨by simp [hscheme, hget], by simp [hscheme, hget, h7],
      fun e cs => ⟨_, rfl⟩⟩)
  | noWord h10 hscheme =>
    exact Or.inl ⟨⟨by simp [hscheme], by omega⟩, Or.inr ⟨hscheme, Or.inl h10⟩, v.status, rfl⟩
  | noStatus h10 hscheme hstatus => exact Or.inr (Or.inr ⟨by simp [h10, hscheme, hstatus], _, rfl⟩)
  | okWaits h10 hscheme hstatus hbody =>
    refine Or.inl ⟨by simp [hscheme, hstatus], Or.inr ⟨hscheme, Or.inr ⟨hbody, ?_⟩⟩, .ok, rfl⟩
    rw [hstatus]
    decide
  | ok r h10 hbody =>
    obtain ⟨hscheme, hstatus, -⟩ := bodyStart_eq_some_iff.mp hbody
    refine Or.inr (Or.inl ⟨by simp [hscheme, hstatus], ?_,
      fun e cs => strHeaderOk_survives cfg e cs v hbody⟩)
    simp only [hbody, reduceCtorEq, false_and, or_false, not_or]
    omega
  | fileNotFound h10 hscheme hstatus =>
    refine Or.inr (Or.inl ⟨by simp [hscheme, hstatus], ?_, fun e cs => ⟨_, rfl⟩⟩)
    simp only [hstatus, ne_eq, not_true, false_and, and_false, or_false, not_or]
    omega
  | error h10 hscheme hstatus =>
    refine Or.inr (Or.inl ⟨by simp [hscheme, hstatus], ?_, fun e cs => ⟨_, rfl⟩⟩)
    simp only [hstatus, ne_eq, not_true, and_false, or_false, not_or]
    omega
  | otherStatus status h10 hscheme hstatus hok hfnf herr =>
    have hbody : bodyStart l.fullData = none := bodyStart_eq_none (by simpa [hstatus] using hok)
    refine Or.inl ⟨by simp [hscheme, hstatus], Or.inr ⟨hscheme, Or.inr ⟨hbody, ?_, ?_⟩⟩, v.status,
      rfl⟩
    · simpa [hstatus] using hfnf
    · simpa [hstatus] using herr

/-- The condition of `Survivable`, from the middle of the header phase. -/
def SafeFrom (e : Ending) : List Chunk → List Byte → ℕ → Prop
  | [], s, _ => e = .close → Closes s
  | c :: cs, s, total =>
    (c.data.length < BUFSIZE ∨ 0 ∈ c.data) ∧
      (s ++ c.data.takeWhile (· ≠ 0)).length ≤ sizeT (total + c.data.length) ∧
      Parses (s ++ c.data.takeWhile (· ≠ 0)) (sizeT (total + c.data.length)) ∧
      (Waits (s ++ c.data.takeWhile (· ≠ 0)) (sizeT (total + c.data.length)) →
        SafeFrom e cs (s ++ c.data.takeWhile (· ≠ 0)) (sizeT (total + c.data.length)))

theorem header_survives_iff (hl : l.headercheck = false) :
    (∃ res, perform cfg e cs l v = .ok res) ↔ SafeFrom e cs l.fullData l.bytesReceivedTotal := by
  induction cs generalizing l v with
  | nil =>
    unfold SafeFrom
    constructor
    · rintro ⟨res, hres⟩ he
      by_contra hs
      rw [perform, strRecvEnd_fault he hs] at hres
      cases hres
    · exact strRecvEnd_survives
  | cons c cs ih =>
    unfold SafeFrom
    by_cases hfull : c.data.length < BUFSIZE ∨ 0 ∈ c.data
    swap
    · rw [perform_header_unterminated hl hfull]
      simp [hfull]
    have hnew : cstr (recvBuf c) 0 = .ok (c.data.takeWhile (· ≠ 0)) := by
      rw [cstr_recvBuf, if_pos hfull]
    rw [List.length_append]
    rcases Nat.lt_or_ge (sizeT (l.bytesReceivedTotal + c.data.length))
      (l.fullData.length + (c.data.takeWhile (· ≠ 0)).length) with hlong | hfits
    · rw [perform_header_long hl hnew hlong]
      simp only [reduceCtorEq, exists_false, false_iff]
      rintro ⟨-, hle, -⟩
      omega
    rw [perform_header_cons hl hnew hfits]
    rcases strParseHeader_survives cfg (l.recv c.data.length (c.data.takeWhile (· ≠ 0)))
        { v with bytesreceived := sizeT (l.bytesReceivedTotal + c.data.length) } with
      ⟨hparses, hwaits, s, hparse⟩ | ⟨hparses, hwaits, hok⟩ | ⟨hparses, f, hparse⟩
    · rw [hparse]
      apply (ih (l := l.recv c.data.length (c.data.takeWhile (· ≠ 0))) hl).trans
      exact ⟨fun h => ⟨hfull, hfits, hparses, fun _ => h⟩, fun h => h.2.2.2 hwaits⟩
    · exact ⟨fun _ => ⟨hfull, hfits, hparses, fun h => absurd h hwaits⟩, fun _ => hok e cs⟩
    · rw [hparse]
      constructor
      · rintro ⟨res, h⟩
        cases h
      · intro h
        exact absurd h.2.2.1 hparses

end Phases

/-! ## From the recursion to the prefixes -/

theorem headerString_concat (cs : List Chunk) (c : Chunk) :
    headerString (cs ++ [c]) = headerString cs ++ c.data.takeWhile (· ≠ 0) := by
  simp [headerString]

theorem counted_concat (cs : List Chunk) (c : Chunk) :
    counted (cs ++ [c]) = sizeT (counted cs + c.data.length) := by
  unfold counted
  rw [sizeT_natCast_add, received_append, List.length_append, received_cons, received_nil,
    List.append_nil]

theorem waiting_nil : Waiting [] := by
  intro pre hne hpre
  exact absurd (List.prefix_nil.mp hpre) hne

theorem waiting_concat {cs : List Chunk} {c : Chunk} :
    Waiting (cs ++ [c]) ↔
      Waiting cs ∧ Waits (headerString (cs ++ [c])) (counted (cs ++ [c])) := by
  constructor
  · intro h
    exact ⟨fun pre hne hpre => h pre hne (hpre.trans (List.prefix_append _ _)),
      h _ (by simp) (List.prefix_refl _)⟩
  · rintro ⟨hcs, hc⟩ pre hne hpre
    rcases List.prefix_concat_iff.mp hpre with rfl | hpre
    · exact hc
    · exact hcs pre hne hpre

theorem Waiting.mono {cs pre : List Chunk} (h : Waiting cs) (hpre : pre <+: cs) : Waiting pre :=
  fun p hne hp => h p hne (hp.trans hpre)

theorem safeFrom_iff {e : Ending} {done cs : List Chunk} (hdone : Waiting done) :
    SafeFrom e cs (headerString done) (counted done) ↔
      (∀ pre c post, cs = pre ++ c :: post → Waiting (done ++ pre) → ChunkSafe (done ++ pre) c) ∧
        (e = .close → Waiting (done ++ cs) → Closes (headerString (done ++ cs))) := by
  induction cs generalizing done with
  | nil => simp [SafeFrom, hdone]
  | cons c cs ih =>
    have hstep : done ++ c :: cs = done ++ [c] ++ cs := by simp
    have hsafe : SafeFrom e (c :: cs) (headerString done) (counted done) ↔ ChunkSafe done c ∧
        (Waits (headerString (done ++ [c])) (counted (done ++ [c])) →
          SafeFrom e cs (headerString (done ++ [c])) (counted (done ++ [c]))) := by
      rw [SafeFrom, ChunkSafe, headerString_concat, counted_concat]
      simp only [and_assoc]
    rw [hsafe, hstep]
    constructor
    · rintro ⟨hc, hrest⟩
      refine ⟨fun pre c' post heq hwait => ?_, fun he hwait => ?_⟩
      · rcases List.cons_eq_append_iff.mp heq with ⟨rfl, hcs⟩ | ⟨pre', rfl, hcs⟩
        · cases hcs
          simpa using hc
        · rw [show done ++ c :: pre' = done ++ [c] ++ pre' by simp] at hwait ⊢
          have hdone' := hwait.mono (List.prefix_append _ _)
          exact ((ih hdone').mp (hrest (waiting_concat.mp hdone').2)).1 pre' c' post hcs hwait
      · have hdone' := hwait.mono (List.prefix_append _ _)
        exact ((ih hdone').mp (hrest (waiting_concat.mp hdone').2)).2 he hwait
    · rintro ⟨hchunk, hclose⟩
      refine ⟨by simpa using hchunk [] c cs rfl (by simpa using hdone), fun hwaits => ?_⟩
      refine (ih (waiting_concat.mpr ⟨hdone, hwaits⟩)).mpr ⟨fun pre c' post heq hwait => ?_, hclose⟩
      have := hchunk (c :: pre) c' post (by rw [heq]; rfl)
      rw [show done ++ c :: pre = done ++ [c] ++ pre by simp] at this
      exact this hwait

/-- A request ends without a fault exactly if the stream is survivable. -/
theorem request_survives_iff (junk : Gfcrequest) (cfg : Config) (rs : Recvs) :
    (∃ res, request junk cfg rs = .ok res) ↔ Survivable rs := by
  have hperform : (∃ res, request junk cfg rs = .ok res) ↔
      ∃ res, performRequest cfg rs ⟨0, 0⟩ = .ok res := by
    rw [request_eq]
    cases performRequest cfg rs ⟨0, 0⟩ with
    | error f => simp [Except.map]
    | ok b => simp [Except.map]
  have hprefixes : SafeFrom rs.ending rs.chunks (headerString []) (counted []) ↔ _ :=
    safeFrom_iff waiting_nil
  have hzero : counted [] = 0 := by decide +kernel
  rw [hzero] at hprefixes
  rw [hperform, performRequest, header_survives_iff rfl]
  apply hprefixes.trans
  simp only [List.nil_append]
  exact ⟨fun h => ⟨h.1, h.2⟩, fun h => ⟨h.chunk, h.close⟩⟩

/-- An immediate close: `strcmp` gets the status, which is missing. -/
theorem not_survives_close :
    ¬ ∀ (junk : Gfcrequest) (cfg : Config) (rs : Recvs), ∃ res, request junk cfg rs = .ok res := by
  intro h
  obtain ⟨res, hres⟩ := h .zeroed (downloadConfig (ascii "localhost") (ascii "/a") 8080 2)
    ⟨[], .close⟩
  have hfault : request .zeroed (downloadConfig (ascii "localhost") (ascii "/a") 8080 2)
      ⟨[], .close⟩ = .error .nullPointer := by decide +kernel
  rw [hfault] at hres
  cases hres

end IntroOS.Gfclient
