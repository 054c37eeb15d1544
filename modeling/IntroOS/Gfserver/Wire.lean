import IntroOS.Gfserver.Serve
import IntroOS.Gfserver.Transfer

/-!
# The bytes on a connection

What the server puts on a connection, for every pattern of `write` and `pread` results.

Main results:

* `handlerLoop_wire`: the loop of `handler_get` adds a prefix of the file.
* `WellFormed.header_of_nul`: a NUL stands behind a complete OK header only.
* `wire_wellFormed_iff`: the connections whose bytes are a prefix of a well-formed response,
  whatever the files contain.
-/

namespace IntroOS.Gfserver

open CString

/-! ## Well-formed responses -/

/-- A response: a header ended by CR LF CR LF, and behind the status OK as many bytes as it
    announces. -/
inductive WellFormed : List Byte → Prop
  | ok (sp content : List Byte) : (∀ a ∈ sp, a = 32) →
      WellFormed (ascii "GETFILE OK " ++ decimal content.length ++ sp ++ ascii "\r\n\r\n" ++ content)
  | fileNotFound (sp : List Byte) : (∀ a ∈ sp, a = 32) →
      WellFormed (ascii "GETFILE FILE_NOT_FOUND" ++ sp ++ ascii "\r\n\r\n")
  | error (sp : List Byte) : (∀ a ∈ sp, a = 32) →
      WellFormed (ascii "GETFILE ERROR" ++ sp ++ ascii "\r\n\r\n")

theorem zero_not_mem_header {w sp : List Byte} (hw : (0 : Byte) ∉ w) (hsp : ∀ a ∈ sp, a = 32) :
    (0 : Byte) ∉ w ++ sp ++ ascii "\r\n\r\n" := by
  have hcrlf : (0 : Byte) ∉ ascii "\r\n\r\n" := by decide
  have hsp0 := zero_not_mem_spaces hsp
  simp [hw, hsp0, hcrlf]

/-- In front of a NUL there is a complete header with the status OK. -/
theorem WellFormed.header_of_nul {r u x : List Byte} (h : WellFormed r) (hu : u ++ 0 :: x <+: r) :
    ∃ n sp, ascii "GETFILE OK " ++ decimal n ++ sp ++ ascii "\r\n\r\n" <+: u := by
  have hmem : (0 : Byte) ∈ r := hu.subset (by simp)
  cases h with
  | ok sp content hsp =>
    have hno : (0 : Byte) ∉ ascii "GETFILE OK " ++ decimal content.length ++ sp ++ ascii "\r\n\r\n" :=
      zero_not_mem_header (by
        have hok : (0 : Byte) ∉ ascii "GETFILE OK " := by decide
        have hdec : (0 : Byte) ∉ decimal content.length := fun h => (decimal_not_mem h).2 rfl
        simp [hok, hdec]) hsp
    refine ⟨content.length, sp, ?_⟩
    refine List.prefix_of_prefix_length_le (List.prefix_append _ content)
      ((List.prefix_append u _).trans hu) ?_
    by_contra hlt
    -- otherwise the NUL would be in the header
    have hnul : u ++ [0] <+: ascii "GETFILE OK " ++ decimal content.length ++ sp ++
        ascii "\r\n\r\n" ++ content := (show u ++ [0] <+: u ++ 0 :: x from ⟨x, by simp⟩).trans hu
    have hhead := List.prefix_of_prefix_length_le hnul (List.prefix_append _ content) (by
      rw [List.length_append, List.length_singleton]
      omega)
    exact hno (hhead.subset (by simp))
  | fileNotFound sp hsp => exact absurd hmem (zero_not_mem_header (by decide) hsp)
  | error sp hsp => exact absurd hmem (zero_not_mem_header (by decide) hsp)

/-! ## The bytes of a file -/

section Body

variable {io : WriteResults} {reads : ReadResults} {s : Sock} {file : List Byte}

/-- The loop of `handler_get` puts a part of the file on the connection, from where it is. -/
theorem handlerLoop_wire (reads : ReadResults) (io : WriteResults) (file : List Byte) (off : ℕ)
    (s : Sock) :
    ∃ u, u <+: file.drop off ∧ (handlerLoop reads io file off s).2.wire = s.wire ++ u := by
  obtain ⟨u, hu, hwire⟩ := transferLoop_moments (pread reads file) io file.length off s _
    (List.prefix_refl _)
  refine ⟨u, hu.trans (transferLoop_offered reads io file off s), ?_⟩
  rw [handlerLoop_eq]
  exact hwire

/-- No byte of the file is accepted: it is empty, or the first `pread` delivers nothing, or
    the `write` behind the header accepts nothing. -/
def NoBody (reads : ReadResults) (io : WriteResults) (file : List Byte) : Prop :=
  file = [] ∨ (reads 0).getD 0 = 0 ∨ accepts io 1 = 0

theorem pread_zero_eq_nil : pread reads file 0 = [] ↔ file = [] ∨ (reads 0).getD 0 = 0 := by
  unfold pread BUFSIZE
  simp [List.take_eq_nil_iff, or_comm]

theorem handlerLoop_noBody (hs : s.closed = false) (hcalls : s.calls = 1)
    (h : NoBody reads io file) : (handlerLoop reads io file 0 s).2.wire = s.wire := by
  rw [handlerLoop]
  by_cases hlt : 0 < file.length
  swap
  · rw [if_neg hlt]
  rw [if_pos hlt]
  by_cases hzero : (pread reads file 0).length ≤ 0
  · rw [if_pos hzero]
    rfl
  rw [if_neg hzero]
  have hne : pread reads file 0 ≠ [] := fun h => hzero (by rw [h]; rfl)
  have hacc : accepts io s.calls = 0 := by
    rw [hcalls]
    rcases h with h | h | h
    · exact absurd (pread_zero_eq_nil.mpr (Or.inl h)) hne
    · exact absurd (pread_zero_eq_nil.mpr (Or.inr h)) hne
    · exact h
  have hwire : (write io s (pread reads file 0)).2.wire = s.wire := by
    rw [(write_wire hs).1, hacc, List.take_zero, List.append_nil]
  by_cases hfull : (gfsSend io s (pread reads file 0)).1 ≠ (pread reads file 0).length
  · rw [if_pos hfull]
    exact hwire
  · -- a write that accepts nothing is not complete
    have hall := write_all hs (not_not.mp hfull)
    rw [hwire] at hall
    exact absurd (List.self_eq_append_right.mp hall) hne

theorem handlerLoop_body (hs : s.closed = false) (hcalls : s.calls = 1)
    (h : ¬ NoBody reads io file) :
    ∃ u, u ≠ [] ∧ u <+: file ∧ (handlerLoop reads io file 0 s).2.wire = s.wire ++ u := by
  unfold NoBody at h
  rw [← or_assoc, ← pread_zero_eq_nil, not_or] at h
  obtain ⟨hne, hacc⟩ := h
  have hpre : pread reads file 0 <+: file := by simpa using pread_drop reads file 0
  have hlen : 0 < (pread reads file 0).length := List.length_pos_of_ne_nil hne
  rw [handlerLoop, if_pos (hlen.trans_le hpre.length_le), if_neg (by omega)]
  by_cases hfull : (gfsSend io s (pread reads file 0)).1 ≠ (pread reads file 0).length
  · rw [if_pos hfull]
    refine ⟨(pread reads file 0).take (accepts io s.calls), ?_, (List.take_prefix _ _).trans hpre,
      (write_wire hs).1⟩
    rw [hcalls, Ne, List.take_eq_nil_iff, not_or]
    exact ⟨hacc, hne⟩
  · rw [if_neg hfull]
    obtain ⟨u, hu, hwire⟩ := handlerLoop_wire reads io file (0 + (pread reads file 0).length)
      (gfsSend io s (pread reads file 0)).2
    refine ⟨pread reads file 0 ++ u, by simp [hne], ?_, ?_⟩
    · rw [Nat.zero_add] at hu
      exact prefix_append_of_drop hpre hu
    · rw [hwire, ← List.append_assoc]
      exact congrArg (· ++ u) (write_all hs (not_not.mp hfull))

end Body

/-! ## Headers on the wire -/

section Header

variable {sp : List Byte} {k n : ℕ}

/-- The NUL behind a header without content must not get out. -/
theorem fileNotFound_wellFormed_iff (hsp : ∀ a ∈ sp, a = 32) :
    (∃ r, WellFormed r ∧
        (ascii "GETFILE FILE_NOT_FOUND" ++ sp ++ ascii "\r\n\r\n" ++ [0]).take k <+: r) ↔
      k < (ascii "GETFILE FILE_NOT_FOUND" ++ sp ++ ascii "\r\n\r\n" ++ [0]).length := by
  constructor
  · rintro ⟨r, hr, hpre⟩
    by_contra hle
    rw [List.take_of_length_le (not_lt.mp hle)] at hpre
    obtain ⟨n, sp', hok⟩ := hr.header_of_nul hpre
    -- the two headers differ behind the scheme
    have h₁ : ascii "GETFILE OK " = ascii "GETFILE " ++ 79 :: ascii "K " := by decide
    have h₂ : ascii "GETFILE FILE_NOT_FOUND" = ascii "GETFILE " ++ 70 :: ascii "ILE_NOT_FOUND" := by
      decide
    simp only [h₁, h₂, List.append_assoc, List.cons_append, List.prefix_append_right_inj,
      List.cons_prefix_cons] at hok
    exact absurd hok.1 (by decide)
  · intro hlt
    refine ⟨_, WellFormed.fileNotFound sp hsp, ?_⟩
    rw [List.take_append_of_le_length (by
      rw [List.length_append, List.length_singleton] at hlt
      omega)]
    exact List.take_prefix _ _

theorem okHeader_wellFormed (file : List Byte) : WellFormed (okHeader file.length ++ file) := by
  have hsp : ascii " \r\n\r\n" = [32] ++ ascii "\r\n\r\n" := by decide
  have h := WellFormed.ok [32] file (by simp)
  simpa only [okHeader, hsp, List.append_assoc] using h

/-- A part of a header has one LF at most, a complete header has two. -/
theorem okHeader_take_incomplete (hk : k < (okHeader n).length) (m : ℕ) (sp : List Byte) :
    ¬ ascii "GETFILE OK " ++ decimal m ++ sp ++ ascii "\r\n\r\n" <+: (okHeader n).take k := by
  intro hpre
  have hdec : (decimal n).count 10 = 0 :=
    List.count_eq_zero.mpr fun h => (decimal_not_mem h).1 (by decide)
  have hlf : okHeader n = ascii "GETFILE OK " ++ decimal n ++ ascii " \r\n\r" ++ [10] := by
    have hend : ascii " \r\n\r\n" = ascii " \r\n\r" ++ [10] := by decide
    rw [okHeader, hend, ← List.append_assoc]
  have htake : (okHeader n).take k <+: ascii "GETFILE OK " ++ decimal n ++ ascii " \r\n\r" := by
    rw [hlf, List.length_append, List.length_singleton] at hk
    rw [hlf, List.take_append_of_le_length (by omega)]
    exact List.take_prefix _ _
  have hcount := (hpre.trans htake).sublist.count_le 10
  have h₁ : (ascii "GETFILE OK ").count 10 = 0 := by decide
  have h₂ : (ascii " \r\n\r").count 10 = 1 := by decide
  have h₃ : (ascii "\r\n\r\n").count 10 = 2 := by decide
  simp only [List.count_append, hdec, h₁, h₂, h₃] at hcount
  omega

end Header

/-! ## The response to a connection -/

/-- What the server puts on a connection. A fault comes before the first `write`. -/
def wireOf (content : Content) (reads : ReadResults) (c : Connection) (readData : List Byte) :
    List Byte :=
  match serveOne (fun io path s => (handlerGet content reads io path s).2) c readData with
  | .ok (served, _) => served.sock.wire
  | .error _ => []

/-- Both have the same keys, with files of the same sizes. -/
def SameSizes (content content' : Content) : Prop :=
  ∀ path, (content path).map (·.bytes.length) = (content' path).map (·.bytes.length)

/-- The calls of `write` that leave the response framed. The two replies without content come
    with the NUL behind them, which must not be accepted; with a file, the header is accepted
    completely or no byte of the file follows it. -/
def Framed (content : Content) (reads : ReadResults) (c : Connection) (readData : List Byte) :
    Prop :=
  ∀ scheme method path, Words (recvInto readData c.received) scheme method path →
    if scheme = ascii "GETFILE" ∧ method = ascii "GET" ∧ path.head? = some 47 then
      match content path with
      | none => accepts c.io 0 < 28
      | some file =>
        (okHeader file.bytes.length).length ≤ accepts c.io 0 ∨ NoBody reads c.io file.bytes
    else accepts c.io 0 < 29

section Handler

variable {content : Content} {reads : ReadResults} {io : WriteResults} {path : List Byte}
  {file : File}

theorem handlerGet_none (h : content path = none) :
    (handlerGet content reads io path Sock.new).2.wire =
      (ascii "GETFILE FILE_NOT_FOUND \r\n\r\n" ++ [0]).take (accepts io 0) := by
  simp only [handlerGet, h, gfsSendheader, gfsAbort]
  exact (write_wire rfl).1

/-- The connection behind the header of a file. -/
theorem handlerGet_some (h : content path = some file) :
    ∃ s, s.wire = (okHeader file.bytes.length).take (accepts io 0) ∧ s.closed = false ∧
      s.calls = 1 ∧
      (handlerGet content reads io path Sock.new).2 = (handlerLoop reads io file.bytes 0 s).2 := by
  have hlt : file.bytes.length < 2 ^ 64 := file.lt.trans (by decide)
  have hwire := @write_wire io Sock.new (okHeader file.bytes.length) rfl
  refine ⟨_, hwire.1, hwire.2.1, hwire.2.2, ?_⟩
  simp only [handlerGet, h, gfsSendheader, sizeT_natCast hlt]

/-- With the header accepted completely, or nothing behind it, the response is framed. -/
theorem handlerGet_wellFormed (h : content path = some file)
    (hframed : (okHeader file.bytes.length).length ≤ accepts io 0 ∨ NoBody reads io file.bytes) :
    (handlerGet content reads io path Sock.new).2.wire <+:
      okHeader file.bytes.length ++ file.bytes := by
  obtain ⟨s, hwire, hclosed, hcalls, heq⟩ := @handlerGet_some content reads io path file h
  rw [heq]
  rcases hframed with hall | hno
  · obtain ⟨u, hu, hloop⟩ := handlerLoop_wire reads io file.bytes 0 s
    rw [hloop, hwire, List.take_of_length_le hall]
    exact (List.prefix_append_right_inj _).mpr (by simpa using hu)
  · rw [handlerLoop_noBody hclosed hcalls hno, hwire]
    exact (List.take_prefix _ _).trans (List.prefix_append _ _)

/-- A file of NULs behind a part of the header: no well-formed response starts so. -/
theorem handlerGet_not_wellFormed (h : content path = some file)
    (hzero : ∀ a ∈ file.bytes, a = 0) (hpart : accepts io 0 < (okHeader file.bytes.length).length)
    (hbody : ¬ NoBody reads io file.bytes) {r : List Byte} (hr : WellFormed r) :
    ¬ (handlerGet content reads io path Sock.new).2.wire <+: r := by
  obtain ⟨s, hwire, hclosed, hcalls, heq⟩ := @handlerGet_some content reads io path file h
  obtain ⟨u, hne, hu, hloop⟩ := handlerLoop_body hclosed hcalls hbody
  obtain ⟨x, u, rfl⟩ := List.exists_cons_of_ne_nil hne
  obtain rfl : x = 0 := hzero x (hu.subset (by simp))
  rw [heq, hloop, hwire]
  intro hpre
  obtain ⟨m, sp, hcomplete⟩ := hr.header_of_nul hpre
  exact okHeader_take_incomplete hpart m sp hcomplete

end Handler

section Wire

variable {content content₀ : Content} {reads : ReadResults} {c : Connection}
  {readData scheme method path : List Byte}

theorem wireOf_words (h : Words (recvInto readData c.received) scheme method path) :
    wireOf content reads c readData =
      if scheme = ascii "GETFILE" ∧ method = ascii "GET" ∧ path.head? = some 47 then
        (handlerGet content reads c.io path Sock.new).2.wire
      else (ascii "GETFILE FILE_NOT_FOUND  \r\n\r\n" ++ [0]).take (accepts c.io 0) := by
  obtain ⟨b', hserve, -⟩ :=
    @serveOne_words (fun io path s => (handlerGet content reads io path s).2) c readData _ _ _ h
  unfold wireOf
  rw [hserve, answer]
  by_cases hgood : scheme = ascii "GETFILE" ∧ method = ascii "GET" ∧ path.head? = some 47
  · rw [if_pos hgood, if_pos hgood]
  · rw [if_neg hgood, if_neg hgood]
    exact (write_wire rfl).1

theorem wireOf_fault (h : ∀ scheme method path,
    ¬ Words (recvInto readData c.received) scheme method path) :
    wireOf content reads c readData = [] := by
  unfold wireOf
  cases hserve : serveOne (fun io path s => (handlerGet content reads io path s).2) c readData with
  | error f => rfl
  | ok res =>
    obtain ⟨w₁, w₂, w₃, hw⟩ := serveOne_ok_iff.mp ⟨res, hserve⟩
    exact absurd hw (h w₁ w₂ w₃)

/-- The same content library with NULs only. -/
def zeros (content : Content) : Content := fun path =>
  (content path).map fun file =>
    ⟨List.replicate file.bytes.length 0, by rw [List.length_replicate]; exact file.lt⟩

theorem zeros_sameSizes (content : Content) : SameSizes (zeros content) content := by
  intro path
  unfold zeros
  cases content path <;> simp

theorem NoBody.of_length {file file' : List Byte} {io : WriteResults}
    (hlen : file.length = file'.length) (h : NoBody reads io file) : NoBody reads io file' := by
  rcases h with rfl | h | h
  · exact Or.inl (List.length_eq_zero_iff.mp hlen.symm)
  · exact Or.inr (Or.inl h)
  · exact Or.inr (Or.inr h)

theorem framed_of_sameSizes (h : SameSizes content content₀)
    (hframed : Framed content₀ reads c readData) : Framed content reads c readData := by
  intro scheme method path hw
  have h₀ := hframed scheme method path hw
  have hsize := h path
  by_cases hgood : scheme = ascii "GETFILE" ∧ method = ascii "GET" ∧ path.head? = some 47
  · rw [if_pos hgood] at h₀ ⊢
    cases hc : content path with
    | none =>
      cases hc₀ : content₀ path with
      | none => simpa [hc₀] using h₀
      | some file₀ => simp [hc, hc₀] at hsize
    | some file =>
      cases hc₀ : content₀ path with
      | none => simp [hc, hc₀] at hsize
      | some file₀ =>
        have hlen : file.bytes.length = file₀.bytes.length := by simpa [hc, hc₀] using hsize
        rw [hc₀] at h₀
        exact h₀.imp (fun hall => by rwa [hlen]) (NoBody.of_length hlen.symm)
  · rw [if_neg hgood] at h₀ ⊢
    exact h₀

/-- A framed connection carries a prefix of a well-formed response. -/
theorem Framed.wellFormed (h : Framed content reads c readData) :
    ∃ r, WellFormed r ∧ wireOf content reads c readData <+: r := by
  by_cases hw : ∃ scheme method path, Words (recvInto readData c.received) scheme method path
  swap
  · refine ⟨_, okHeader_wellFormed [], ?_⟩
    rw [wireOf_fault fun w₁ w₂ w₃ hw' => hw ⟨w₁, w₂, w₃, hw'⟩]
    exact List.nil_prefix
  obtain ⟨scheme, method, path, hw⟩ := hw
  have h₀ := h scheme method path hw
  rw [wireOf_words hw]
  by_cases hgood : scheme = ascii "GETFILE" ∧ method = ascii "GET" ∧ path.head? = some 47
  · rw [if_pos hgood] at h₀ ⊢
    cases hc : content path with
    | none =>
      rw [hc] at h₀
      rw [handlerGet_none hc]
      exact (@fileNotFound_wellFormed_iff [32] _ (by simp)).mpr h₀
    | some file =>
      rw [hc] at h₀
      exact ⟨_, okHeader_wellFormed _, handlerGet_wellFormed hc h₀⟩
  · rw [if_neg hgood] at h₀ ⊢
    exact (@fileNotFound_wellFormed_iff [32, 32] _ (by simp)).mpr h₀

theorem framed_of_wellFormed
    (h : ∀ content, SameSizes content content₀ →
      ∃ r, WellFormed r ∧ wireOf content reads c readData <+: r) :
    Framed content₀ reads c readData := by
  intro scheme method path hw
  obtain ⟨r, hr, hpre⟩ := h (zeros content₀) (zeros_sameSizes content₀)
  rw [wireOf_words hw] at hpre
  by_cases hgood : scheme = ascii "GETFILE" ∧ method = ascii "GET" ∧ path.head? = some 47
  · rw [if_pos hgood] at hpre ⊢
    cases hc : content₀ path with
    | none =>
      rw [handlerGet_none (by simp [zeros, hc])] at hpre
      exact (@fileNotFound_wellFormed_iff [32] _ (by simp)).mp ⟨r, hr, hpre⟩
    | some file =>
      by_contra hnot
      rw [not_or] at hnot
      have hlen : (List.replicate file.bytes.length (0 : Byte)).length = file.bytes.length :=
        List.length_replicate
      let file' : File := ⟨List.replicate file.bytes.length 0, by rw [hlen]; exact file.lt⟩
      have hzeros : zeros content₀ path = some file' := by simp [zeros, hc, file']
      refine handlerGet_not_wellFormed hzeros (fun a ha => List.eq_of_mem_replicate ha) ?_
        (fun hno => hnot.2 (hno.of_length hlen)) hr hpre
      rw [show file'.bytes.length = file.bytes.length from hlen]
      exact not_le.mp hnot.1
  · rw [if_neg hgood] at hpre ⊢
    exact (@fileNotFound_wellFormed_iff [32, 32] _ (by simp)).mp ⟨r, hr, hpre⟩

end Wire

/-- The bytes on a connection are a prefix of a well-formed response, whatever the files
    contain, exactly if the calls of `write` leave the response framed. -/
theorem wire_wellFormed_iff (content₀ : Content) (reads : ReadResults) (c : Connection)
    (readData : List Byte) :
    (∀ content, SameSizes content content₀ →
        ∃ r, WellFormed r ∧ wireOf content reads c readData <+: r) ↔
      Framed content₀ reads c readData :=
  ⟨framed_of_wellFormed, fun h _ hsize => (framed_of_sameSizes hsize h).wellFormed⟩

/-- A request for an unknown key on a connection that accepts everything: the NUL follows. -/
theorem not_wellFormed_nul :
    ¬ ∀ (content : Content) (reads : ReadResults) (c : Connection) (readData : List Byte),
      ∃ r, WellFormed r ∧ wireOf content reads c readData <+: r := by
  intro h
  let p : Path := ⟨ascii "/a", by decide, by decide +kernel, by decide⟩
  obtain ⟨r, hr, hpre⟩ := h (fun _ => none) (fun _ => none) (p.connection fun _ => some 4096)
    readDataInit
  rw [wireOf_words (p.words _ _), if_pos ⟨rfl, rfl, p.slash⟩, handlerGet_none rfl] at hpre
  exact absurd ((@fileNotFound_wellFormed_iff [32] _ (by simp)).mp ⟨r, hr, hpre⟩) (by decide)

end IntroOS.Gfserver
