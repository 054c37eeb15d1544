import IntroOS.Gfclient.ErrorReply
import IntroOS.Gfclient.Kept
import IntroOS.Gfserver.Wire

/-!
# A request from end to end

The client of `pr1/gflib/gfclient_download.c` asks the server of `pr1/gflib/gfserver.c` and
`handler.c` for a path. The server has served other connections before. Its `pread` and `write`
calls deliver and accept what they like, the connection may break at any byte, and the network
delivers what has been written in arbitrary pieces. The server survives these connections, and the
request comes whole in one `recv`, for a path of the form `Path`.

Main results:

* `not_kept_reply`: a reply without content leaves no local file.
* `session_kept_iff`: a local file is kept exactly for a path of the content library whose file
  has come completely in a clean cut, or shifted by a cut in the terminator of the header.
-/

namespace IntroOS.Session

open CString Gfclient Gfserver

/-! ## Replies without content -/

section Reply

variable {cfg : Config} {w t kept : List Byte} {status : Gfclient.GfStatus} {rs : Recvs}

theorem not_kept_reply (h : ErrorReply w status)
    (hs : received rs.chunks <+: ascii "GETFILE " ++ w ++ 32 :: t)
    (hlt : (received rs.chunks).length < Gfclient.BUFSIZE) :
    ¬ Kept (performRequest cfg rs ⟨0, 0⟩) kept := by
  obtain ⟨chunks, e⟩ := rs
  dsimp only at hs hlt
  obtain ⟨-, h3, -, h0⟩ := h.clean
  have hfull : ∀ d ∈ chunks, d.data.length < Gfclient.BUFSIZE := fun d hd =>
    (length_le_received hd).trans_lt hlt
  have hwait : ∀ j v, j < (ascii "GETFILE " ++ w).length → ∃ s, strParseHeader cfg
      (reading (ascii "GETFILE " ++ w) j) v =
        .ok (.next (reading (ascii "GETFILE " ++ w) j) { v with status := s }) := fun j v hj =>
    ⟨v.status, strParseHeader_unfinished h cfg v hj⟩
  unfold Gfclient.BUFSIZE at hlt
  generalize hH : ascii "GETFILE " ++ w = H at *
  have hpos : 0 < H.length := by
    rw [← hH, List.length_append]
    omega
  rcases Nat.lt_or_ge (H.length - 1) (received chunks).length with hcross | hshort
  · obtain ⟨pre, c, post, rfl, hk, hreach⟩ := exists_crossing chunks hcross
    obtain ⟨B, hB⟩ : H <+: received (pre ++ c :: post) := by
      refine List.prefix_of_prefix_length_le (List.prefix_append _ _) hs ?_
      rw [received_append, received_cons, List.length_append, List.length_append]
      omega
    rw [← hB, List.prefix_append_right_inj] at hs
    obtain ⟨b, hc, rfl, -⟩ := split_whole hB.symm (by omega) (by omega)
    -- behind the word there is nothing in this chunk, or the space
    have hspace : b = [] ∨ ∃ b', b = 32 :: b' := by
      cases b with
      | nil => exact .inl rfl
      | cons x b =>
        obtain ⟨rfl, -⟩ := List.cons_prefix_cons.mp hs
        exact .inr ⟨b, rfl⟩
    rw [received_append, received_cons, List.length_append, List.length_append] at hlt
    obtain ⟨v₁, hv₁, hlog, -⟩ := perform_reading (k := 0) cfg e pre (c :: post)
      (View.initial ⟨0, 0⟩ cfg.path) h0 (fun j v hj => hwait j v (by omega))
      (fun d hd => hfull d (List.mem_append_left _ hd)) (by omega)
      (by rw [List.drop_zero]; exact (split_stream hB.symm (by omega)).1)
    rw [Nat.zero_add] at hv₁
    have hchunk := hfull c (by simp)
    subst hH
    obtain ⟨v, hv, hstatus, -⟩ := @perform_reply cfg e w b status _ c post v₁ h (by omega) hc hspace
      hchunk (by omega) (by rw [hlog]; rfl)
    rintro ⟨ret, v', hrun, -, hok, -⟩
    have hrun' : performRequest cfg ⟨pre ++ c :: post, e⟩ ⟨0, 0⟩ = _ := hv₁.trans hv
    rw [hrun'] at hrun
    cases hrun
    rw [hstatus] at hok
    cases h <;> cases hok
  · -- the client waits to the end
    have hpre : received chunks = (H.drop 0).take (received chunks).length := by
      have hlen : (received chunks).length ≤ H.length := by omega
      rw [List.drop_zero, ← List.take_append_of_le_length hlen]
      exact List.prefix_iff_eq_take.mp hs
    obtain ⟨v, hv, -⟩ := perform_reading (k := 0) cfg e chunks [] (View.initial ⟨0, 0⟩ cfg.path) h0
      (fun j v hj => hwait j v (by omega)) hfull (by omega) hpre
    rw [List.append_nil] at hv
    have hrun : performRequest cfg ⟨chunks, e⟩ ⟨0, 0⟩ = _ := hv
    rw [hrun]
    exact not_kept_end

end Reply

/-! ## Sessions -/

/-- What `gfserver_serve` calls with a path. -/
def handlerOf (content : Content) (reads : ReadResults) : WriteResults → Handler :=
  fun io path s => (handlerGet content reads io path s).2

/-- The last connection of a history is served from the buffer that the others have left. -/
theorem gfserverServe_ok_concat {handler : WriteResults → Handler} {cs : List Connection}
    {c : Connection} {b : List Byte} {res : List Served × List Byte}
    (h : gfserverServe handler (cs ++ [c]) b = .ok res) :
    ∃ served b₁ last b', serveOne handler c b₁ = .ok (last, b') ∧ res = (served ++ [last], b') := by
  induction cs generalizing b res with
  | nil =>
    obtain ⟨last, b', hlast, rest, hrest, rfl⟩ := gfserverServe_ok_cons h
    cases hrest
    exact ⟨[], b, last, b', hlast, rfl⟩
  | cons d cs ih =>
    obtain ⟨first, b₁, -, rest, hrest, rfl⟩ := gfserverServe_ok_cons h
    obtain ⟨served, b₂, last, b', hlast, rfl⟩ := ih hrest
    exact ⟨first :: served, b₂, last, b', hlast, rfl⟩

section Kept

variable {content : Content} {reads : ReadResults} {io : WriteResults} {p : Path} {rs : Recvs}
  {cfg : Config} {kept : List Byte}

/-- The path is not in the library: a part of the reply. -/
theorem wire_prefix_reply (hfile : content p.bytes = none)
    (hnet : received rs.chunks <+: (handlerOf content reads io p.bytes Sock.new).wire) :
    received rs.chunks <+: ascii "GETFILE " ++ ascii "FILE_NOT_FOUND" ++
        32 :: (ascii "\r\n\r\n" ++ [0]) ∧
      (received rs.chunks).length < Gfclient.BUFSIZE := by
  have hreply : ascii "GETFILE FILE_NOT_FOUND \r\n\r\n" ++ [0] =
      ascii "GETFILE " ++ ascii "FILE_NOT_FOUND" ++ 32 :: (ascii "\r\n\r\n" ++ [0]) := by
    decide +kernel
  have hlen : (ascii "GETFILE FILE_NOT_FOUND \r\n\r\n" ++ [0]).length < Gfclient.BUFSIZE := by
    decide +kernel
  rw [handlerOf, handlerGet_none hfile] at hnet
  have hpre := hnet.trans (List.take_prefix _ _)
  exact ⟨hreply ▸ hpre, hpre.length_le.trans_lt hlen⟩

/-- The path is in the library: the file of `content` as far as it has been sent. -/
theorem wire_prefix_stream {file : File} (hfile : content p.bytes = some file)
    (hframed : (okHeader file.bytes.length).length ≤ accepts io 0 ∨ NoBody reads io file.bytes)
    (hnet : received rs.chunks <+: (handlerOf content reads io p.bytes Sock.new).wire) :
    received rs.chunks <+: okHeader file.bytes.length ++ file.bytes :=
  hnet.trans (handlerGet_wellFormed hfile hframed)

/-- The last connection of a history has got what the handler writes for its path. -/
theorem last_of_serve {history : List Connection} {served : List Served} {last : Served}
    {readData : List Byte} (h : gfserverServe (handlerOf content reads)
      (history ++ [p.connection io]) readDataInit = .ok (served ++ [last], readData)) :
    last = ⟨[p.bytes], handlerOf content reads io p.bytes Sock.new⟩ := by
  obtain ⟨served', b₁, last', b', hlast, hres⟩ := gfserverServe_ok_concat h
  obtain ⟨b'', hanswer, -⟩ := @serveOne_words (handlerOf content reads) _ _ _ _ _ (p.words io b₁)
  rw [p.answer, hlast] at hanswer
  cases hanswer
  obtain ⟨rfl, -⟩ := List.append_inj' (Prod.mk.inj hres).1 rfl
  exact List.singleton_injective (List.append_cancel_left (Prod.mk.inj hres).1)

/-- What the client keeps of what the handler has written. -/
theorem kept_iff_of_wire
    (hframed : ∀ file, content p.bytes = some file →
      (okHeader file.bytes.length).length ≤ accepts io 0 ∨ NoBody reads io file.bytes)
    (hnet : received rs.chunks <+: (handlerOf content reads io p.bytes Sock.new).wire)
    (server : List Byte) (port : ℕ) (file : VoidPtr) (junk : Gfcrequest) (kept : List Byte) :
    (∃ o log, request junk (downloadConfig server p.bytes port file) rs = .ok (o, log) ∧
        localFile file o log = some kept) ↔
      ∃ f, content p.bytes = some f ∧
        (received rs.chunks = okHeader f.bytes.length ++ f.bytes ∧
            CleanCut f.bytes rs.chunks ∧ kept = f.bytes ∨
          ShiftedCut f.bytes rs.chunks kept) := by
  cases hfile : content p.bytes with
  | none =>
    obtain ⟨hs, hlt⟩ := wire_prefix_reply hfile hnet
    have hnone := @not_kept_reply (downloadConfig server p.bytes port file) _ _ kept _ rs
      .fileNotFound hs hlt
    rw [kept_request (hlt.trans (by decide))]
    exact iff_of_false hnone fun ⟨f, hf, _⟩ => by cases hf
  | some f =>
    have hs := wire_prefix_stream hfile (hframed f hfile) hnet
    have hlt : (received rs.chunks).length < 2 ^ 64 := by
      have hhead := okHeader_length_le (n := f.bytes.length) (f.lt.trans (by decide))
      have hle := hs.length_le
      have hbytes := f.lt
      rw [List.length_append] at hle
      omega
    rw [kept_request hlt, kept_iff f.lt hs]
    constructor
    · exact fun h => ⟨f, rfl, h⟩
    · rintro ⟨f', hf, h⟩
      cases hf
      exact h

end Kept

/-- The header of a file of two bytes. -/
def hiHeader : Chunk := ⟨okHeader 2, by decide +kernel, by decide +kernel⟩

/-- The bytes of the file "hi". -/
def hiBody : Chunk := ⟨ascii "hi", by decide, by decide⟩

end IntroOS.Session
