import IntroOS.Gfclient.MainLoop
import IntroOS.Session.Getfile

/-!
# A whole run of the client

`gfclient_download` makes its requests one after the other, each to a server that has served other
connections before, and all servers have the same content library. What is left of a run is a set of
local files.

Main results:

* `downloads_saved`: the local file of a request is the file of the library, if it has come in a
  clean cut, or it is shifted by a cut in the terminator of the header; there is none otherwise. A
  request without a connection leaves an empty file. Other files are as they were.
-/

namespace IntroOS.Session

open CString Gfclient Gfserver

/-- The answer to a request, as far as the network has delivered it: the server has served a
    history and goes on with the request, which comes in one `recv`. The path has the form of
    `Path`. The header of a file is accepted completely, or nothing is sent behind it. -/
def Answered (content : Content) (req_path : PathString) (rs : Recvs) : Prop :=
  ∃ (p : Path) (reads : ReadResults) (io : WriteResults) (history : List Connection)
    (served : List Served) (last : Served) (readData : List Byte),
    p.bytes = req_path.bytes ∧
    gfserverServe (handlerOf content reads) (history ++ [p.connection io]) readDataInit =
      .ok (served ++ [last], readData) ∧
    (∀ file, content p.bytes = some file →
      (okHeader file.bytes.length).length ≤ accepts io 0 ∨ NoBody reads io file.bytes) ∧
    received rs.chunks <+: last.sock.wire

/-- What there may be behind the name of a request: the file of the library, or a shifted one. -/
def Saves (content : Content) (req_path : PathString) (rs : Recvs) (kept : List Byte) : Prop :=
  ∃ f, content req_path.bytes = some f ∧
    (received rs.chunks = okHeader f.bytes.length ++ f.bytes ∧
        CleanCut f.bytes rs.chunks ∧ kept = f.bytes ∨
      ShiftedCut f.bytes rs.chunks kept)

/-- What a round leaves is what the client keeps of the answer. -/
theorem leaves_iff {content : Content} {r : Round} {server : List Byte} {port : ℕ}
    {left : Option (List Byte)} (hconnects : r.connects = true)
    (h : Answered content r.req_path r.recvs) (hleaves : r.Leaves server port left)
    (kept : List Byte) : left = some kept ↔ Saves content r.req_path r.recvs kept := by
  obtain ⟨p, reads, io, history, served, last, readData, hp, hserve, hframed, hnet⟩ := h
  rw [Round.Leaves, if_pos hconnects] at hleaves
  obtain ⟨o, log, hreq, rfl⟩ := hleaves
  obtain rfl := last_of_serve hserve
  have hkept := kept_iff_of_wire hframed hnet server port r.file r.junk kept
  rw [hp] at hkept
  rw [Saves, ← hkept]
  constructor
  · exact fun hfile => ⟨o, log, hreq, hfile⟩
  · rintro ⟨o', log', hreq', hfile⟩
    rw [hreq] at hreq'
    cases hreq'
    exact hfile

/-- Whatever decides what each round with a connection leaves decides what is left of the whole
    run. -/
theorem mainLoop_leaves {Dir : Type} [DecidableEq Dir] {names : Naming Dir} {server : List Byte}
    {port : ℕ} {rounds : List Round} {dirs : List Dir} {files files' : Files Dir} {exited : Bool}
    {P : Round → List Byte → Prop} (hlt : rounds.length < 2 ^ 31)
    (hrun : mainLoop names server port rounds 0 dirs files = .ok (files', exited))
    (hP : ∀ r ∈ rounds, r.connects = true → ∀ left, r.Leaves server port left → ∀ kept,
      left = some kept ↔ P r kept) :
    ∃ made ≤ rounds.length, (exited = false → made = rounds.length) ∧
      (∀ i r, i < made → rounds[i]? = some r →
        (r.connects = true → ∀ kept, files' (r.target names i) = some kept ↔ P r kept) ∧
        (r.connects = false → files' (r.target names i) = some [] ∧ i + 1 = made ∧
          exited = true)) ∧
      ∀ file, (∀ i r, i < made → rounds[i]? = some r → file ≠ r.target names i) →
        files' file = files file := by
  obtain ⟨made, hle, hall, hmade, hother⟩ :=
    @mainLoop_spec _ _ names server port rounds dirs files files' exited 0 (by omega) hrun
  simp only [Nat.zero_add] at hmade hother
  refine ⟨made, hle, hall, ?_, hother⟩
  intro i r hi hr
  obtain ⟨hleaves, hlast⟩ := hmade i r hi hr
  constructor
  · intro hconnects
    exact hP r (List.mem_of_getElem? hr) hconnects _ hleaves
  · intro hno
    rw [Round.Leaves, hno, if_neg Bool.false_ne_true] at hleaves
    exact ⟨hleaves, hlast hno⟩

/-- Behind a run of fewer than `2^31` rounds that does not crash: the first `made` rounds have
    opened a file, which is all of them unless the process has ended early. Each of them has left
    exactly what its answer saves, whatever the other rounds have done; the last one an empty file,
    if it has got no connection. The other files are as before. -/
theorem downloads_saved {Dir : Type} [DecidableEq Dir] (names : Naming Dir) (content : Content)
    (server : List Byte) (port : ℕ) (rounds : List Round) (dirs : List Dir)
    (files files' : Files Dir) (exited : Bool) (hlt : rounds.length < 2 ^ 31)
    (hrun : mainLoop names server port rounds 0 dirs files = .ok (files', exited))
    (hanswered : ∀ r ∈ rounds, r.connects = true → Answered content r.req_path r.recvs) :
    ∃ made ≤ rounds.length, (exited = false → made = rounds.length) ∧
      (∀ i r, i < made → rounds[i]? = some r →
        (r.connects = true → ∀ kept,
          files' (r.target names i) = some kept ↔ Saves content r.req_path r.recvs kept) ∧
        (r.connects = false → files' (r.target names i) = some [] ∧ i + 1 = made ∧
          exited = true)) ∧
      ∀ file, (∀ i r, i < made → rounds[i]? = some r → file ≠ r.target names i) →
        files' file = files file :=
  mainLoop_leaves hlt hrun fun r hr hconnects _ hleaves kept =>
    leaves_iff hconnects (hanswered r hr hconnects) hleaves kept

/-! ## A request for "/a" -/

def hiFile : File := ⟨ascii "hi", by decide⟩

theorem slash_a : (ascii "/a").head? = some 47 := by decide

theorem length_a_le : (ascii "/a").length ≤ 256 := by decide

def hiPath : Path := ⟨ascii "/a", slash_a, clean_a, length_a_le⟩

/-- The request for "/a"; its file "hi" comes in two pieces. -/
def hiRound : Round where
  req_path := ⟨ascii "/a", by decide, by decide⟩
  fopens := true
  file := 2
  junk := .zeroed
  connects := true
  recvs := ⟨[hiHeader, hiBody], .error⟩

/-- The file is in the library. -/
theorem answered_hi {content : Content} (h : content (ascii "/a") = some hiFile) :
    Answered content hiRound.req_path hiRound.recvs := by
  have hhandler : handlerOf content (fun _ => some 1) (fun _ => some 4096) hiPath.bytes Sock.new =
      handlerOf (fun _ => some hiFile) (fun _ => some 1) (fun _ => some 4096) hiPath.bytes
        Sock.new := by
    have h : content hiPath.bytes = some hiFile := h
    rw [handlerOf, handlerOf, handlerGet, handlerGet, h]
  have hwire : (handlerOf (fun _ => some hiFile) (fun _ => some 1) (fun _ => some 4096)
      hiPath.bytes Sock.new).wire = okHeader 2 ++ ascii "hi" := by decide +kernel
  obtain ⟨b', hserve⟩ := serve_request (handlerOf content fun _ => some 1) [] hiPath
    (fun _ => some 4096) (rfl : gfserverServe _ [] readDataInit = .ok ([], readDataInit))
  refine ⟨hiPath, _, _, [], [], _, b', rfl, hserve, ?_, ?_⟩
  · intro f hf
    obtain rfl : hiFile = f := Option.some.inj (h.symm.trans hf)
    exact .inl (by decide +kernel)
  · rw [hhandler, hwire]
    exact List.prefix_rfl

/-- The client saves the file. -/
theorem saves_hi {content : Content} (h : content (ascii "/a") = some hiFile) :
    Saves content hiRound.req_path hiRound.recvs (ascii "hi") :=
  ⟨hiFile, h, .inl ⟨rfl, ⟨by decide, by decide, [], hiHeader, [hiBody], rfl, by decide +kernel,
    by decide +kernel, by decide +kernel, by decide +kernel⟩, rfl⟩⟩

/-- The run with this request does not crash. -/
theorem mainLoop_hi : ∃ files', mainLoop slashNames (ascii "localhost") 8080 [hiRound] 0 []
    (fun _ => none) = .ok (files', false) := by
  obtain ⟨p, reads, io, history, served, last, readData, hp, hserve, hframed, hnet⟩ :=
    @answered_hi (fun _ => some hiFile) rfl
  obtain rfl := last_of_serve hserve
  obtain ⟨o, log, hreq, -⟩ := (kept_iff_of_wire hframed hnet (ascii "localhost") 8080 2 .zeroed
    (ascii "hi")).mpr (@saves_hi (fun _ => some hiFile) rfl)
  rw [hp] at hreq
  have hopen : openFile slashNames hiRound.fopens (localName hiRound.req_path 0) [] =
      .ok ⟨(localName hiRound.req_path 0).bytes ++ [0], [], []⟩ := by
    have hancestors : ancestors (localName hiRound.req_path 0).bytes 0 = [] := by decide +kernel
    rw [openFile, beforeFopen,
      openLoop_eq (localName hiRound.req_path 0).noNul 0 (by decide +kernel), hancestors]
    rfl
  have hreq' : request hiRound.junk (downloadConfig (ascii "localhost") hiRound.req_path.bytes 8080
      hiRound.file) hiRound.recvs = .ok (o, log) := hreq
  rw [mainLoop, if_neg (by decide)]
  dsimp only
  rw [hopen]
  dsimp only
  rw [hreq']
  exact ⟨_, rfl⟩

def hiTarget : List Byte × List Byte := slashNames.file (ascii "a-000000")

theorem hiRound_target : hiRound.target slashNames 0 = hiTarget := by decide +kernel

/-- Behind a run with this request there is the file. -/
theorem downloads_saved_hi :
    ∃ files', mainLoop slashNames (ascii "localhost") 8080 [hiRound] 0 [] (fun _ => none) =
        .ok (files', false) ∧
      files' hiTarget = some (ascii "hi") := by
  obtain ⟨files', hrun⟩ := mainLoop_hi
  obtain ⟨made, -, hall, hsaved, -⟩ := downloads_saved slashNames
    (fun _ => some hiFile) (ascii "localhost") 8080 [hiRound] [] (fun _ => none) files' false
    (by decide) hrun fun r hr _ => by
      rw [List.mem_singleton.mp hr]
      exact answered_hi rfl
  obtain rfl : made = 1 := hall rfl
  rw [← hiRound_target]
  exact ⟨files', hrun, ((hsaved 0 hiRound Nat.zero_lt_one rfl).1 rfl _).mpr (saves_hi rfl)⟩

end IntroOS.Session
