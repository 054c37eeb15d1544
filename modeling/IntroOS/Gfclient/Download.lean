import IntroOS.Gfclient.Phases

/-!
# The download loop

One iteration of the loop of `main` (`pr1/gflib/gfclient_download.c`, lines 137–175): the
local file is opened, the request is performed with `writecb`, and the file is removed if
`gfc_perform` fails or the status is not OK.

Main results:

* `header_balanced`: over a whole run, the bytes given to the write callback are counted
  right, whatever the peer sends.
* `download_survives`: a file that is still there has the announced size.
-/

namespace IntroOS.Gfclient

open CString Concurrency

/-- `writecb` on the local file: the data of each call is appended. -/
def writecbFile (file : VoidPtr) (content : List Byte) : Event → List Byte
  | .write f data arg => if f = writecb ∧ arg = some file then content ++ data else content
  | _ => content

/-- The local file behind an iteration (lines 147–171); `none` if it has been removed.
    `openFile` truncates it, `fwrite` writes everything and `unlink` succeeds. -/
def localFile (file : VoidPtr) (o : Outcome) (log : List Event) : Option (List Byte) :=
  let content := some (log.foldl (writecbFile file) [])
  let content := if 0 > o.ret then none else content
  if o.status ≠ .ok then none else content

/-! ## The bytes that are written -/

section Lengths

variable {cfg : Config} {e : Ending} {cs : List Chunk} {l : StrLocals} {v v' : View} {ret : ℤ}

/-- The write callback is only called as registered. -/
def WritesOnly (cfg : Config) (log : List Event) : Prop :=
  ∀ f data arg, Event.write f data arg ∈ log → f = cfg.writefunc ∧ arg = cfg.writearg

theorem WritesOnly.append {log log' : List Event} (h : WritesOnly cfg log)
    (h' : WritesOnly cfg log') : WritesOnly cfg (log ++ log') := by
  intro f data arg hmem
  rcases List.mem_append.mp hmem with hmem | hmem
  · exact h f data arg hmem
  · exact h' f data arg hmem

theorem writesOnly_headCalls (cfg : Config) (data : List Byte) :
    WritesOnly cfg (cfg.headCalls data) := by
  intro f data' arg hmem
  unfold Config.headCalls at hmem
  split at hmem <;> simp at hmem

theorem writesOnly_map (cfg : Config) (datas : List (List Byte)) :
    WritesOnly cfg (datas.map cfg.writeCall) := by
  intro f data arg hmem
  obtain ⟨data', -, heq⟩ := List.mem_map.mp hmem
  cases heq
  exact ⟨rfl, rfl⟩

/-- What has been given to the write callback has been counted, and the rest of the stream
    does not make the count wrap around. -/
structure Counted (cfg : Config) (l : StrLocals) (v : View) (rest : ℕ) : Prop where
  written : (writes v.log).flatten.length = l.bytesReceivedFILE
  lt : l.bytesReceivedFILE + rest < 2 ^ 64
  only : WritesOnly cfg v.log

/-- The write callback has been given as many bytes as the caller is told. -/
structure View.Balanced (cfg : Config) (v : View) : Prop where
  written : (writes v.log).flatten.length = v.filelen
  received : v.bytesFileReceived = v.filelen
  only : WritesOnly cfg v.log

theorem body_balanced (hl : l.headercheck = true) (hc : Counted cfg l v (received cs).length)
    (h : perform cfg e cs l v = .ok (ret, v')) (hret : 0 ≤ ret) : v'.Balanced cfg := by
  rcases perform_body_inv hl h with rfl | ⟨-, cs₁, cs₂, rfl, -, hfile, rfl⟩
  · omega
  · have hlt := hc.lt
    rw [received_append, List.length_append] at hlt
    rw [sizeT_add (by omega)] at hfile
    refine ⟨?_, rfl, hc.only.append ?_⟩
    · simp only [View.afterChunks, writes_append, List.flatten_append, List.length_append,
        writes_map, hc.written, hfile]
    · simpa [Function.comp_def] using writesOnly_map cfg (cs₁.map Chunk.data)

/-- In the header phase nothing has been written. -/
theorem header_balanced (hl : l.headercheck = false) (hw : writes v.log = [])
    (hfile : l.bytesReceivedFILE = 0) (hlt : l.fullData.length + (received cs).length < 2 ^ 64)
    (honly : WritesOnly cfg v.log) (h : perform cfg e cs l v = .ok (ret, v')) (hret : 0 ≤ ret)
    (hok : v'.status = .ok) : v'.Balanced cfg := by
  induction cs generalizing l v with
  | nil =>
    obtain rfl := strRecvEnd_ret h
    omega
  | cons c cs ih =>
    obtain ⟨new, flow, hnew, hparse, hcont⟩ := perform_header_inv hl h
    have hlen := cstr_recvBuf_length hnew
    rw [received_cons, List.length_append] at hlt
    have hfull : (l.fullData ++ new).length + (received cs).length < 2 ^ 64 := by
      rw [List.length_append]
      omega
    rcases strParseHeader_cases hparse with ⟨_, rfl⟩ | ⟨_, rfl, hbad⟩ | ⟨s, rfl, -⟩ | ⟨n, rfl⟩ |
      ⟨filelen, data, hdata, rfl⟩
    · cases hcont
      omega
    · cases hcont
      exact absurd hok hbad
    · exact ih (l := l.recv c.data.length new)
        (v := { v with bytesreceived := sizeT (l.bytesReceivedTotal + c.data.length), status := s })
        hl hw hfile hfull honly hcont
    · refine body_balanced (l := { l.recv c.data.length new with headercheck := true }) rfl
        ⟨?_, ?_, ?_⟩ hcont hret
      · rw [hw]
        exact hfile.symm
      · simp only [StrLocals.recv, hfile]
        omega
      · exact honly
    · -- the body bytes that came with the header
      simp only [StrLocals.recv] at hdata
      have hdata64 : sizeT ((l.bytesReceivedFILE : ℤ) + data.length) = data.length := by
        rw [hfile, sizeT_add (by omega), Nat.zero_add]
      have hwritten : (writes (v.log ++ cfg.headCalls (okHeader filelen) ++
          [cfg.writeCall data])).flatten.length = data.length := by
        simp only [writes_append, writes_headCalls, hw, List.nil_append]
        exact congrArg List.length (List.append_nil data)
      have honly' : WritesOnly cfg (v.log ++ cfg.headCalls (okHeader filelen) ++
          [cfg.writeCall data]) :=
        (honly.append (writesOnly_headCalls cfg _)).append (writesOnly_map cfg [data])
      unfold strFirstData at hcont
      simp only [StrLocals.recv, hdata64] at hcont
      split_ifs at hcont with heq
      · cases hcont
        exact ⟨hwritten.trans heq, heq, honly'⟩
      · refine body_balanced rfl ⟨hwritten, ?_, honly'⟩ hcont hret
        simp only
        omega

end Lengths

/-- `writecb` puts the data of all calls into the file. -/
theorem foldl_writecbFile {server path : List Byte} {port : ℕ} {file : VoidPtr} {log : List Event}
    (h : WritesOnly (downloadConfig server path port file) log) (content : List Byte) :
    log.foldl (writecbFile file) content = content ++ (writes log).flatten := by
  induction log generalizing content with
  | nil => simp [writes]
  | cons e log ih =>
    rw [List.foldl_cons, ih fun f data arg hmem => h f data arg (List.mem_cons_of_mem e hmem)]
    cases e with
    | write f data arg =>
      have hcall : f = writecb ∧ arg = some file := h f data arg List.mem_cons_self
      simp [writecbFile, hcall, writes]
    | _ => rfl

/-- After a request that has not ended with a fault, a local file that is still there is the
    data of the write callback, `gfc_perform` has not failed, the status is OK, and the file
    has the length that the header announced and that the caller is told. -/
theorem download_survives (server path : List Byte) (port : ℕ) (file : VoidPtr)
    (junk : Gfcrequest) (rs : Recvs) (hlt : (received rs.chunks).length < 2 ^ 63) {o : Outcome}
    {log : List Event}
    (h : request junk (downloadConfig server path port file) rs = .ok (o, log))
    {content : List Byte} (hfile : localFile file o log = some content) :
    0 ≤ o.ret ∧ o.status = .ok ∧ content = (writes log).flatten ∧
      content.length = o.filelen ∧ content.length = o.bytesreceived := by
  unfold localFile at hfile
  dsimp only at hfile
  split_ifs at hfile with hstatus hret
  rw [request_eq] at h
  cases hp : performRequest (downloadConfig server path port file) rs ⟨0, 0⟩ with
  | error f => rw [hp] at h; cases h
  | ok b =>
    obtain ⟨ret, v⟩ := b
    rw [hp] at h
    cases h
    have hret' : 0 ≤ ret := by simpa [View.outcome] using hret
    have hok : v.status = .ok := by simpa [View.outcome] using hstatus
    have hbal : v.Balanced (downloadConfig server path port file) :=
      header_balanced rfl rfl rfl (by simpa using hlt.trans (by norm_num))
        (by intro f data arg hmem; simp [View.initial] at hmem) hp hret' hok
    rw [foldl_writecbFile hbal.only, List.nil_append, Option.some.injEq] at hfile
    subst hfile
    exact ⟨hret', hok, rfl, hbal.written, hbal.written.trans hbal.received.symm⟩

/-- A peer that sends the file "hi". -/
theorem download_survives_hi :
    (0 : ℤ) ≤ 0 ∧ GfStatus.ok = .ok ∧
      ascii "hi" = (writes [.created ⟨0, 0⟩, .sent (clientscheme (ascii "/a")),
        .write writecb (ascii "hi") (some 2)]).flatten ∧
      (ascii "hi").length = 2 ∧ (ascii "hi").length = 2 := by
  have hrun : request .zeroed (downloadConfig (ascii "localhost") (ascii "/a") 8080 2)
      ⟨[⟨ascii "GETFILE OK 2 \r\n\r\nhi", by decide, by decide⟩], .close⟩ =
      .ok (⟨0, .ok, 2, 2, 19⟩, [.created ⟨0, 0⟩, .sent (clientscheme (ascii "/a")),
        .write writecb (ascii "hi") (some 2)]) := by decide +kernel
  exact download_survives _ _ _ 2 _ _ (by decide) hrun (by decide +kernel)

end IntroOS.Gfclient
