import IntroOS.Gfserver.Lifecycle

/-!
# Short writes

`write` may accept fewer bytes than it is given, and the interface promises for `gfs_send` that
"it returns once the data has been sent" (`gfserver.h`, lines 70–76). But `gfs_send` calls
`write` once, and `handler_get` gives up when a chunk has not been accepted completely.

Main results:

* `handlerGet_value_iff`: the value tells whether the transfer has failed.
* `sentWhole_iff`: the file is sent whole exactly if no `pread` fails and no `write` of a chunk is
  short.
* `short_write_loses`: one short `write`, and the rest of the file is not sent.
-/

namespace IntroOS.Gfserver

open CString

/-- What the interface promises about a transfer of `file` that starts with the socket `s`, makes
    `calls` and returns `value`. -/
structure SentWhole (io : WriteResults) (s : Sock) (file : List Byte) (value : ℤ)
    (calls : List SockCall) : Prop where
  /-- `gfs_send` returns when all its data has been written -/
  sends : ∀ pre data post, calls = pre ++ .gfsSend data :: post →
    (afterCalls io s (pre ++ [.gfsSend data])).wire = (afterCalls io s pre).wire ++ data
  /-- all of the file has been written -/
  wire : (afterCalls io s calls).wire = s.wire ++ file
  /-- the value is its length -/
  value_eq : value = file.length

/-- `pread` delivers something wherever the transfer calls it. -/
def ReadsDeliver (reads : ReadResults) (file : List Byte) : Prop :=
  ∀ k, transferOffset reads file 0 k < file.length →
    pread reads file (transferOffset reads file 0 k) ≠ []

/-- No chunk of the file is given to a `write` that accepts less. The header has been the first
    `write`. -/
def NoShortWrite (reads : ReadResults) (io : WriteResults) (file : List Byte) : Prop :=
  ∀ k, transferOffset reads file 0 k < file.length →
    (pread reads file (transferOffset reads file 0 k)).length ≤ accepts io (1 + k)

section Calls

variable {io : WriteResults} {s : Sock} {file : List Byte} {chunks : List (List Byte)}
  {reads : ReadResults}

theorem acceptedAll_append (cs ds : List (List Byte)) :
    AcceptedAll io s (cs ++ ds) ↔
      AcceptedAll io s cs ∧ AcceptedAll io (afterCalls io s (cs.map .gfsSend)) ds := by
  induction cs generalizing s with
  | nil => exact (and_iff_right trivial).symm
  | cons c cs ih =>
    rw [List.cons_append, AcceptedAll, AcceptedAll, ih, List.map_cons, afterCalls_send, and_assoc]

/-- Among calls that are all accepted completely, each puts its data on the connection. -/
theorem AcceptedAll.sends (h : AcceptedAll io s chunks) {pre post : List SockCall}
    {data : List Byte} (heq : chunks.map .gfsSend = pre ++ .gfsSend data :: post) :
    (afterCalls io s (pre ++ [.gfsSend data])).wire = (afterCalls io s pre).wire ++ data := by
  obtain ⟨cs, ds, rfl, hpre, hpost⟩ := List.map_eq_append_iff.mp heq
  obtain ⟨d, ds, rfl, hdata, -⟩ := List.map_eq_cons_iff.mp hpost
  cases hdata
  have hthis := ((acceptedAll_append cs (data :: ds)).mp h).2.1
  rw [hpre] at hthis
  obtain ⟨u, -, hwire, hall, -⟩ := gfsSend_wire io (afterCalls io s pre) data
  rw [afterCalls_append, afterCalls_send, afterCalls_nil, hwire, hall hthis]

theorem afterCalls_sends_closes (chunks : List (List Byte)) (s : Sock) :
    (afterCalls io s (chunks.map .gfsSend)).closes = s.closes := by
  induction chunks generalizing s with
  | nil => rfl
  | cons chunk chunks ih =>
    rw [List.map_cons, afterCalls_send, ih, gfsSend, write_closes]

/-- The value tells whether the transfer has failed. -/
theorem transferLoop_value_iff (hs : s.closes = 0) :
    (transferLoop (pread reads file) io file.length 0 s).1 = file.length ↔
      ¬ TransferFails reads io file 0 s.calls := by
  have htruthful := transferLoop_truthful reads io file s
  have hcloses := (handlerLoop_closes reads io file 0 s hs).2
  rw [handlerLoop_eq] at hcloses
  rw [← hcloses]
  constructor
  · intro hvalue
    obtain ⟨chunks, heq, -⟩ := htruthful.chunks hvalue
    rw [heq, afterCalls_sends_closes, hs]
    decide
  · intro hopen
    by_contra hvalue
    obtain ⟨-, chunks, heq⟩ := htruthful.failed hvalue
    apply hopen
    rw [heq, afterCalls_append, afterCalls_abort, afterCalls_nil, gfsAbort,
      afterCalls_sends_closes, hs]

/-- A transfer fails by a `pread` or by a short `write`. -/
theorem not_transferFails_iff :
    ¬ TransferFails reads io file 0 1 ↔ ReadsDeliver reads file ∧ NoShortWrite reads io file := by
  constructor
  · intro h
    refine ⟨fun k hk hnil => h ⟨k, hk, Or.inl hnil⟩, fun k hk => ?_⟩
    by_contra hshort
    exact h ⟨k, hk, Or.inr (not_le.mp hshort)⟩
  · rintro ⟨hreads, hwrites⟩ ⟨k, hk, hnil | hshort⟩
    · exact hreads k hk hnil
    · exact absurd (hwrites k hk) (not_le.mpr hshort)

end Calls

/-- What `handler_get` returns for a known file, and whether its transfer has failed. -/
theorem handlerGet_value_iff (content : Content) (reads : ReadResults) (io : WriteResults)
    (path : List Byte) {file : File} (h : content path = some file) :
    (handlerGet content reads io path Sock.new).1 = file.bytes.length ↔
      ¬ TransferFails reads io file.bytes 0 1 := by
  have hopen : (gfsSendheader io Sock.new .ok (sizeT file.bytes.length)).2.closes = 0 :=
    write_closes io Sock.new _
  have hcalls : (gfsSendheader io Sock.new .ok (sizeT file.bytes.length)).2.calls = 1 :=
    (write_wire rfl).2.2
  rw [(handlerGet_truthful content reads io path Sock.new h).1, ← hcalls]
  exact transferLoop_value_iff hopen

/-- A known file is sent whole exactly if every `pread` delivers something and no `write` of one
    of its chunks is short. -/
theorem sentWhole_iff (content : Content) (reads : ReadResults) (io : WriteResults)
    (path : List Byte) (file : File) (h : content path = some file) :
    let sent := (gfsSendheader io Sock.new .ok (sizeT file.bytes.length)).2
    let run := transferLoop (pread reads file.bytes) io file.bytes.length 0 sent
    handlerGet content reads io path Sock.new = (run.1, afterCalls io sent run.2) ∧
      (SentWhole io sent file.bytes run.1 run.2 ↔
        ReadsDeliver reads file.bytes ∧ NoShortWrite reads io file.bytes) := by
  obtain ⟨heq, htruthful⟩ := handlerGet_truthful content reads io path Sock.new h
  have hvalue := handlerGet_value_iff content reads io path h
  rw [heq, not_transferFails_iff] at hvalue
  refine ⟨heq, fun hwhole => hvalue.mp hwhole.value_eq, fun hno => ?_⟩
  have hlen := hvalue.mpr hno
  obtain ⟨chunks, hcalls, hacc, -⟩ := htruthful.chunks hlen
  refine ⟨fun pre data post hsplit => ?_, htruthful.whole.mp hlen, hlen⟩
  exact hacc.sends (hcalls.symm.trans hsplit)

/-- A file of two bytes, of which `pread` delivers one at a time, and a connection that accepts
    one byte at a time behind the header. -/
theorem sentWhole_iff_bytewise :
    (handlerGet (fun _ => some ⟨ascii "ab", by decide⟩) (fun _ => some 1)
      (fun n => some (if n = 0 then 4096 else 1)) (ascii "/a") Sock.new).1 = 2 := by
  obtain ⟨heq, hiff⟩ := sentWhole_iff (fun _ => some ⟨ascii "ab", by decide⟩) (fun _ => some 1)
    (fun n => some (if n = 0 then 4096 else 1)) (ascii "/a") ⟨ascii "ab", by decide⟩ rfl
  have hreads : ∀ off < 2, pread (fun _ => some 1) (ascii "ab") off ≠ [] := by decide
  rw [heq]
  refine (hiff.mpr ⟨fun k hk => hreads _ hk, fun k _ => ?_⟩).value_eq
  rw [accepts, if_neg (by omega)]
  exact (List.length_take_le _ _)

/-- The first chunk is accepted but for one byte. -/
theorem short_write_loses :
    ¬ ∀ (content : Content) (reads : ReadResults) (io : WriteResults) (path : List Byte)
      (file : File), content path = some file →
      (∀ off < file.bytes.length, pread reads file.bytes off ≠ []) →
      (∀ n, ∃ k, 0 < k ∧ io n = some k) →
      let sent := (gfsSendheader io Sock.new .ok (sizeT file.bytes.length)).2
      let run := transferLoop (pread reads file.bytes) io file.bytes.length 0 sent
      SentWhole io sent file.bytes run.1 run.2 := by
  intro h
  have hwhole := h (fun _ => some ⟨ascii "ab", by decide⟩) (fun _ => some 4096)
    (fun n => some (if n = 0 then 4096 else 1)) (ascii "/a") ⟨ascii "ab", by decide⟩ rfl
    (by decide) (fun n => ⟨_, by split_ifs <;> decide, rfl⟩)
  exact absurd hwhole.value_eq (by decide +kernel)

end IntroOS.Gfserver
