import IntroOS.Gfserver.Model

/-!
# The transfer of a file

The loop of `handler_get`, with what it does to the socket, call by call. What `pread` delivers
at an offset is an argument, so that it covers files that stay as they are and files that
change. No offset comes twice, since each round goes on by at least one byte.

Main results:

* `handlerLoop_eq`: for a file that stays as it is, this is the loop of the model.
* `transferLoop_ends`: the two ways in which the loop ends.
* `transferLoop_moments`: at every moment, the socket has accepted a prefix of what it was given.
* `handlerGet_truthful`: what `handler_get` sends of a file that stays as it is, and what it
  returns.
-/

namespace IntroOS.Gfserver

open CString

/-! ## Writing and reading -/

section Write

variable {io : WriteResults} {s : Sock} {data : List Byte}

/-- The number of bytes that the `n`-th call of `write` accepts at most. -/
def accepts (io : WriteResults) (n : ℕ) : ℕ := (io n).getD 0

theorem write_wire (hs : s.closed = false) :
    (write io s data).2.wire = s.wire ++ data.take (accepts io s.calls) ∧
      (write io s data).2.closed = false ∧ (write io s data).2.calls = s.calls + 1 := by
  unfold write accepts
  cases h : io s.calls with
  | none => exact ⟨by simp [hs], by simp only [hs]; exact hs, by simp [hs]⟩
  | some k => exact ⟨by simp [hs], by simp only [hs]; exact hs, by simp [hs]⟩

/-- `write` returns the length of the data only if it has accepted all of it. -/
theorem write_all (hs : s.closed = false) (h : (write io s data).1 = data.length) :
    (write io s data).2.wire = s.wire ++ data := by
  rw [(write_wire hs).1]
  have hle : data.length ≤ accepts io s.calls := by
    unfold write at h
    unfold accepts
    cases hio : io s.calls with
    | none => simp [hs, hio] at h
    | some k => simp [hs, hio] at h; simpa using h
  rw [List.take_of_length_le hle]

/-- A prefix, and behind it a prefix of what remains. -/
theorem prefix_append_of_drop {u v w : List Byte} (hu : u <+: w) (hv : v <+: w.drop u.length) :
    u ++ v <+: w := by
  obtain ⟨m, rfl⟩ := hu
  rw [List.drop_left] at hv
  exact (List.prefix_append_right_inj u).mpr hv

theorem pread_drop (reads : ReadResults) (file : List Byte) (off : ℕ) :
    pread reads file off <+: file.drop off :=
  (List.take_prefix _ _).trans (List.take_prefix _ _)

/-- `write` returns the length of its data exactly if it accepts all of them. -/
theorem write_complete_iff (hs : s.closed = false) (hne : data ≠ []) :
    (write io s data).1 = data.length ↔ data.length ≤ accepts io s.calls := by
  have hpos := List.length_pos_of_ne_nil hne
  unfold write accepts
  cases io s.calls with
  | none => simp [hs]; omega
  | some k => simp [hs]

end Write

/-! ## The loop and its calls -/

/-- What `handler_get` does to the socket behind the header. -/
inductive SockCall
  | gfsSend (data : List Byte)
  | gfsAbort
  deriving DecidableEq, Repr

/-- The socket after a call. -/
def SockCall.apply (io : WriteResults) (s : Sock) : SockCall → Sock
  | gfsSend data => (Gfserver.gfsSend io s data).2
  | gfsAbort => Gfserver.gfsAbort s

/-- What a call gives to the socket. -/
def SockCall.data : SockCall → List Byte
  | gfsSend data => data
  | gfsAbort => []

/-- The socket after some calls. -/
def afterCalls (io : WriteResults) (s : Sock) (calls : List SockCall) : Sock :=
  calls.foldl (SockCall.apply io) s

/-- What some calls give to the socket. -/
def offered (calls : List SockCall) : List Byte := calls.flatMap SockCall.data

/-- The loop of `handler_get` (`handler.c`, lines 29–43) over the results of `pread`: its value
    and its calls. -/
def transferLoop (data : ℕ → List Byte) (io : WriteResults) (fileLen bytesTransferred : ℕ)
    (s : Sock) : ℤ × List SockCall :=
  if bytesTransferred < fileLen then
    let buffer := data bytesTransferred
    if buffer.length ≤ 0 then (-1, [.gfsAbort])
    else
      let r := gfsSend io s buffer
      if r.1 ≠ buffer.length then (-1, [.gfsSend buffer, .gfsAbort])
      else
        let rest := transferLoop data io fileLen (bytesTransferred + buffer.length) r.2
        (rest.1, .gfsSend buffer :: rest.2)
  else (bytesTransferred, [])
termination_by fileLen - bytesTransferred
decreasing_by
  have hpos : ¬ (data bytesTransferred).length ≤ 0 := ‹_›
  omega

/-- Every chunk is accepted completely. -/
def AcceptedAll (io : WriteResults) : Sock → List (List Byte) → Prop
  | _, [] => True
  | s, chunk :: chunks =>
    (gfsSend io s chunk).1 = chunk.length ∧ AcceptedAll io (gfsSend io s chunk).2 chunks

section Calls

variable {io : WriteResults} {s : Sock} {calls : List SockCall} {data : List Byte}
  {chunks : List (List Byte)}

@[simp] theorem afterCalls_nil : afterCalls io s [] = s := rfl

@[simp] theorem afterCalls_send :
    afterCalls io s (.gfsSend data :: calls) = afterCalls io (gfsSend io s data).2 calls := rfl

@[simp] theorem afterCalls_abort :
    afterCalls io s (.gfsAbort :: calls) = afterCalls io (gfsAbort s) calls := rfl

@[simp] theorem offered_nil : offered [] = [] := rfl

@[simp] theorem offered_send : offered (.gfsSend data :: calls) = data ++ offered calls := rfl

@[simp] theorem offered_abort : offered (.gfsAbort :: calls) = offered calls := rfl

theorem offered_sends (chunks : List (List Byte)) (calls : List SockCall) :
    offered (chunks.map .gfsSend ++ calls) = chunks.flatten ++ offered calls := by
  induction chunks with
  | nil => rfl
  | cons chunk chunks ih =>
    rw [List.map_cons, List.cons_append, offered_send, ih, List.flatten_cons, List.append_assoc]

/-- `gfs_send` puts a prefix of its data on the connection; its value tells whether that is all. -/
theorem gfsSend_wire (io : WriteResults) (s : Sock) (data : List Byte) :
    ∃ u, u <+: data ∧ (gfsSend io s data).2.wire = s.wire ++ u ∧
      ((gfsSend io s data).1 = data.length → u = data) ∧
      (data ≠ [] → (gfsSend io s data).1 ≠ data.length → u ≠ data) := by
  cases hs : s.closed with
  | true =>
    refine ⟨[], List.nil_prefix, by simp [gfsSend, write, hs], fun h => ?_, fun hne _ => hne.symm⟩
    have hval : (gfsSend io s data).1 = -1 := by simp [gfsSend, write, hs]
    omega
  | false =>
    refine ⟨data.take (accepts io s.calls), List.take_prefix _ _, (write_wire hs).1, fun h => ?_,
      fun hne hshort htake => hshort ?_⟩
    · have hall := (write_wire hs).1.symm.trans (write_all hs h)
      exact List.append_cancel_left hall
    · exact (write_complete_iff hs hne).mpr ((List.take_eq_self_iff data).mp htake)

theorem gfsAbort_wire (s : Sock) : (gfsAbort s).wire = s.wire := rfl

theorem afterCalls_append (calls rest : List SockCall) :
    afterCalls io s (calls ++ rest) = afterCalls io (afterCalls io s calls) rest :=
  List.foldl_append

/-- Nothing is taken back from a connection. -/
theorem afterCalls_wire_prefix (io : WriteResults) (s : Sock) (calls : List SockCall) :
    s.wire <+: (afterCalls io s calls).wire := by
  induction calls generalizing s with
  | nil => exact List.prefix_refl _
  | cons call calls ih =>
    cases call with
    | gfsSend data =>
      obtain ⟨u, -, hwire, -⟩ := gfsSend_wire io s data
      exact (List.prefix_append s.wire u).trans (hwire ▸ ih (gfsSend io s data).2)
    | gfsAbort => exact ih (gfsAbort s)

theorem AcceptedAll.wire (h : AcceptedAll io s chunks) :
    (afterCalls io s (chunks.map .gfsSend)).wire = s.wire ++ chunks.flatten := by
  induction chunks generalizing s with
  | nil => simp
  | cons chunk chunks ih =>
    obtain ⟨u, -, hwire, hall, -⟩ := gfsSend_wire io s chunk
    rw [List.map_cons, afterCalls_send, ih h.2, hwire, hall h.1, List.flatten_cons,
      List.append_assoc]

end Calls

/-! ## Every moment of a transfer -/

/-- At every moment, the socket has accepted a prefix of what it was given. -/
def Moments (io : WriteResults) (s : Sock) (calls : List SockCall) : Prop :=
  ∀ pre, pre <+: calls → ∃ u, u <+: offered calls ∧ (afterCalls io s pre).wire = s.wire ++ u

section Moments

variable {io : WriteResults} {s : Sock} {calls : List SockCall} {data : List Byte}

theorem moments_nil (io : WriteResults) (s : Sock) : Moments io s [] := by
  intro pre hpre
  rw [List.prefix_nil.mp hpre]
  exact ⟨[], List.nil_prefix, by simp⟩

/-- `gfs_abort` at the end. -/
theorem moments_abort (io : WriteResults) (s : Sock) : Moments io s [.gfsAbort] := by
  intro pre hpre
  rcases List.prefix_cons_iff.mp hpre with rfl | ⟨rest, rfl, hrest⟩
  · exact ⟨[], List.nil_prefix, by simp⟩
  · rw [List.prefix_nil.mp hrest]
    exact ⟨[], List.nil_prefix, by simp [gfsAbort_wire]⟩

/-- `gfs_send` of the last data, and `gfs_abort`. -/
theorem moments_last (io : WriteResults) (s : Sock) (data : List Byte) :
    Moments io s [.gfsSend data, .gfsAbort] := by
  intro pre hpre
  rcases List.prefix_cons_iff.mp hpre with rfl | ⟨rest, rfl, hrest⟩
  · exact ⟨[], List.nil_prefix, by simp⟩
  · obtain ⟨u, hu, hwire, -⟩ := gfsSend_wire io s data
    obtain ⟨v, hv, hend⟩ := moments_abort io (gfsSend io s data).2 rest hrest
    rw [offered_abort, offered_nil, List.prefix_nil] at hv
    refine ⟨u, by simpa using hu, ?_⟩
    rw [afterCalls_send, hend, hwire, hv, List.append_nil]

/-- A `gfs_send` that is complete, and the rest. -/
theorem moments_send (hfull : (gfsSend io s data).1 = data.length)
    (h : Moments io (gfsSend io s data).2 calls) : Moments io s (.gfsSend data :: calls) := by
  intro pre hpre
  rcases List.prefix_cons_iff.mp hpre with rfl | ⟨rest, rfl, hrest⟩
  · exact ⟨[], List.nil_prefix, by simp⟩
  · obtain ⟨u, -, hwire, hall, -⟩ := gfsSend_wire io s data
    obtain ⟨v, hv, hend⟩ := h rest hrest
    refine ⟨data ++ v, (List.prefix_append_right_inj _).mpr hv, ?_⟩
    rw [afterCalls_send, hend, hwire, hall hfull, List.append_assoc]

end Moments

/-! ## The loop -/

section Loop

variable {data : ℕ → List Byte} {io : WriteResults} {fileLen off : ℕ} {s : Sock}

theorem transferLoop_moments (data : ℕ → List Byte) (io : WriteResults) (fileLen off : ℕ)
    (s : Sock) : Moments io s (transferLoop data io fileLen off s).2 := by
  fun_induction transferLoop data io fileLen off s with
  | case1 off s hlt buffer hzero => exact moments_abort io s
  | case2 off s hlt buffer hpos r hshort => exact moments_last io s buffer
  | case3 off s hlt buffer hpos r hfull rest ih => exact moments_send (not_not.mp hfull) ih
  | case4 off s hge => exact moments_nil io s

/-- How the loop ends: behind the announced length after complete calls of `gfs_send`, or with
    `gfs_abort`, when `pread` has delivered nothing or `gfs_send` was short. -/
theorem transferLoop_ends (data : ℕ → List Byte) (io : WriteResults) (fileLen off : ℕ) (s : Sock) :
    (∃ chunks : List (List Byte),
      transferLoop data io fileLen off s =
          (((off + chunks.flatten.length : ℕ) : ℤ), chunks.map .gfsSend) ∧
        AcceptedAll io s chunks ∧ fileLen ≤ off + chunks.flatten.length) ∨
    ∃ (chunks : List (List Byte)) (u : List Byte),
      transferLoop data io fileLen off s = (-1, chunks.map .gfsSend ++ [.gfsAbort]) ∧
        u <+: chunks.flatten ∧
        (afterCalls io s (chunks.map .gfsSend ++ [.gfsAbort])).wire = s.wire ++ u ∧
        (u = chunks.flatten → off + u.length < fileLen) := by
  fun_induction transferLoop data io fileLen off s with
  | case1 off s hlt buffer hzero =>
    exact Or.inr ⟨[], [], rfl, List.nil_prefix, by simp [gfsAbort_wire], fun _ => hlt⟩
  | case2 off s hlt buffer hpos r hshort =>
    have hne : buffer ≠ [] := fun h => hpos (by rw [h]; rfl)
    obtain ⟨u, hu, hwire, -, hpart⟩ := gfsSend_wire io s buffer
    refine Or.inr ⟨[buffer], u, rfl, by simpa using hu, ?_, fun hall => ?_⟩
    · simpa [gfsAbort_wire] using hwire
    · exact absurd (by simpa using hall) (hpart hne hshort)
  | case3 off s hlt buffer hpos r hfull rest ih =>
    obtain ⟨u, -, hwire, hall, -⟩ := gfsSend_wire io s buffer
    rw [hall (not_not.mp hfull)] at hwire
    rcases ih with ⟨chunks, heq, hacc, hend⟩ | ⟨chunks, v, heq, hv, hrest, hmore⟩
    · refine Or.inl ⟨buffer :: chunks, ?_, ⟨not_not.mp hfull, hacc⟩, ?_⟩
      · simp only [rest, heq, List.flatten_cons, List.length_append, List.map_cons, Nat.add_assoc]
      · rw [List.flatten_cons, List.length_append]
        omega
    · refine Or.inr ⟨buffer :: chunks, buffer ++ v, ?_, ?_, ?_, fun hv' => ?_⟩
      · simp only [rest, heq, List.map_cons, List.cons_append]
      · exact (List.prefix_append_right_inj _).mpr hv
      · rw [List.map_cons, List.cons_append, afterCalls_send, hrest, hwire, List.append_assoc]
      · have := hmore (List.append_cancel_left hv')
        rw [List.length_append]
        omega
  | case4 off s hge => exact Or.inl ⟨[], by simp, trivial, by simpa using hge⟩

end Loop

/-! ## A file that stays as it is -/

/-- For a file that stays as it is, this is the loop of the model. -/
theorem handlerLoop_eq (reads : ReadResults) (io : WriteResults) (file : List Byte) (off : ℕ)
    (s : Sock) :
    handlerLoop reads io file off s =
      ((transferLoop (pread reads file) io file.length off s).1,
        afterCalls io s (transferLoop (pread reads file) io file.length off s).2) := by
  fun_induction handlerLoop reads io file off s with
  | case1 off s hlt buffer hzero =>
    rw [transferLoop, if_pos hlt, if_pos hzero]
    rfl
  | case2 off s hlt buffer hpos r hshort =>
    rw [transferLoop, if_pos hlt, if_neg hpos, if_pos hshort]
    rfl
  | case3 off s hlt buffer hpos r hfull ih =>
    rw [transferLoop, if_pos hlt, if_neg hpos, if_neg hfull, ih]
    rfl
  | case4 off s hge =>
    rw [transferLoop, if_neg hge]
    rfl

/-- What is given to the socket is a part of the file, from where the transfer is. -/
theorem transferLoop_offered (reads : ReadResults) (io : WriteResults) (file : List Byte) (off : ℕ)
    (s : Sock) :
    offered (transferLoop (pread reads file) io file.length off s).2 <+: file.drop off := by
  generalize hdata : pread reads file = data
  fun_induction transferLoop data io file.length off s with
  | case1 off s hlt buffer hzero => exact List.nil_prefix
  | case2 off s hlt buffer hpos r hshort =>
    rw [offered_send, offered_abort, offered_nil, List.append_nil]
    simp only [buffer, ← hdata]
    exact pread_drop reads file off
  | case3 off s hlt buffer hpos r hfull rest ih =>
    have hpre : buffer <+: file.drop off := by
      simp only [buffer, ← hdata]
      exact pread_drop reads file off
    rw [← List.drop_drop] at ih
    exact prefix_append_of_drop hpre ih
  | case4 off s hge => exact List.nil_prefix

/-- What is right about a transfer of `file` that starts with the socket `s`, makes `calls` and
    returns `value`. -/
structure Truthful (io : WriteResults) (s : Sock) (file : List Byte) (value : ℤ)
    (calls : List SockCall) : Prop where
  /-- at every moment, the socket has accepted a prefix of the file -/
  moments : ∀ pre, pre <+: calls → ∃ u, u <+: file ∧ (afterCalls io s pre).wire = s.wire ++ u
  /-- the value tells whether all of the file has been accepted -/
  whole : value = file.length ↔ (afterCalls io s calls).wire = s.wire ++ file
  /-- then it has been accepted chunk by chunk -/
  chunks : value = file.length → ∃ chunks : List (List Byte),
    calls = chunks.map .gfsSend ∧ AcceptedAll io s chunks ∧ chunks.flatten = file
  /-- otherwise there is one `gfs_abort`, and nothing behind it -/
  failed : value ≠ file.length → value = -1 ∧ ∃ chunks : List (List Byte),
    calls = chunks.map .gfsSend ++ [.gfsAbort]

theorem transferLoop_truthful (reads : ReadResults) (io : WriteResults) (file : List Byte)
    (s : Sock) :
    Truthful io s file (transferLoop (pread reads file) io file.length 0 s).1
      (transferLoop (pread reads file) io file.length 0 s).2 := by
  have hoffered := transferLoop_offered reads io file 0 s
  rw [List.drop_zero] at hoffered
  have hmoments : ∀ pre, pre <+: (transferLoop (pread reads file) io file.length 0 s).2 →
      ∃ u, u <+: file ∧ (afterCalls io s pre).wire = s.wire ++ u := by
    intro pre hpre
    obtain ⟨u, hu, hwire⟩ := transferLoop_moments (pread reads file) io file.length 0 s pre hpre
    exact ⟨u, hu.trans hoffered, hwire⟩
  rcases transferLoop_ends (pread reads file) io file.length 0 s with
    ⟨chunks, heq, hacc, hend⟩ | ⟨chunks, u, heq, hu, hwire, hmore⟩
  · rw [heq] at hoffered hmoments ⊢
    have hfile : chunks.flatten = file := by
      have hpre := offered_sends chunks []
      rw [List.append_nil, offered_nil, List.append_nil] at hpre
      rw [hpre] at hoffered
      exact hoffered.eq_of_length_le (by omega)
    refine ⟨hmoments, ?_, fun _ => ⟨chunks, rfl, hacc, hfile⟩, fun hne => absurd ?_ hne⟩
    · rw [hacc.wire, hfile]
      exact iff_of_true (by simp) rfl
    · rw [hfile, Nat.zero_add]
  · rw [heq] at hoffered hmoments ⊢
    have hpre : chunks.flatten <+: file := by
      rw [offered_sends, offered_abort, offered_nil, List.append_nil] at hoffered
      exact hoffered
    have hneg : ¬ (-1 : ℤ) = file.length := by omega
    refine ⟨hmoments, iff_of_false hneg fun hall => ?_, fun h => absurd h hneg,
      fun _ => ⟨rfl, chunks, rfl⟩⟩
    -- all of the file is more than `gfs_send` has been given, or a call was short
    obtain rfl : u = file := List.append_cancel_left (hwire.symm.trans hall)
    have hlt := hmore (hu.eq_of_length_le hpre.length_le)
    omega

/-- What `handler_get` sends of a known file that stays as it is, and what it returns, for all
    results of `pread` and of `gfs_send`. -/
theorem handlerGet_truthful (content : Content) (reads : ReadResults) (io : WriteResults)
    (path : List Byte) (s : Sock) {file : File} (h : content path = some file) :
    let sent := (gfsSendheader io s .ok (sizeT file.bytes.length)).2
    let run := transferLoop (pread reads file.bytes) io file.bytes.length 0 sent
    handlerGet content reads io path s = (run.1, afterCalls io sent run.2) ∧
      Truthful io sent file.bytes run.1 run.2 := by
  refine ⟨?_, transferLoop_truthful reads io file.bytes _⟩
  simp only [handlerGet, h]
  exact handlerLoop_eq reads io file.bytes 0 _

/-- A file of two bytes, of which `pread` delivers one at a time. -/
theorem handlerGet_truthful_hi :
    (handlerGet (fun _ => some ⟨ascii "hi", by decide⟩) (fun _ => some 1) (fun _ => some 4096)
      (ascii "/hi") Sock.new).2.wire = okHeader 2 ++ ascii "hi" := by
  obtain ⟨heq, htruthful⟩ := handlerGet_truthful (fun _ => some ⟨ascii "hi", by decide⟩)
    (fun _ => some 1) (fun _ => some 4096) (ascii "/hi") Sock.new rfl
  have hheader : (gfsSendheader (fun _ => some 4096) Sock.new .ok
      (sizeT (ascii "hi").length)).2.wire = okHeader 2 := by decide +kernel
  rw [heq]
  exact (htruthful.whole.mp (by decide +kernel)).trans (congrArg (· ++ ascii "hi") hheader)

end IntroOS.Gfserver
