import IntroOS.Gfserver.Transfer

/-!
# Files that change while they are sent

`handler_get` announces the size that `lseek` has found, and calls `pread` until it has sent as
many bytes or more. The last `pread` is not clipped to what is missing, so a file that grows
during the transfer is sent beyond the announced length.

Main results:

* `transferLoop_sent_le_iff`: when the loop sends no more than what was announced.
* `Clipped.of_le`: reads that stay in front of the announced length are enough.
* `keepsLength_iff`: the transfers that keep to the announced length.
-/

namespace IntroOS.Gfserver

open CString

/-- A file during a call of `handler_get`: the size that `lseek` finds, an `off_t`, and what
    `pread` delivers at each offset. -/
structure ChangingFile where
  fileLen : ℕ
  lt : fileLen < 2 ^ 63
  data : ℕ → List Byte
  le : ∀ off, (data off).length ≤ BUFSIZE

/-- A file that stays as it is. -/
def File.fixed (file : File) (reads : ReadResults) : ChangingFile where
  fileLen := file.bytes.length
  lt := file.lt
  data := pread reads file.bytes
  le := fun off => by
    unfold pread
    rw [List.length_take, List.length_take]
    exact (Nat.min_le_right _ _).trans (Nat.min_le_left _ _)

namespace ChangingFile

/-- A new connection behind `gfs_sendheader`. -/
def sent (f : ChangingFile) (io : WriteResults) : Sock :=
  (gfsSendheader io Sock.new .ok (sizeT f.fileLen)).2

/-- The value of `handler_get` on a new connection (lines 22–45), and its calls behind the
    header. -/
def run (f : ChangingFile) (io : WriteResults) : ℤ × List SockCall :=
  transferLoop f.data io f.fileLen 0 (f.sent io)

/-- The bytes that the socket has accepted behind the header, after some calls. -/
def body (f : ChangingFile) (io : WriteResults) (calls : List SockCall) : List Byte :=
  (afterCalls io (f.sent io) calls).wire.drop (f.sent io).wire.length

/-- Never more bytes than announced, and as many if the handler succeeds. -/
def KeepsLength (f : ChangingFile) (io : WriteResults) : Prop :=
  (∀ calls, calls <+: (f.run io).2 → (f.body io calls).length ≤ sizeT f.fileLen) ∧
    (0 ≤ (f.run io).1 → (f.body io (f.run io).2).length = sizeT f.fileLen)

end ChangingFile

/-- The loop comes from the offset `off` and the `n`-th call of `write` to the offset `o` and the
    `m`-th call: each round in between is complete. -/
inductive Reaches (data : ℕ → List Byte) (io : WriteResults) (fileLen : ℕ) : ℕ → ℕ → ℕ → ℕ → Prop
  | here {off n : ℕ} : Reaches data io fileLen off n off n
  | round {off n o m : ℕ} : off < fileLen → data off ≠ [] → (data off).length ≤ accepts io n →
      Reaches data io fileLen (off + (data off).length) (n + 1) o m → Reaches data io fileLen off n o m

/-- If `pread` delivers more than what is missing, `write` accepts no more than that. -/
def Clipped (data : ℕ → List Byte) (io : WriteResults) (fileLen off n : ℕ) : Prop :=
  ∀ o m, Reaches data io fileLen off n o m → o < fileLen → fileLen - o < (data o).length →
    accepts io m ≤ fileLen - o

section Loop

variable {data : ℕ → List Byte} {io : WriteResults} {fileLen off n : ℕ} {s : Sock}

/-- The loop comes no further than a round without data. -/
theorem clipped_of_nil (h : data off = []) : Clipped data io fileLen off n := by
  intro o m hreach hlt hmore
  cases hreach with
  | here => simp [h] at hmore
  | round _ hne _ _ => exact absurd h hne

/-- The loop comes no further than a short round. -/
theorem clipped_of_short (h : accepts io n < (data off).length) :
    Clipped data io fileLen off n ↔ off + accepts io n ≤ fileLen ∨ fileLen ≤ off := by
  constructor
  · intro hclipped
    by_contra hnot
    have := hclipped off n .here (by omega) (by omega)
    omega
  · intro hle o m hreach hlt hmore
    cases hreach with
    | here => omega
    | round _ _ hacc _ => omega

/-- A complete round. -/
theorem clipped_round (hlt : off < fileLen) (hne : data off ≠ [])
    (hacc : (data off).length ≤ accepts io n) :
    Clipped data io fileLen off n ↔ off + (data off).length ≤ fileLen ∧
      Clipped data io fileLen (off + (data off).length) (n + 1) := by
  constructor
  · intro h
    refine ⟨?_, fun o m hreach => h o m (.round hlt hne hacc hreach)⟩
    by_contra hmore
    have := h off n .here hlt (by omega)
    omega
  · rintro ⟨hle, h⟩ o m hreach hlt' hmore
    cases hreach with
    | here => omega
    | round _ _ _ hrest => exact h o m hrest hlt' hmore

/-- Reads that bring no more than what is missing. -/
theorem Clipped.of_le (h : ∀ o, o < fileLen → (data o).length ≤ fileLen - o) :
    Clipped data io fileLen off n := by
  intro o m _ hlt hmore
  exact absurd (h o hlt) (by omega)

/-- The loop sends no more than the announced length exactly if its reads are clipped. -/
theorem transferLoop_sent_le_iff (data : ℕ → List Byte) (io : WriteResults) (fileLen off : ℕ)
    (s : Sock) (hs : s.closed = false) (hoff : off ≤ fileLen) :
    off + (afterCalls io s (transferLoop data io fileLen off s).2).wire.length ≤
        fileLen + s.wire.length ↔
      Clipped data io fileLen off s.calls := by
  fun_induction transferLoop data io fileLen off s with
  | case1 off s hlt buffer hzero =>
    have hnil : data off = [] := List.length_eq_zero_iff.mp (Nat.le_zero.mp hzero)
    refine iff_of_true ?_ (clipped_of_nil hnil)
    rw [afterCalls_abort, afterCalls_nil, gfsAbort_wire]
    omega
  | case2 off s hlt buffer hpos r hshort =>
    have hne : buffer ≠ [] := fun h => hpos (by rw [h]; rfl)
    have hacc : accepts io s.calls < (data off).length :=
      not_le.mp fun h => hshort ((write_complete_iff hs hne).mpr h)
    have hwire : r.2.wire = s.wire ++ buffer.take (accepts io s.calls) := (write_wire hs).1
    have htake : (buffer.take (accepts io s.calls)).length = accepts io s.calls := by
      rw [List.length_take]
      exact Nat.min_eq_left hacc.le
    rw [clipped_of_short hacc, afterCalls_send, afterCalls_abort, afterCalls_nil, gfsAbort_wire,
      hwire, List.length_append, htake]
    omega
  | case3 off s hlt buffer hpos r hfull rest ih =>
    have hne : buffer ≠ [] := fun h => hpos (by rw [h]; rfl)
    have hacc := (write_complete_iff hs hne).mp (not_not.mp hfull)
    have hwire : r.2.wire = s.wire ++ buffer := write_all hs (not_not.mp hfull)
    have hlen := congrArg List.length hwire
    rw [List.length_append] at hlen
    have hcalls : r.2.calls = s.calls + 1 := (write_wire hs).2.2
    rw [clipped_round hlt hne hacc, afterCalls_send]
    by_cases hle : off + buffer.length ≤ fileLen
    · have hrest : off + buffer.length + (afterCalls io r.2 rest.2).wire.length ≤
            fileLen + r.2.wire.length ↔
          Clipped data io fileLen (off + buffer.length) r.2.calls := ih (write_wire hs).2.1 hle
      rw [hcalls] at hrest
      rw [← hrest, and_iff_right hle]
      show off + (afterCalls io r.2 rest.2).wire.length ≤ _ ↔ _
      omega
    · -- the round ends behind the announced length, and the loop with it
      have hend : rest.2 = [] := by
        simp only [rest]
        rw [transferLoop, if_neg (by omega)]
      refine iff_of_false ?_ fun h => hle h.1
      rw [hend, afterCalls_nil]
      show ¬ off + r.2.wire.length ≤ _
      omega
  | case4 off s hge =>
    apply iff_of_true (by rw [afterCalls_nil]; omega)
    intro o m hreach hlt hmore
    cases hreach with
    | here => exact absurd hlt hge
    | round hlt' _ _ _ => exact absurd hlt' hge

end Loop

/-! ## The announced length -/

section Announced

variable {f : ChangingFile} {io : WriteResults} {calls : List SockCall}

theorem ChangingFile.sizeT_fileLen (f : ChangingFile) : sizeT f.fileLen = f.fileLen :=
  sizeT_natCast (f.lt.trans (by decide))

theorem ChangingFile.sent_open (f : ChangingFile) (io : WriteResults) :
    (f.sent io).closed = false ∧ (f.sent io).calls = 1 := by
  have h := (@write_wire io Sock.new (okHeader (sizeT f.fileLen)) rfl).2
  exact ⟨h.1, h.2⟩

/-- The bytes behind the header are what the calls have added to the connection. -/
theorem ChangingFile.body_of_wire {u : List Byte}
    (h : (afterCalls io (f.sent io) calls).wire = (f.sent io).wire ++ u) : f.body io calls = u := by
  rw [ChangingFile.body, h, List.drop_left]

/-- The bytes behind the header at some moment are a prefix of those at the end. -/
theorem ChangingFile.body_prefix (h : calls <+: (f.run io).2) :
    f.body io calls <+: f.body io (f.run io).2 := by
  obtain ⟨rest, hrest⟩ := h
  obtain ⟨u, hu⟩ := afterCalls_wire_prefix io (f.sent io) calls
  obtain ⟨v, hv⟩ := afterCalls_wire_prefix io (afterCalls io (f.sent io) calls) rest
  rw [← afterCalls_append, hrest, ← hu, List.append_assoc] at hv
  rw [ChangingFile.body_of_wire hu.symm, ChangingFile.body_of_wire hv.symm]
  exact List.prefix_append u v

/-- All that is sent fits the announced length exactly if the reads are clipped. -/
theorem ChangingFile.body_le_iff (f : ChangingFile) (io : WriteResults) :
    (f.body io (f.run io).2).length ≤ f.fileLen ↔ Clipped f.data io f.fileLen 0 1 := by
  obtain ⟨hopen, hcalls⟩ := f.sent_open io
  have h := transferLoop_sent_le_iff f.data io f.fileLen 0 (f.sent io) hopen (Nat.zero_le _)
  rw [hcalls] at h
  rw [← h, ChangingFile.body, List.length_drop, ChangingFile.run]
  omega

/-- A transfer that succeeds has sent the announced length or more. -/
theorem ChangingFile.fileLen_le_body (h : 0 ≤ (f.run io).1) :
    f.fileLen ≤ (f.body io (f.run io).2).length := by
  rcases transferLoop_ends f.data io f.fileLen 0 (f.sent io) with
    ⟨chunks, heq, hacc, hend⟩ | ⟨chunks, u, heq, -⟩
  · rw [ChangingFile.run, heq, ChangingFile.body_of_wire hacc.wire]
    omega
  · rw [ChangingFile.run, heq] at h
    have hneg : (0 : ℤ) ≤ -1 := h
    omega

end Announced

/-- For a file that stays as it is, this is `handler_get`. -/
theorem handlerGet_fixed {content : Content} {file : File} {path : List Byte}
    (reads : ReadResults) (io : WriteResults) (h : content path = some file) :
    handlerGet content reads io path Sock.new =
      (((file.fixed reads).run io).1,
        afterCalls io ((file.fixed reads).sent io) ((file.fixed reads).run io).2) := by
  simp only [handlerGet, h]
  exact handlerLoop_eq reads io file.bytes 0 _

/-- The reads of a file that stays as it is end in front of the announced length. -/
theorem clipped_fixed (file : File) (reads : ReadResults) (io : WriteResults) (off n : ℕ) :
    Clipped (file.fixed reads).data io (file.fixed reads).fileLen off n := by
  refine Clipped.of_le fun o _ => ?_
  have h := (pread_drop reads file.bytes o).length_le
  rwa [List.length_drop] at h

/-- The handler keeps to the length that it has announced exactly if each `pread` that delivers
    more than what is missing is followed by a `write` that accepts no more than that. -/
theorem keepsLength_iff (f : ChangingFile) (io : WriteResults) :
    f.KeepsLength io ↔ Clipped f.data io f.fileLen 0 1 := by
  rw [← f.body_le_iff io, ChangingFile.KeepsLength, f.sizeT_fileLen]
  constructor
  · exact fun h => h.1 _ (List.prefix_refl _)
  · intro h
    exact ⟨fun calls hcalls => (ChangingFile.body_prefix hcalls).length_le.trans h,
      fun hval => h.antisymm (ChangingFile.fileLen_le_body hval)⟩

/-- A file of one byte that has two when `pread` is called. -/
theorem not_keepsLength_grown :
    ¬ ∀ (f : ChangingFile) (io : WriteResults), f.KeepsLength io := by
  intro h
  let f : ChangingFile := ⟨1, by decide, fun off => (ascii "ab").drop off, fun off => by
    rw [List.length_drop]
    exact (Nat.sub_le _ _).trans (by decide)⟩
  have hle := (f.body_le_iff fun _ => some 4096).mp (by
    have hkeeps := (h f fun _ => some 4096).1 _ (List.prefix_refl _)
    rwa [f.sizeT_fileLen] at hkeeps)
  exact absurd (hle 0 1 .here (by decide) (by decide)) (by decide)

end IntroOS.Gfserver
