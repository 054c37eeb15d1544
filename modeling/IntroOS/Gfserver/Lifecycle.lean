import IntroOS.Gfserver.Wire

/-!
# The life of a connection

Which connections have been closed when `gfserver_serve` calls `accept` again.

Main results:

* `handlerLoop_closes`: the transfer of a file closes the connection exactly if it fails.
* `closed_once_iff`: over any history, every connection has been closed once exactly if each
  asks for an unknown key or its transfer fails.
* `closed_at_most_once`: no connection is closed twice.
-/

namespace IntroOS.Gfserver

open CString

/-! ## Histories with their reads -/

/-- A connection, and what `pread` delivers while it is served. -/
structure Visit where
  conn : Connection
  reads : ReadResults

/-- One iteration of the loop of `gfserver_serve` with `handler_get`. -/
def serveVisit (content : Content) (v : Visit) (readData : List Byte) :
    Except Fault (Served × List Byte) :=
  serveOne (fun io path s => (handlerGet content v.reads io path s).2) v.conn readData

/-- The loop of `gfserver_serve` with `handler_get`. -/
def serveVisits (content : Content) : List Visit → List Byte → Except Fault (List Served × List Byte)
  | [], readData => .ok ([], readData)
  | v :: vs, readData => do
    let (served, readData) ← serveVisit content v readData
    let (rest, readData) ← serveVisits content vs readData
    return (served :: rest, readData)

/-- It is the loop of the model where the reads are the same for all connections. -/
theorem serveVisits_eq (content : Content) (reads : ReadResults) (cs : List Connection)
    (b : List Byte) : serveVisits content (cs.map fun c => ⟨c, reads⟩) b =
      gfserverServe (fun io path s => (handlerGet content reads io path s).2) cs b := by
  induction cs generalizing b with
  | nil => rfl
  | cons c cs ih =>
    simp only [List.map_cons, serveVisits, gfserverServe, serveVisit, ih]

/-! ## The transfer of a file -/

/-- Where the transfer stands after `k` complete rounds from `off`. -/
def transferOffset (reads : ReadResults) (file : List Byte) : ℕ → ℕ → ℕ
  | off, 0 => off
  | off, k + 1 => transferOffset reads file (off + (pread reads file off).length) k

/-- The transfer fails that starts at `off` with the `n`-th call of `write`: before the end of
    the file a `pread` delivers nothing, or a `write` does not accept all it is given. -/
def TransferFails (reads : ReadResults) (io : WriteResults) (file : List Byte) (off n : ℕ) : Prop :=
  ∃ k, transferOffset reads file off k < file.length ∧
    (pread reads file (transferOffset reads file off k) = [] ∨
      accepts io (n + k) < (pread reads file (transferOffset reads file off k)).length)

section Loop

variable {reads : ReadResults} {io : WriteResults} {file : List Byte} {off n : ℕ} {s : Sock}

theorem not_transferFails_of_end (h : file.length ≤ off) : ¬ TransferFails reads io file off n := by
  have hend : ∀ k off, file.length ≤ off → file.length ≤ transferOffset reads file off k := by
    intro k
    induction k with
    | zero => exact fun _ h => h
    | succ k ih => exact fun off h => ih _ (h.trans (Nat.le_add_right _ _))
  rintro ⟨k, hk, -⟩
  exact absurd (hend k off h) (by omega)

/-- A complete round: the transfer fails exactly if the rest of it does. -/
theorem transferFails_round (hne : pread reads file off ≠ [])
    (hacc : (pread reads file off).length ≤ accepts io n) :
    TransferFails reads io file off n ↔
      TransferFails reads io file (off + (pread reads file off).length) (n + 1) := by
  constructor
  · rintro ⟨k, hlt, hfail⟩
    cases k with
    | zero =>
      rcases hfail with hfail | hfail
      · exact absurd hfail hne
      · exact absurd hacc (by simpa [transferOffset] using hfail)
    | succ k =>
      rw [← Nat.add_assoc, Nat.add_right_comm] at hfail
      exact ⟨k, hlt, hfail⟩
  · rintro ⟨k, hlt, hfail⟩
    rw [Nat.add_right_comm] at hfail
    exact ⟨k + 1, hlt, hfail⟩

theorem write_closes (io : WriteResults) (s : Sock) (data : List Byte) :
    (write io s data).2.closes = s.closes := by
  unfold write
  dsimp only
  split_ifs
  · rfl
  · cases io s.calls <;> rfl

/-- The transfer leaves the connection open if it is complete, and closes it if it fails. -/
theorem handlerLoop_closes (reads : ReadResults) (io : WriteResults) (file : List Byte) (off : ℕ)
    (s : Sock) (hs : s.closes = 0) :
    (handlerLoop reads io file off s).2.closes ≤ 1 ∧
      ((handlerLoop reads io file off s).2.closes = 1 ↔ TransferFails reads io file off s.calls) := by
  have hopen : s.closed = false := by simp [Sock.closed, hs]
  fun_induction handlerLoop reads io file off s with
  | case1 off s hlt buffer hzero =>
    have hnil : buffer = [] := List.length_eq_zero_iff.mp (Nat.le_zero.mp hzero)
    have hone : (gfsAbort s).closes = 1 := by simp [gfsAbort, hs]
    exact ⟨hone.le, iff_of_true hone ⟨0, hlt, Or.inl hnil⟩⟩
  | case2 off s hlt buffer hpos r hshort =>
    have hne : buffer ≠ [] := fun h => hpos (by rw [h]; rfl)
    have hone : (gfsAbort r.2).closes = 1 := by
      simp [gfsAbort, r, gfsSend, write_closes, hs]
    have hacc : accepts io (s.calls + 0) < buffer.length :=
      not_le.mp fun h => hshort ((write_complete_iff hopen hne).mpr h)
    exact ⟨hone.le, iff_of_true hone ⟨0, hlt, Or.inr hacc⟩⟩
  | case3 off s hlt buffer hpos r hfull ih =>
    have hne : buffer ≠ [] := fun h => hpos (by rw [h]; rfl)
    have hacc := (write_complete_iff hopen hne).mp (not_not.mp hfull)
    have hclosed : r.2.closes = 0 := (write_closes io s buffer).trans hs
    have hcalls : r.2.calls = s.calls + 1 := (write_wire hopen).2.2
    have hrest := ih hclosed (write_wire hopen).2.1
    rw [hcalls] at hrest
    exact ⟨hrest.1, hrest.2.trans (transferFails_round hne hacc).symm⟩
  | case4 off s hge =>
    rw [hs]
    exact ⟨Nat.zero_le 1, iff_of_false (by decide) (not_transferFails_of_end (Nat.le_of_not_lt hge))⟩

end Loop

/-! ## One connection -/

/-- The request asks for an unknown key, or its transfer fails. -/
def ClosedOnce (content : Content) (v : Visit) (scheme method path : List Byte) : Prop :=
  (scheme = ascii "GETFILE" ∧ method = ascii "GET" ∧ path.head? = some 47) ∧
    ∀ file, content path = some file → TransferFails v.reads v.conn.io file.bytes 0 1

section Visits

variable {content : Content} {v : Visit} {vs : List Visit} {b b' : List Byte}
  {scheme method path : List Byte} {served : Served}

theorem handlerGet_closes (content : Content) (reads : ReadResults) (io : WriteResults)
    (path : List Byte) :
    (handlerGet content reads io path Sock.new).2.closes ≤ 1 ∧
      ((handlerGet content reads io path Sock.new).2.closes = 1 ↔
        ∀ file, content path = some file → TransferFails reads io file.bytes 0 1) := by
  cases hfile : content path with
  | none =>
    have hone : (handlerGet content reads io path Sock.new).2.closes = 1 := by
      simp [handlerGet, hfile, gfsSendheader, gfsAbort, write_closes, Sock.new]
    refine ⟨hone.le, iff_of_true hone ?_⟩
    intro file hsome
    cases hsome
  | some file =>
    have hlt : file.bytes.length < 2 ^ 64 := file.lt.trans (by decide)
    have hloop := handlerLoop_closes reads io file.bytes 0
      (write io Sock.new (okHeader file.bytes.length)).2 (write_closes io Sock.new _)
    rw [(write_wire rfl).2.2] at hloop
    simp only [handlerGet, hfile, gfsSendheader, sizeT_natCast hlt]
    refine ⟨hloop.1, hloop.2.trans ⟨fun h file' heq => ?_, fun h => h file rfl⟩⟩
    cases heq
    exact h

theorem serveVisit_closes (h : serveVisit content v b = .ok (served, b'))
    (hw : Words (recvInto b v.conn.received) scheme method path) :
    served.sock.closes ≤ 1 ∧
      (served.sock.closes = 1 ↔ ClosedOnce content v scheme method path) := by
  obtain ⟨b'', hserve, -⟩ :=
    @serveOne_words (fun io path s => (handlerGet content v.reads io path s).2) v.conn b _ _ _ hw
  have hserved : served = answer (fun io path s => (handlerGet content v.reads io path s).2) v.conn
      scheme method path := by
    rw [serveVisit, hserve] at h
    cases h
    rfl
  rw [hserved, answer, ClosedOnce]
  split_ifs with hgood
  · have hget := handlerGet_closes content v.reads v.conn.io path
    exact ⟨hget.1, hget.2.trans ⟨fun h => ⟨hgood, h⟩, fun h => h.2⟩⟩
  · have hzero : (write v.conn.io Sock.new (ascii "GETFILE FILE_NOT_FOUND  \r\n\r\n" ++ [0])).2.closes =
        0 := write_closes _ _ _
    exact ⟨hzero.le.trans (Nat.zero_le 1), iff_of_false (by rw [hzero]; decide) fun h => hgood h.1⟩

/-! ## Histories -/

theorem serveVisits_ok_cons {res : List Served × List Byte}
    (h : serveVisits content (v :: vs) b = .ok res) :
    ∃ served₁ b', serveVisit content v b = .ok (served₁, b') ∧
      ∃ rest, serveVisits content vs b' = .ok rest ∧ res = (served₁ :: rest.1, rest.2) := by
  cases hs : serveVisit content v b with
  | error f => simp [serveVisits, hs, bind, Except.bind] at h
  | ok r =>
    obtain ⟨served₁, b'⟩ := r
    cases hrest : serveVisits content vs b' with
    | error f => simp [serveVisits, hs, hrest, bind, Except.bind] at h
    | ok rest =>
      simp only [serveVisits, hs, hrest, bind, Except.bind, pure, Except.pure] at h
      cases h
      exact ⟨served₁, b', rfl, rest, hrest, rfl⟩

theorem serveVisits_cons {rest : List Served × List Byte} (served₁ : Served)
    (hs : serveVisit content v b = .ok (served₁, b'))
    (hrest : serveVisits content vs b' = .ok rest) :
    serveVisits content (v :: vs) b = .ok (served₁ :: rest.1, rest.2) := by
  simp only [serveVisits, hs, hrest, bind, Except.bind, pure, Except.pure]

end Visits

/-- No connection is closed twice. -/
theorem closed_at_most_once {content : Content} {vs : List Visit} {b b' : List Byte}
    {served : List Served} (h : serveVisits content vs b = .ok (served, b')) :
    ∀ x ∈ served, x.sock.closes ≤ 1 := by
  induction vs generalizing b served with
  | nil => cases h; exact nofun
  | cons v vs ih =>
    obtain ⟨served₁, b₁, hs, ⟨rest, b₂⟩, hrest, heq⟩ := serveVisits_ok_cons h
    cases heq
    obtain ⟨w₁, w₂, w₃, hw⟩ := serveOne_ok_iff.mp ⟨_, hs⟩
    intro x hx
    rcases List.mem_cons.mp hx with rfl | hx
    · exact (serveVisit_closes hs hw).1
    · exact ih hrest x hx

theorem closed_once_of {content : Content} {vs : List Visit} {b b' : List Byte}
    {served : List Served} (h : serveVisits content vs b = .ok (served, b')) :
    (∀ x ∈ served, x.sock.closes = 1) ↔
      ∀ pre v post, vs = pre ++ v :: post → ∀ served' readData,
        serveVisits content pre b = .ok (served', readData) → ∀ scheme method path,
          Words (recvInto readData v.conn.received) scheme method path →
            ClosedOnce content v scheme method path := by
  induction vs generalizing b served with
  | nil =>
    cases h
    exact iff_of_true nofun fun pre v post heq => by simp at heq
  | cons u vs ih =>
    obtain ⟨served₁, b₁, hs, ⟨rest, b₂⟩, hrest, heq⟩ := serveVisits_ok_cons h
    cases heq
    rw [List.forall_mem_cons, ih hrest]
    constructor
    · rintro ⟨hfirst, hothers⟩ pre v post heq served' readData hpre w₁ w₂ w₃ hw
      rcases List.cons_eq_append_iff.mp heq with ⟨rfl, hvs⟩ | ⟨pre', rfl, hvs⟩
      · cases hvs
        cases hpre
        exact (serveVisit_closes hs hw).2.mp hfirst
      · obtain ⟨served₂, b₃, hs', ⟨served₃, b₄⟩, hpre', hres⟩ := serveVisits_ok_cons hpre
        rw [hs] at hs'
        cases hs'
        cases hres
        exact hothers pre' v post hvs served₃ b₄ hpre' w₁ w₂ w₃ hw
    · intro hall
      constructor
      · obtain ⟨w₁, w₂, w₃, hw⟩ := serveOne_ok_iff.mp ⟨_, hs⟩
        exact (serveVisit_closes hs hw).2.mpr (hall [] u vs rfl [] b rfl w₁ w₂ w₃ hw)
      · intro pre v post heq served' readData hpre
        exact hall (u :: pre) v post (by rw [heq]; rfl) _ _ (serveVisits_cons served₁ hs hpre)

/-- Every connection of a history has been closed exactly once when `accept` is called again
    exactly if each of them asks for an unknown key or has a transfer that fails. -/
theorem closed_once_iff (content : Content) (vs : List Visit) (served : List Served)
    (b : List Byte) (h : serveVisits content vs readDataInit = .ok (served, b)) :
    (∀ x ∈ served, x.sock.closes = 1) ↔
      ∀ pre v post, vs = pre ++ v :: post → ∀ served' readData,
        serveVisits content pre readDataInit = .ok (served', readData) → ∀ scheme method path,
          Words (recvInto readData v.conn.received) scheme method path →
            ClosedOnce content v scheme method path :=
  closed_once_of h

/-- A request of the client, whatever `readData` holds. -/
theorem serveVisit_path (content : Content) (reads : ReadResults) (p : Path) (io : WriteResults)
    (b : List Byte) :
    ∃ b', serveVisit content ⟨p.connection io, reads⟩ b =
      .ok (⟨[p.bytes], (handlerGet content reads io p.bytes Sock.new).2⟩, b') := by
  obtain ⟨b', hserve, -⟩ := @serveOne_words
    (fun io path s => (handlerGet content reads io path s).2) _ _ _ _ _ (p.words io b)
  rw [p.answer] at hserve
  refine ⟨b', ?_⟩
  rw [serveVisit]
  exact hserve

/-- A request of the client on a new server. -/
theorem serveVisits_single (content : Content) (reads : ReadResults) (p : Path) (io : WriteResults) :
    ∃ b, serveVisits content [⟨p.connection io, reads⟩] readDataInit =
      .ok ([⟨[p.bytes], (handlerGet content reads io p.bytes Sock.new).2⟩], b) := by
  obtain ⟨b, hvisit⟩ := serveVisit_path content reads p io readDataInit
  exact ⟨b, @serveVisits_cons content ⟨p.connection io, reads⟩ [] readDataInit b ([], b) _ hvisit rfl⟩

/-- There is a file under "/key" only. -/
def oneKey : Content := fun path => if path = ascii "/key" then some ⟨ascii "key", by decide⟩ else none

def knownPath : Path := ⟨ascii "/key", by decide, by decide +kernel, by decide⟩

def unknownPath : Path := ⟨ascii "/nokey", by decide, by decide +kernel, by decide⟩

/-- A request for an unknown key, and one whose `pread` fails. -/
def twoVisits : List Visit :=
  [⟨unknownPath.connection fun _ => some 4096, fun _ => none⟩,
    ⟨knownPath.connection fun _ => some 4096, fun _ => none⟩]

theorem closed_once_iff_two : ∃ served b,
    serveVisits oneKey twoVisits readDataInit = .ok (served, b) ∧ served.length = 2 ∧
      ∀ x ∈ served, x.sock.closes = 1 := by
  obtain ⟨b₁, h₁⟩ :=
    serveVisit_path oneKey (fun _ => none) unknownPath (fun _ => some 4096) readDataInit
  obtain ⟨b₂, h₂⟩ := serveVisit_path oneKey (fun _ => none) knownPath (fun _ => some 4096) b₁
  have hend : serveVisits oneKey [] b₂ = .ok ([], b₂) := rfl
  have hserve := serveVisits_cons _ h₁ (serveVisits_cons _ h₂ hend)
  refine ⟨_, b₂, hserve, rfl, ?_⟩
  refine (closed_once_iff oneKey twoVisits _ b₂ hserve).mpr ?_
  intro pre v post heq served' readData _ w₁ w₂ w₃ hw
  have hv : v ∈ twoVisits := by
    rw [heq]
    exact List.mem_append_right _ List.mem_cons_self
  obtain rfl | hv := List.mem_cons.mp hv
  · obtain ⟨rfl, rfl, rfl⟩ := hw.unique (unknownPath.words (fun _ => some 4096) readData)
    refine ⟨⟨rfl, rfl, unknownPath.slash⟩, fun file hfile => ?_⟩
    cases hfile
  · obtain rfl := List.mem_singleton.mp hv
    obtain ⟨rfl, rfl, rfl⟩ := hw.unique (knownPath.words (fun _ => some 4096) readData)
    refine ⟨⟨rfl, rfl, knownPath.slash⟩, fun file hfile => ?_⟩
    cases hfile
    exact ⟨0, by decide, .inl rfl⟩

/-- The transfer of an empty file: nobody closes the connection. -/
theorem not_closed_after_transfer :
    ¬ ∀ (content : Content) (vs : List Visit) (served : List Served) (b : List Byte),
      serveVisits content vs readDataInit = .ok (served, b) → ∀ x ∈ served, x.sock.closes = 1 := by
  intro h
  let content : Content := fun _ => some ⟨[], by decide⟩
  let p : Path := ⟨ascii "/a", by decide, clean_a, by decide⟩
  obtain ⟨b, hserve⟩ := serveVisits_single content (fun _ => none) p (fun _ => none)
  have hone := h content _ _ b hserve _ (List.mem_singleton_self _)
  have hfails := (handlerGet_closes content (fun _ => none) (fun _ => none) p.bytes).2.mp hone
    ⟨[], by decide⟩ rfl
  exact not_transferFails_of_end (Nat.le_refl 0) hfails

end IntroOS.Gfserver
