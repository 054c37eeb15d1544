import IntroOS.Gfserver.Lifecycle

/-!
# A server with a limit on its descriptors

The loop of `gfserver_serve` (`pr1/gflib/gfserver.c`, lines 166–200) in a process that has room for
`limit` connections. While that many are open, `accept` fails, and `error` ends the process (lines
170–172). A connection is open until `gfs_abort` closes it.

Main results:

* `limited_exits`: how far the process comes in a history that it would survive without a limit.
* `limited_downloads`: of the clients that get their files, `limit` are served.
-/

namespace IntroOS.Gfserver

open CString

/-- Nobody has closed the connection. -/
def Served.open (x : Served) : Bool := x.sock.closes = 0

/-- The loop while `opened` connections are open; whether `accept` has ended the process. -/
def serveLimited (content : Content) (limit : ℕ) :
    List Visit → ℕ → List Byte → Except Fault (List Served × Bool)
  | [], _, _ => .ok ([], false)
  | v :: vs, opened, readData =>
    -- `error("ERROR on accept")`
    if limit ≤ opened then .ok ([], true)
    else do
      let (served, readData) ← serveVisit content v readData
      let (rest, exited) ←
        serveLimited content limit vs (opened + 1 - served.sock.closes) readData
      return (served :: rest, exited)

/-- How many connections are served, of those that would be without a limit: until `room` of them
    are open. -/
def reach : ℕ → List Served → ℕ
  | _, [] => 0
  | room, x :: xs => if room = 0 then 0 else reach (room - x.open.toNat) xs + 1

section Limited

variable {content : Content} {limit opened room : ℕ} {v : Visit} {vs : List Visit} {b b' : List Byte}
  {all served : List Served} {x : Served} {exited : Bool}

theorem open_toNat (h : x.sock.closes ≤ 1) : x.open.toNat = 1 - x.sock.closes := by
  unfold Served.open
  obtain hzero | hone : x.sock.closes = 0 ∨ x.sock.closes = 1 := by omega
  · rw [hzero]
    rfl
  · rw [hone]
    rfl

/-- The loop serves what it would serve without a limit, as far as there is room. -/
theorem serveLimited_eq (hopened : opened ≤ limit)
    (h : serveVisits content vs b = .ok (all, b')) :
    serveLimited content limit vs opened b =
      .ok (all.take (reach (limit - opened) all), reach (limit - opened) all < all.length) := by
  induction vs generalizing b all opened with
  | nil =>
    cases h
    rfl
  | cons v vs ih =>
    obtain ⟨x, b₁, hs, ⟨rest, b₂⟩, hrest, heq⟩ := serveVisits_ok_cons h
    cases heq
    rw [serveLimited, reach]
    by_cases hfull : limit ≤ opened
    · rw [if_pos hfull, if_pos (by omega)]
      rfl
    · obtain ⟨w₁, w₂, w₃, hw⟩ := serveOne_ok_iff.mp ⟨_, hs⟩
      have hcloses := (serveVisit_closes hs hw).1
      have hroom : limit - (opened + 1 - x.sock.closes) = limit - opened - x.open.toNat := by
        rw [open_toNat hcloses]
        omega
      rw [if_neg hfull, if_neg (by omega), hs]
      show (serveLimited content limit vs (opened + 1 - x.sock.closes) b₁ >>= _) = _
      rw [ih (by omega) hrest, hroom, List.take_succ_cons, List.length_cons]
      simp only [Nat.succ_lt_succ_iff]
      rfl

theorem serveVisits_length (h : serveVisits content vs b = .ok (all, b')) :
    all.length = vs.length := by
  induction vs generalizing b all with
  | nil =>
    cases h
    rfl
  | cons v vs ih =>
    obtain ⟨x, b₁, -, ⟨rest, b₂⟩, hrest, heq⟩ := serveVisits_ok_cons h
    cases heq
    rw [List.length_cons, List.length_cons, ih hrest]

/-- There is room in front of each connection that is served, and none behind the last one if there
    are more. -/
theorem reach_spec (room : ℕ) (all : List Served) :
    reach room all ≤ all.length ∧
      (∀ j < reach room all, (all.take j).countP Served.open < room) ∧
      (reach room all < all.length → (all.take (reach room all)).countP Served.open = room) := by
  induction all generalizing room with
  | nil => exact ⟨Nat.le_refl 0, fun _ hj => absurd hj (Nat.not_lt_zero _), fun h => absurd h (lt_irrefl 0)⟩
  | cons x xs ih =>
    rw [reach]
    by_cases hroom : room = 0
    · rw [if_pos hroom, hroom]
      exact ⟨Nat.zero_le _, fun _ hj => absurd hj (Nat.not_lt_zero _), fun _ => rfl⟩
    · rw [if_neg hroom]
      obtain ⟨hle, hbefore, hend⟩ := ih (room - x.open.toNat)
      have hone := Bool.toNat_le x.open
      have hcount : ∀ l : List Served,
          (x :: l).countP Served.open = l.countP Served.open + x.open.toNat := by
        intro l
        rw [List.countP_cons]
        cases x.open <;> rfl
      refine ⟨Nat.succ_le_succ hle, ?_, ?_⟩
      · intro j hj
        cases j with
        | zero => exact Nat.pos_of_ne_zero hroom
        | succ j =>
          have hrest := hbefore j (Nat.lt_of_succ_lt_succ hj)
          rw [List.take_succ_cons, hcount]
          omega
      · intro hlt
        have hrest := hend (Nat.lt_of_succ_lt_succ hlt)
        rw [List.take_succ_cons, hcount]
        omega

end Limited

/-- How far the process comes in a history that the server would survive without a limit: it has
    room in front of each connection that it serves; if it does not come to the end, `limit`
    connections are open, and it has exited. -/
theorem limited_exits (content : Content) (limit : ℕ) (vs : List Visit) (all : List Served)
    (b : List Byte) (h : serveVisits content vs readDataInit = .ok (all, b)) :
    ∃ k ≤ vs.length,
      serveLimited content limit vs 0 readDataInit = .ok (all.take k, decide (k < vs.length)) ∧
      (∀ j < k, (all.take j).countP Served.open < limit) ∧
      (k < vs.length → (all.take k).countP Served.open = limit) := by
  have hlimited := serveLimited_eq (Nat.zero_le limit) h
  obtain ⟨hle, hbefore, hend⟩ := reach_spec limit all
  rw [Nat.sub_zero, serveVisits_length h] at hlimited
  rw [serveVisits_length h] at hle hend
  exact ⟨reach limit all, hle, hlimited, hbefore, hend⟩

/-! ## Clients that get their files -/

/-- A client asks for a path, `pread` and `write` do what they do. -/
structure Download where
  path : Path
  reads : ReadResults
  io : WriteResults

def Download.visit (d : Download) : Visit := ⟨d.path.connection d.io, d.reads⟩

/-- What the client is answered. -/
def Download.served (content : Content) (d : Download) : Served :=
  ⟨[d.path.bytes], (handlerGet content d.reads d.io d.path.bytes Sock.new).2⟩

/-- The path is known, and the transfer of its file does not fail. -/
def Download.Completes (content : Content) (d : Download) : Prop :=
  ∃ file, content d.path.bytes = some file ∧ ¬ TransferFails d.reads d.io file.bytes 0 1

section Downloads

variable {content : Content} {d : Download} {ds : List Download}

theorem serveVisits_downloads (content : Content) (ds : List Download) (b : List Byte) :
    ∃ b', serveVisits content (ds.map Download.visit) b =
      .ok (ds.map (Download.served content), b') := by
  induction ds generalizing b with
  | nil => exact ⟨b, rfl⟩
  | cons d ds ih =>
    obtain ⟨b₁, hvisit⟩ := serveVisit_path content d.reads d.path d.io b
    obtain ⟨b₂, hrest⟩ := ih b₁
    exact ⟨b₂, serveVisits_cons (d.served content) hvisit hrest⟩

/-- The transfer of an empty file cannot fail. -/
theorem Download.completes_of_empty {file : File}
    (hfile : content d.path.bytes = some file) (h : file.bytes = []) : d.Completes content := by
  refine ⟨file, hfile, not_transferFails_of_end ?_⟩
  rw [h]
  exact Nat.le_refl 0

theorem Download.Completes.open (h : d.Completes content) : (d.served content).open = true := by
  obtain ⟨file, hfile, hcomplete⟩ := h
  obtain ⟨hle, hone⟩ := handlerGet_closes content d.reads d.io d.path.bytes
  have hne : (handlerGet content d.reads d.io d.path.bytes Sock.new).2.closes ≠ 1 := fun hclosed =>
    hcomplete (hone.mp hclosed file hfile)
  exact decide_eq_true (by show (handlerGet content d.reads d.io _ _).2.closes = 0; omega)

theorem reach_all_open {all : List Served} {room : ℕ} (h : ∀ x ∈ all, x.open = true) :
    reach room all = min room all.length := by
  induction all generalizing room with
  | nil => rw [reach, List.length_nil, Nat.min_zero]
  | cons x xs ih =>
    obtain ⟨hx, hxs⟩ := List.forall_mem_cons.mp h
    rw [reach, hx, List.length_cons]
    split_ifs with hroom
    · rw [hroom, Nat.zero_min]
    · rw [ih hxs]
      show min (room - 1) xs.length + 1 = _
      omega

end Downloads

/-- If every client would get its file, the first `limit` ones get it, and the process exits as soon
    as there is another one. -/
theorem limited_downloads (content : Content) (limit : ℕ) (ds : List Download)
    (h : ∀ d ∈ ds, d.Completes content) :
    serveLimited content limit (ds.map Download.visit) 0 readDataInit =
      .ok ((ds.take limit).map (Download.served content), decide (limit < ds.length)) := by
  obtain ⟨b, hall⟩ := serveVisits_downloads content ds readDataInit
  have hopen : ∀ x ∈ ds.map (Download.served content), x.open = true := by
    intro x hx
    obtain ⟨d, hd, rfl⟩ := List.mem_map.mp hx
    exact (h d hd).open
  have htake : (ds.map (Download.served content)).take (min limit ds.length) =
      (ds.take limit).map (Download.served content) := by
    rw [← List.map_take, ← List.take_take, List.take_length]
  have hexit : min limit ds.length < ds.length ↔ limit < ds.length := by omega
  rw [serveLimited_eq (Nat.zero_le limit) hall, Nat.sub_zero, reach_all_open hopen, List.length_map,
    htake]
  simp only [hexit]

/-- Two downloads of an empty file, and room for one connection. -/
theorem limited_downloads_two :
    let content : Content := fun _ => some ⟨[], by decide⟩
    let d : Download := ⟨⟨ascii "/a", by decide, clean_a, by decide⟩, fun _ => none, fun _ => none⟩
    serveLimited content 1 ([d, d].map Download.visit) 0 readDataInit =
      .ok ((([d, d] : List Download).take 1).map (Download.served content), decide (1 < 2)) := by
  intro content d
  have hcompletes : d.Completes content := Download.completes_of_empty rfl rfl
  apply limited_downloads content 1 [d, d]
  intro e he
  obtain rfl : e = d := by simpa using he
  exact hcompletes

/-- The second one does not get its connection. -/
theorem limited_exits_two :
    let content : Content := fun _ => some ⟨[], by decide⟩
    let d : Download := ⟨⟨ascii "/a", by decide, clean_a, by decide⟩, fun _ => none, fun _ => none⟩
    let all : List Served := [d.served content, d.served content]
    serveLimited content 1 [d.visit, d.visit] 0 readDataInit = .ok (all.take 1, true) ∧
      (all.take 1).countP Served.open = 1 := by
  intro content d all
  have hcompletes : d.Completes content := Download.completes_of_empty rfl rfl
  have hopen : Served.open (d.served content) = true := hcompletes.open
  obtain ⟨b, hall⟩ := serveVisits_downloads content [d, d] readDataInit
  obtain ⟨k, hk, hserve, hbefore, hend⟩ := limited_exits content 1 [d.visit, d.visit] all b hall
  have hone : k = 1 := by
    obtain rfl | rfl | rfl : k = 0 ∨ k = 1 ∨ k = 2 := by
      have hle : k ≤ 2 := hk
      omega
    · exact absurd (hend Nat.zero_lt_two) Nat.zero_ne_one
    · rfl
    · have hlt := hbefore 1 Nat.one_lt_two
      rw [List.take_one, List.head?_cons, Option.toList_some, List.countP_singleton, hopen] at hlt
      exact absurd hlt (lt_irrefl 1)
  subst hone
  exact ⟨hserve, hend Nat.one_lt_two⟩

end IntroOS.Gfserver
