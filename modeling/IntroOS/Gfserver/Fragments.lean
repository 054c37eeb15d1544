import IntroOS.Gfserver.Serve

/-!
# Requests in pieces

A request that the network delivers in several pieces. `gfserver_serve` calls `recv` once for
a connection, so it sees the first piece only.

Main results:

* `fragments_handled_iff`: on a new server, the handler gets the path after all of the request
  exactly if the request comes in one piece.
-/

namespace IntroOS.Gfserver

open CString
open Gfclient (Chunk clientscheme)

/-- What happens on a connection, in order. -/
inductive ServeEvent
  | recv (data : List Byte)
  | handler (path : List Byte)
  deriving DecidableEq

/-- The first connection of a server, which delivers its bytes in `pieces`: lines 176–197, with
    one `recv`. -/
def serveFirst (handler : WriteResults → Handler) (io : WriteResults) (pieces : List Chunk) :
    Except Fault (List ServeEvent) :=
  match pieces with
  | [] => (serveOne handler ⟨[], Nat.zero_le _, io⟩ readDataInit).map fun r =>
      .recv [] :: r.1.handled.map .handler
  | c :: _ => (serveOne handler ⟨c.data, c.le, io⟩ readDataInit).map fun r =>
      .recv c.data :: r.1.handled.map .handler

/-- All of `request` is received, and then the handler is called once, with `path`. -/
def HandledWhole (request path : List Byte) (res : Except Fault (List ServeEvent)) : Prop :=
  ∃ datas : List (List Byte), res = .ok (datas.map .recv ++ [.handler path]) ∧ datas.flatten = request

/-- A server that calls `recv` once handles what the first piece holds. -/
theorem HandledWhole.first {request path data : List Byte} {handled : List (List Byte)}
    (h : HandledWhole request path (.ok (.recv data :: handled.map .handler))) :
    data = request ∧ handled = [path] := by
  obtain ⟨datas, heq, rfl⟩ := h
  rw [Except.ok.injEq] at heq
  cases datas with
  | nil => cases heq
  | cons d datas =>
    obtain ⟨hd, hrest⟩ := List.cons.inj heq
    cases hd
    cases datas with
    | nil =>
      have hmap : handled.map ServeEvent.handler = [path].map ServeEvent.handler := hrest
      have hinj : Function.Injective ServeEvent.handler := fun _ _ h => by cases h; rfl
      exact ⟨by simp, hinj.list_map hmap⟩
    | cons d' datas =>
      cases handled with
      | nil => cases hrest
      | cons p handled => cases (List.cons.inj hrest).1

theorem serveFirst_whole (handler : WriteResults → Handler) (io : WriteResults) (p : Path)
    {c : Chunk} (hc : c.data = clientscheme p.bytes) (pieces : List Chunk) :
    serveFirst handler io (c :: pieces) = .ok [.recv (clientscheme p.bytes), .handler p.bytes] := by
  have hconn : (⟨c.data, c.le, io⟩ : Connection) = p.connection io := Connection.ext hc rfl
  obtain ⟨b', hserve, -⟩ := @serveOne_words handler _ _ _ _ _ (p.words io readDataInit)
  rw [p.answer handler io] at hserve
  rw [serveFirst, hconn, hserve, hc]
  rfl

/-- The handler is called after all of the request has been received, once and with its path,
    exactly if the request comes in one piece. -/
theorem fragments_handled_iff (handler : WriteResults → Handler) (io : WriteResults) (p : Path)
    (pieces : List Chunk) (h : (pieces.map Chunk.data).flatten = clientscheme p.bytes) :
    HandledWhole (clientscheme p.bytes) p.bytes (serveFirst handler io pieces) ↔
      pieces.length = 1 := by
  cases pieces with
  | nil => exact absurd h (by simp [clientscheme, ascii])
  | cons c pieces =>
    rw [List.map_cons, List.flatten_cons] at h
    constructor
    · intro hwhole
      simp only [serveFirst] at hwhole
      cases hserve : serveOne handler ⟨c.data, c.le, io⟩ readDataInit with
      | error f =>
        rw [hserve] at hwhole
        obtain ⟨datas, heq, -⟩ := hwhole
        cases heq
      | ok r =>
        rw [hserve] at hwhole
        obtain ⟨hdata, -⟩ := hwhole.first
        -- nothing is left for a second piece
        rw [hdata] at h
        have hnone : (pieces.map Chunk.data).flatten = [] := List.append_right_eq_self.mp h
        cases pieces with
        | nil => rfl
        | cons d pieces =>
          rw [List.map_cons, List.flatten_cons, List.append_eq_nil_iff] at hnone
          exact absurd hnone.1 d.ne_nil
    · intro hone
      obtain rfl : pieces = [] := List.length_eq_zero_iff.mp (Nat.succ.inj hone)
      have hc : c.data = clientscheme p.bytes := by simpa using h
      exact ⟨[clientscheme p.bytes], serveFirst_whole handler io p hc [], by simp⟩

/-- The request for "/a" in one piece. -/
theorem fragments_handled_a :
    HandledWhole (clientscheme (ascii "/a")) (ascii "/a")
      (serveFirst (fun _ _ s => s) (fun _ => none)
        [⟨clientscheme (ascii "/a"), by decide +kernel, by decide +kernel⟩]) :=
  (fragments_handled_iff (fun _ _ s => s) (fun _ => none)
    ⟨ascii "/a", by decide, by decide +kernel, by decide⟩
    [⟨clientscheme (ascii "/a"), by decide +kernel, by decide +kernel⟩] (by simp)).mpr rfl

/-- The request for "/ab" cut in front of the "b": the handler is called with "/a". -/
theorem fragments_handled_early :
    ¬ ∀ (handler : WriteResults → Handler) (io : WriteResults) (p : Path) (pieces : List Chunk),
      (pieces.map Chunk.data).flatten = clientscheme p.bytes →
        HandledWhole (clientscheme p.bytes) p.bytes (serveFirst handler io pieces) := by
  intro h
  obtain ⟨datas, heq, -⟩ := h (fun _ _ s => s) (fun _ => none)
    ⟨ascii "/ab", by decide, by decide +kernel, by decide⟩
    [⟨ascii "GETFILE GET /a", by decide +kernel, by decide +kernel⟩,
      ⟨ascii "b \r\n\r\n", by decide +kernel, by decide +kernel⟩] (by decide +kernel)
  have hearly : serveFirst (fun _ _ s => s) (fun _ => none)
      [⟨ascii "GETFILE GET /a", by decide +kernel, by decide +kernel⟩,
        ⟨ascii "b \r\n\r\n", by decide +kernel, by decide +kernel⟩] =
      .ok ([.recv (ascii "GETFILE GET /a")] ++ [.handler (ascii "/a")]) := by decide +kernel
  rw [hearly, Except.ok.injEq] at heq
  have hlast := congrArg List.getLast? heq
  rw [List.getLast?_concat, List.getLast?_concat, Option.some.injEq] at hlast
  exact absurd hlast (by decide)

end IntroOS.Gfserver
