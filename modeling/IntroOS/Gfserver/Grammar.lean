import IntroOS.Gfserver.Leak

/-!
# The grammar of requests

Which byte strings `gfserver_serve` takes for a request, when one `recv` delivers them into a
cleared buffer. Only spaces separate the tokens, so CR and LF are part of a path, several
spaces count as one, and what follows the third token is not looked at.

Main results:

* `serveOne_rest`: whatever follows the path and a space, the handler is called.
* `Words.of_slash`: the words of a buffer that starts like a request.
* `grammar_only_iff`: the connections on which the server follows the grammar.
-/

namespace IntroOS.Gfserver

open CString

/-- A path of the grammar. -/
def IsPath (p : List Byte) : Prop := p.head? = some 47 ∧ ∀ a ∈ p, a ≠ 32 ∧ a ≠ 13 ∧ a ≠ 10

/-- The requests of the grammar for a path: one space may stand behind it. -/
inductive Request (p : List Byte) : List Byte → Prop
  | spaced : IsPath p → Request p (ascii "GETFILE GET " ++ (p ++ ascii " \r\n\r\n"))
  | tight : IsPath p → Request p (ascii "GETFILE GET " ++ (p ++ ascii "\r\n\r\n"))

/-- The first connection of a server is answered by the grammar: a request by one call of the
    handler with its path, and everything else by FILE_NOT_FOUND. -/
def GrammarOnly (handler : WriteResults → Handler) (c : Connection) : Prop :=
  ∃ served readData, serveOne handler c readDataInit = .ok (served, readData) ∧
    ((∃ p, Request p c.received ∧ served = ⟨[p], handler c.io p Sock.new⟩) ∨
      (∀ p, ¬ Request p c.received) ∧
        served = ⟨[], (write c.io Sock.new (ascii "GETFILE FILE_NOT_FOUND  \r\n\r\n" ++ [0])).2⟩)

section Requests

variable {handler : WriteResults → Handler} {c : Connection} {p r t w₁ w₂ w₃ : List Byte}

theorem IsPath.isWord (h : IsPath p) (h0 : (0 : Byte) ∉ p) : IsWord p := by
  refine ⟨fun hnil => ?_, fun a ha => ⟨(h.2 a ha).1, fun hzero => h0 (hzero ▸ ha)⟩⟩
  have hhead := h.1
  rw [hnil] at hhead
  cases hhead

/-- A request continues behind "GETFILE GET " with a slash. -/
theorem Request.slash (h : Request p r) : ∃ u, r = ascii "GETFILE GET " ++ 47 :: u := by
  cases h with
  | spaced hp =>
    obtain ⟨u, rfl⟩ := List.head?_eq_some_iff.mp hp.1
    exact ⟨_, rfl⟩
  | tight hp =>
    obtain ⟨u, rfl⟩ := List.head?_eq_some_iff.mp hp.1
    exact ⟨_, rfl⟩

/-- A space or a NUL ends the word at the start of a text with a space behind it. -/
theorem exists_stop (t : List Byte) :
    ∃ w y m, t ++ [32] = w ++ y :: m ∧ (∀ a ∈ w, a ≠ 32 ∧ a ≠ 0) ∧ (y = 32 ∨ y = 0) := by
  have hsome : ((t ++ [32]).find? fun a => decide (a = 32 ∨ a = 0)).isSome := by
    rw [List.find?_isSome]
    exact ⟨32, by simp, by simp⟩
  obtain ⟨y, hy⟩ := Option.isSome_iff_exists.mp hsome
  obtain ⟨hstop, w, m, hsplit, hw⟩ := List.find?_eq_some_iff_append.mp hy
  exact ⟨w, y, m, hsplit, fun a ha => by simpa using hw a ha, by simpa using hstop⟩

/-- The words of a buffer that starts like a request pass all checks. -/
theorem Words.of_slash (h : Words (ascii "GETFILE GET " ++ 47 :: t) w₁ w₂ w₃) :
    w₁ = ascii "GETFILE" ∧ w₂ = ascii "GET" ∧ w₃.head? = some 47 := by
  -- the third word may reach the end of the buffer, but not that of a longer one
  obtain ⟨w, y, m, hsplit, hw, hy⟩ := exists_stop t
  have hslash : IsWord (47 :: w) := by
    refine ⟨List.cons_ne_nil _ _, fun a ha => ?_⟩
    rcases List.mem_cons.mp ha with rfl | ha
    · decide
    · exact hw a ha
  have hlonger := h.append [32]
  rw [List.append_assoc, List.cons_append, hsplit] at hlonger
  obtain ⟨h₁, h₂, h₃⟩ := hlonger.unique (words_getfile (m := m) hslash hy)
  exact ⟨h₁, h₂, by rw [h₃]; rfl⟩

/-- With CR LF CR LF right behind the path, these bytes belong to the third word. -/
theorem Words.of_tight (hp : IsPath p) (h0 : (0 : Byte) ∉ p) (n : ℕ)
    (h : Words (ascii "GETFILE GET " ++ (p ++ ascii "\r\n\r\n") ++ List.replicate n 0) w₁ w₂ w₃) :
    w₃ = p ++ ascii "\r\n\r\n" := by
  obtain ⟨y, m, hrest, hy⟩ : ∃ y m, List.replicate n (0 : Byte) ++ [32] = y :: m ∧ (y = 32 ∨ y = 0) := by
    cases n with
    | zero => exact ⟨32, [], rfl, Or.inl rfl⟩
    | succ n => exact ⟨0, List.replicate n 0 ++ [32], rfl, Or.inr rfl⟩
  have hcrlf : ∀ a ∈ ascii "\r\n\r\n", a ≠ 32 ∧ a ≠ 0 := by decide +kernel
  have hword : IsWord (p ++ ascii "\r\n\r\n") := by
    refine ⟨by simp [(hp.isWord h0).1], fun a ha => ?_⟩
    rcases List.mem_append.mp ha with ha | ha
    · exact (hp.isWord h0).2 a ha
    · exact hcrlf a ha
  have hlonger := h.append [32]
  rw [List.append_assoc, List.append_assoc, hrest] at hlonger
  exact (hlonger.unique (words_getfile hword hy)).2.2

/-- Whatever follows the path and a space, the handler is called with the path. -/
theorem serveOne_rest (hr : c.received = ascii "GETFILE GET " ++ (p ++ 32 :: t)) (hp : IsPath p)
    (h0 : (0 : Byte) ∉ p) :
    ∃ b, serveOne handler c readDataInit = .ok (⟨[p], handler c.io p Sock.new⟩, b) := by
  have hwords : Words (recvInto readDataInit c.received) (ascii "GETFILE") (ascii "GET") p := by
    have h := (words_getfile (m := t) (hp.isWord h0) (Or.inl rfl)).append
      (readDataInit.drop c.received.length)
    rwa [← hr] at h
  obtain ⟨b, hserve, -⟩ := @serveOne_words handler c readDataInit _ _ _ hwords
  rw [answer, if_pos ⟨rfl, rfl, hp.1⟩] at hserve
  exact ⟨b, hserve⟩

/-- A server that follows the grammar and calls the handler has seen CR LF CR LF behind one
    space. -/
theorem GrammarOnly.spaced (h : GrammarOnly handler c)
    (hw : Words (recvInto readDataInit c.received) w₁ w₂ w₃)
    (hgood : w₁ = ascii "GETFILE" ∧ w₂ = ascii "GET" ∧ w₃.head? = some 47) :
    IsPath w₃ ∧ c.received = ascii "GETFILE GET " ++ (w₃ ++ ascii " \r\n\r\n") := by
  obtain ⟨served, b, hserve, hcase⟩ := h
  obtain ⟨b', hserve', -⟩ := @serveOne_words handler c readDataInit _ _ _ hw
  rw [hserve, answer, if_pos hgood] at hserve'
  cases hserve'
  rcases hcase with ⟨p, hrequest, hserved⟩ | ⟨-, hserved⟩
  swap
  · exact absurd (congrArg Served.handled hserved) (List.cons_ne_nil _ _)
  obtain rfl : w₃ = p := by simpa using congrArg Served.handled hserved
  generalize hr : c.received = r at hrequest
  cases hrequest with
  | spaced hp => exact ⟨hp, rfl⟩
  | tight hp =>
    -- then the handler has got CR LF CR LF as well
    rw [recvInto, readDataInit, List.drop_replicate, hr] at hw
    have hpath := hw.of_tight hp (fun h0 => (hw.2.2.1.2 0 h0).2 rfl)
    exact absurd (List.self_eq_append_right.mp hpath) (by decide)

end Requests

/-- The first connection of a server is answered by the grammar exactly if it brings a request
    with a space and without a NUL, or three words that do not pass the checks. -/
theorem grammar_only_iff (handler : WriteResults → Handler) (c : Connection) :
    GrammarOnly handler c ↔
      (∃ p, IsPath p ∧ (0 : Byte) ∉ p ∧
          c.received = ascii "GETFILE GET " ++ (p ++ ascii " \r\n\r\n")) ∨
        ∃ scheme method path, Words (recvInto readDataInit c.received) scheme method path ∧
          ¬ (scheme = ascii "GETFILE" ∧ method = ascii "GET" ∧ path.head? = some 47) := by
  constructor
  · intro h
    have hok : ∃ res, serveOne handler c readDataInit = .ok res := by
      obtain ⟨served, b, hserve, -⟩ := h
      exact ⟨_, hserve⟩
    obtain ⟨w₁, w₂, w₃, hw⟩ := serveOne_ok_iff.mp hok
    by_cases hgood : w₁ = ascii "GETFILE" ∧ w₂ = ascii "GET" ∧ w₃.head? = some 47
    · obtain ⟨hp, hr⟩ := h.spaced hw hgood
      exact Or.inl ⟨w₃, hp, fun h0 => (hw.2.2.1.2 0 h0).2 rfl, hr⟩
    · exact Or.inr ⟨w₁, w₂, w₃, hw, hgood⟩
  · rintro (⟨p, hp, h0, hr⟩ | ⟨w₁, w₂, w₃, hw, hbad⟩)
    · obtain ⟨b, hserve⟩ := @serveOne_rest handler c p (ascii "\r\n\r\n") hr hp h0
      exact ⟨_, b, hserve, Or.inl ⟨p, hr ▸ Request.spaced hp, rfl⟩⟩
    · obtain ⟨b, hserve, -⟩ := @serveOne_words handler c readDataInit _ _ _ hw
      rw [answer, if_neg hbad] at hserve
      refine ⟨_, b, hserve, Or.inr ⟨fun p hrequest => hbad ?_, rfl⟩⟩
      obtain ⟨u, hu⟩ := hrequest.slash
      rw [recvInto, hu, List.append_assoc, List.cons_append] at hw
      exact hw.of_slash

/-- The request "GETFILE GET /a" with CR LF CR LF right behind it: the path that the handler
    gets has them too. -/
theorem grammar_not_only :
    ¬ ∀ (handler : WriteResults → Handler) (c : Connection), GrammarOnly handler c := by
  intro h
  let c : Connection := ⟨ascii "GETFILE GET /a\r\n\r\n", by decide +kernel, fun _ => none⟩
  have hword : IsWord (ascii "/a\r\n\r\n") := ⟨by decide, by decide +kernel⟩
  have hw : Words (recvInto readDataInit c.received) (ascii "GETFILE") (ascii "GET")
      (ascii "/a\r\n\r\n") := words_getfile (m := List.replicate 4077 0) hword (Or.inr rfl)
  have hpath := ((h (fun _ _ s => s) c).spaced hw ⟨rfl, rfl, by decide⟩).1
  exact (hpath.2 13 (by decide)).2.1 rfl

end IntroOS.Gfserver
