import IntroOS.Gfserver.Model
import IntroOS.Gfclient.Perform

/-!
# Serving connections

What the three calls of `strtok` find in `readData`, whatever earlier requests have left
there, and what becomes of the server.

Main results:

* `tokenize_words`, `words_of_tokenize`: the three tokens are there exactly if the buffer
  starts with three words that end inside it.
* `serveOne_words`: the answer to a connection, by the words.
* `serve_request`: the request of the client reaches the handler over any history.
* `gfserverServe_ok_iff`: the histories that the server survives.
-/

namespace IntroOS.Gfserver

open CString

/-! ## Words in a buffer -/

/-- A word: neither a space nor a NUL in it. -/
def IsWord (w : List Byte) : Prop := w ≠ [] ∧ ∀ a ∈ w, a ≠ 32 ∧ a ≠ 0

/-- The buffer starts with three words, separated by spaces, and a space or a NUL ends the
    third one inside the buffer. -/
def Words (b scheme method path : List Byte) : Prop :=
  IsWord scheme ∧ IsWord method ∧ IsWord path ∧ ∃ sp₁ sp₂ sp₃ y m,
    b = sp₁ ++ (scheme ++ 32 :: (sp₂ ++ (method ++ 32 :: (sp₃ ++ (path ++ y :: m))))) ∧
      (∀ a ∈ sp₁, a = 32) ∧ (∀ a ∈ sp₂, a = 32) ∧ (∀ a ∈ sp₃, a = 32) ∧ (y = 32 ∨ y = 0)

section Strtok

variable {b b' sp w m : List Byte} {i k : ℕ} {y : Byte} {o : Option ℕ}

theorem mem_space {a : Byte} : a ∈ ascii " " ↔ a = 32 := by
  have h : ascii " " = [32] := by decide
  rw [h, List.mem_singleton]

theorem zero_not_mem_spaces (hsp : ∀ a ∈ sp, a = 32) : (0 : Byte) ∉ sp :=
  fun h => absurd (hsp 0 h) (by decide)

/-- `strtok` finds a word that ends inside the buffer. -/
theorem strtokAt_word (hb : b.drop i = sp ++ (w ++ y :: m)) (hsp : ∀ a ∈ sp, a = 32)
    (hw : IsWord w) (hy : y = 32 ∨ y = 0) :
    ∃ p k b', strtokAt b i (ascii " ") = .ok (some p, k, b') ∧ cstr b' p = .ok w ∧
      p + w.length ≤ k ∧ i ≤ k ∧ b'.length = b.length ∧ (y = 32 → b'.drop k = m) := by
  have hspd : ∀ a ∈ sp, a ∈ ascii " " := fun a ha => mem_space.mpr (hsp a ha)
  have hwd : ∀ a ∈ w, a ∉ ascii " " := fun a ha h => (hw.2 a ha).1 (mem_space.mp h)
  have hw0 : (0 : Byte) ∉ w := fun h => (hw.2 0 h).2 rfl
  have hrest : b.drop (i + sp.length) = w ++ y :: m := drop_after hb
  rcases hy with rfl | rfl
  · refine ⟨_, _, _, strtokAt_ended hb hspd (zero_not_mem_spaces hsp) hw.1 hwd hw0
      (mem_space.mpr rfl) (by decide), ?_, by omega, by omega, List.length_set, fun _ => ?_⟩
    · refine cstr_eq_ok_iff.mpr ⟨hw0, m, ?_⟩
      rw [drop_set_le _ (by omega), hrest, List.set_append_right _ _ (by omega)]
      simp
    · rw [List.drop_set_of_lt (by omega), ← List.drop_drop, drop_after hrest, List.drop_one,
        List.tail_cons]
  · refine ⟨_, _, _, strtokAt_open hb hspd (zero_not_mem_spaces hsp) hw.1 hwd hw0,
      cstr_eq_ok_iff.mpr ⟨hw0, m, hrest⟩, le_rfl, by omega, rfl, fun h => absurd h (by decide)⟩

/-- A call that succeeds has found a word, or it stands at a NUL. -/
theorem strtokAt_inv (h : strtokAt b i (ascii " ") = .ok (o, k, b')) :
    (o = none ∧ b' = b ∧ ∃ m, b.drop k = 0 :: m) ∨
      ∃ p sp w y m, o = some p ∧ b.drop i = sp ++ (w ++ y :: m) ∧ (∀ a ∈ sp, a = 32) ∧ IsWord w ∧
        (y = 32 ∧ b'.drop k = m ∨ y = 0 ∧ b'.drop k = 0 :: m) := by
  obtain ⟨sp, w, m, hb, hsp, h0, hwd, hw0, hm⟩ := strtokAt_shape b i (ascii " ")
  have hsp' : ∀ a ∈ sp, a = 32 := fun a ha => mem_space.mp (hsp a ha)
  have hword : w ≠ [] → IsWord w := fun hne =>
    ⟨hne, fun a ha => ⟨fun h => hwd a ha (mem_space.mpr h), fun h => hw0 (h ▸ ha)⟩⟩
  rcases hm with rfl | ⟨m', rfl⟩ | ⟨hne, y, m', rfl, hy, hy0⟩
  · rw [List.append_nil] at hb
    rw [strtokAt_overrun hb hsp h0 hwd hw0] at h
    cases h
  · rcases eq_or_ne w [] with rfl | hne
    · rw [strtokAt_blank hb hsp h0] at h
      cases h
      exact Or.inl ⟨rfl, rfl, m', drop_after hb⟩
    · rw [strtokAt_open hb hsp h0 hne hwd hw0] at h
      cases h
      exact Or.inr ⟨_, sp, w, 0, m', rfl, hb, hsp', hword hne,
        Or.inr ⟨rfl, drop_after (drop_after hb)⟩⟩
  · obtain rfl : y = 32 := mem_space.mp hy
    rw [strtokAt_ended hb hsp h0 hne hwd hw0 hy hy0] at h
    cases h
    refine Or.inr ⟨_, sp, w, 32, m', rfl, hb, hsp', hword hne, Or.inl ⟨rfl, ?_⟩⟩
    rw [List.drop_set_of_lt (by omega), ← List.drop_drop, drop_after (drop_after hb), List.drop_one,
      List.tail_cons]

/-- A call that starts at a NUL finds nothing. -/
theorem strtokAt_nul (hb : b.drop i = 0 :: m) : strtokAt b i (ascii " ") = .ok (none, i, b) := by
  have h := @strtokAt_blank b (ascii " ") [] m i (by simpa using hb) (by simp) (by simp)
  simpa using h

end Strtok

/-! ## The three tokens -/

section Tokenize

variable {b b' w₁ w₂ w₃ : List Byte}

theorem tokenize_words (h : Words b w₁ w₂ w₃) :
    ∃ p₁ p₂ p₃ b', tokenize b = .ok (⟨some p₁, some p₂, some p₃⟩, b') ∧ b'.length = b.length ∧
      cstr b' p₁ = .ok w₁ ∧ cstr b' p₂ = .ok w₂ ∧ cstr b' p₃ = .ok w₃ := by
  obtain ⟨hw₁, hw₂, hw₃, sp₁, sp₂, sp₃, y, m, hb, h₁, h₂, h₃, hy⟩ := h
  obtain ⟨p₁, k₁, b₁, hs₁, hc₁, hle₁, -, hlen₁, hd₁⟩ :=
    strtokAt_word (i := 0) (b := b) (by simpa using hb) h₁ hw₁ (Or.inl rfl)
  obtain ⟨p₂, k₂, b₂, hs₂, hc₂, hle₂, hik₂, hlen₂, hd₂⟩ :=
    strtokAt_word (hd₁ rfl) h₂ hw₂ (Or.inl rfl)
  obtain ⟨p₃, k₃, b₃, hs₃, hc₃, hle₃, hik₃, hlen₃, -⟩ := strtokAt_word (hd₂ rfl) h₃ hw₃ hy
  refine ⟨p₁, p₂, p₃, b₃, ?_, by omega, ?_, ?_, hc₃⟩
  · simp only [tokenize, hs₁, hs₂, hs₃, bind, Except.bind, pure, Except.pure]
  · exact strtokAt_keeps hs₃ (strtokAt_keeps hs₂ hc₁ hle₁) (by omega)
  · exact strtokAt_keeps hs₃ hc₂ hle₂

/-- The words of a buffer are determined by it. -/
theorem Words.unique {w₁' w₂' w₃' : List Byte} (h : Words b w₁ w₂ w₃) (h' : Words b w₁' w₂' w₃') :
    w₁ = w₁' ∧ w₂ = w₂' ∧ w₃ = w₃' := by
  obtain ⟨p₁, p₂, p₃, b₁, htok, -, hc₁, hc₂, hc₃⟩ := tokenize_words h
  obtain ⟨p₁', p₂', p₃', b₂, htok', -, hc₁', hc₂', hc₃'⟩ := tokenize_words h'
  rw [htok] at htok'
  cases htok'
  rw [hc₁, Except.ok.injEq] at hc₁'
  rw [hc₂, Except.ok.injEq] at hc₂'
  rw [hc₃, Except.ok.injEq] at hc₃'
  exact ⟨hc₁', hc₂', hc₃'⟩

/-- The three calls behind a tokenisation that succeeds. -/
theorem tokenize_ok {tokens : Tokens} (h : tokenize b = .ok (tokens, b')) :
    ∃ k₁ b₁ k₂ b₂ k₃, strtokAt b 0 (ascii " ") = .ok (tokens.scheme, k₁, b₁) ∧
      strtokAt b₁ k₁ (ascii " ") = .ok (tokens.method, k₂, b₂) ∧
      strtokAt b₂ k₂ (ascii " ") = .ok (tokens.filenamerecvcli, k₃, b') := by
  unfold tokenize at h
  cases hs₁ : strtokAt b 0 (ascii " ") with
  | error f => rw [hs₁] at h; cases h
  | ok r₁ =>
    obtain ⟨o₁, k₁, b₁⟩ := r₁
    simp only [hs₁, bind, Except.bind] at h
    cases hs₂ : strtokAt b₁ k₁ (ascii " ") with
    | error f => rw [hs₂] at h; cases h
    | ok r₂ =>
      obtain ⟨o₂, k₂, b₂⟩ := r₂
      simp only [hs₂] at h
      cases hs₃ : strtokAt b₂ k₂ (ascii " ") with
      | error f => rw [hs₃] at h; cases h
      | ok r₃ =>
        obtain ⟨o₃, k₃, b₃⟩ := r₃
        simp only [hs₃, pure, Except.pure, Except.ok.injEq, Prod.mk.injEq] at h
        obtain ⟨rfl, rfl⟩ := h
        exact ⟨k₁, b₁, k₂, b₂, k₃, rfl, hs₂, hs₃⟩

theorem words_of_tokenize {tokens : Tokens} {p₃ : ℕ} (h : tokenize b = .ok (tokens, b'))
    (hp : tokens.filenamerecvcli = some p₃) : ∃ w₁ w₂ w₃, Words b w₁ w₂ w₃ := by
  obtain ⟨k₁, b₁, k₂, b₂, k₃, hs₁, hs₂, hs₃⟩ := tokenize_ok h
  rw [hp] at hs₃
  -- a call that stands at a NUL leaves nothing to the later ones
  have hthird : ∀ m, b₂.drop k₂ ≠ 0 :: m := by
    intro m hb
    rw [strtokAt_nul hb] at hs₃
    cases hs₃
  have hsecond : ∀ m, b₁.drop k₁ ≠ 0 :: m := by
    intro m hb
    rw [strtokAt_nul hb, Except.ok.injEq, Prod.mk.injEq, Prod.mk.injEq] at hs₂
    obtain ⟨-, rfl, rfl⟩ := hs₂
    exact hthird m hb
  rcases strtokAt_inv hs₁ with ⟨-, rfl, m, hm⟩ | ⟨_, sp₁, w₁, y₁, m₁, -, hb₁, hsp₁, hw₁, hy₁⟩
  · exact absurd hm (hsecond m)
  rcases hy₁ with ⟨rfl, hm₁⟩ | ⟨-, hm₁⟩
  swap
  · exact absurd hm₁ (hsecond m₁)
  rcases strtokAt_inv hs₂ with ⟨-, rfl, m, hm⟩ | ⟨_, sp₂, w₂, y₂, m₂, -, hb₂, hsp₂, hw₂, hy₂⟩
  · exact absurd hm (hthird m)
  rcases hy₂ with ⟨rfl, hm₂⟩ | ⟨-, hm₂⟩
  swap
  · exact absurd hm₂ (hthird m₂)
  rcases strtokAt_inv hs₃ with ⟨hnone, -⟩ | ⟨_, sp₃, w₃, y₃, m₃, -, hb₃, hsp₃, hw₃, hy₃⟩
  · cases hnone
  refine ⟨w₁, w₂, w₃, hw₁, hw₂, hw₃, sp₁, sp₂, sp₃, y₃, m₃, ?_, hsp₁, hsp₂, hsp₃,
    hy₃.imp And.left And.left⟩
  rw [← hb₃, hm₂, ← hb₂, hm₁, ← hb₁, List.drop_zero]

end Tokenize

/-! ## One connection -/

/-- The answer to a request with three words. -/
def answer (handler : WriteResults → Handler) (c : Connection) (scheme method path : List Byte) :
    Served :=
  if scheme = ascii "GETFILE" ∧ method = ascii "GET" ∧ path.head? = some 47 then
    ⟨[path], handler c.io path Sock.new⟩
  else ⟨[], (write c.io Sock.new (ascii "GETFILE FILE_NOT_FOUND  \r\n\r\n" ++ [0])).2⟩

section ServeOne

variable {handler : WriteResults → Handler} {c : Connection} {b w₁ w₂ w₃ : List Byte}

theorem serveOne_words (h : Words (recvInto b c.received) w₁ w₂ w₃) :
    ∃ b', serveOne handler c b = .ok (answer handler c w₁ w₂ w₃, b') ∧
      b'.length = (recvInto b c.received).length := by
  obtain ⟨p₁, p₂, p₃, b', htok, hlen, hc₁, hc₂, hc₃⟩ := tokenize_words h
  obtain ⟨-, -, hw₃, -⟩ := h
  obtain ⟨x, u, rfl⟩ := List.exists_cons_of_ne_nil hw₃.1
  have hx : b'.getD p₃ 0 = x := cstr_head hc₃
  have hbad : badRequest b' ⟨some p₁, some p₂, some p₃⟩ x =
      .ok (!decide (w₁ = ascii "GETFILE" ∧ w₂ = ascii "GET" ∧ (x :: u).head? = some 47)) := by
    simp only [badRequest, strcmpNe, hc₁, hc₂, Except.map, bind, Except.bind, pure, Except.pure]
    by_cases h₁ : w₁ = ascii "GETFILE"
    · by_cases h₂ : w₂ = ascii "GET"
      · by_cases h₃ : x = 47 <;> simp [h₁, h₂, h₃]
      · simp [h₁, h₂]
    · simp [h₁]
  refine ⟨b', ?_, hlen⟩
  unfold serveOne answer
  simp only [htok, bind, Except.bind, hx, hbad, hc₃, pure, Except.pure]
  by_cases hgood : w₁ = ascii "GETFILE" ∧ w₂ = ascii "GET" ∧ (x :: u).head? = some 47
  · rw [if_pos hgood, decide_eq_true hgood]
    rfl
  · rw [if_neg hgood, decide_eq_false hgood]
    rfl

/-- The server survives a connection exactly if its buffer then starts with three words. -/
theorem serveOne_ok_iff :
    (∃ res, serveOne handler c b = .ok res) ↔
      ∃ w₁ w₂ w₃, Words (recvInto b c.received) w₁ w₂ w₃ := by
  constructor
  · rintro ⟨res, h⟩
    unfold serveOne at h
    cases htok : tokenize (recvInto b c.received) with
    | error f => rw [htok] at h; cases h
    | ok r =>
      obtain ⟨tokens, b'⟩ := r
      simp only [htok, bind, Except.bind] at h
      cases hp : tokens.filenamerecvcli with
      | none => rw [hp] at h; cases h
      | some p₃ => exact words_of_tokenize htok hp
  · rintro ⟨w₁, w₂, w₃, h⟩
    obtain ⟨b', hb', -⟩ := serveOne_words h
    exact ⟨_, hb'⟩

theorem recvInto_length (hb : b.length = BUFSIZE) : (recvInto b c.received).length = BUFSIZE := by
  have := c.le
  simp only [recvInto, List.length_append, List.length_drop]
  omega

/-- Serving a connection keeps the size of `readData`. -/
theorem serveOne_length {served : Served} {b' : List Byte} (hb : b.length = BUFSIZE)
    (h : serveOne handler c b = .ok (served, b')) : b'.length = BUFSIZE := by
  obtain ⟨w₁, w₂, w₃, hw⟩ := serveOne_ok_iff.mp ⟨_, h⟩
  obtain ⟨b'', hb'', hlen⟩ := serveOne_words hw
  rw [hb''] at h
  cases h
  rw [hlen, recvInto_length hb]

end ServeOne

/-! ## Histories -/

section History

variable {handler : WriteResults → Handler} {c : Connection} {cs : List Connection}
  {b b' : List Byte} {served : List Served}

theorem gfserverServe_cons (served₁ : Served) (h : serveOne handler c b = .ok (served₁, b')) :
    gfserverServe handler (c :: cs) b =
      (gfserverServe handler cs b').map fun r => (served₁ :: r.1, r.2) := by
  simp only [gfserverServe, h, bind, Except.bind, pure, Except.pure]
  cases gfserverServe handler cs b' <;> rfl

theorem gfserverServe_ok_cons {res : List Served × List Byte}
    (h : gfserverServe handler (c :: cs) b = .ok res) :
    ∃ served₁ b', serveOne handler c b = .ok (served₁, b') ∧
      ∃ rest, gfserverServe handler cs b' = .ok rest ∧ res = (served₁ :: rest.1, rest.2) := by
  cases hs : serveOne handler c b with
  | error f => simp [gfserverServe, hs, bind, Except.bind] at h
  | ok r =>
    obtain ⟨served₁, b'⟩ := r
    rw [gfserverServe_cons served₁ hs] at h
    cases hrest : gfserverServe handler cs b' with
    | error f => rw [hrest] at h; cases h
    | ok rest =>
      rw [hrest] at h
      cases h
      exact ⟨served₁, b', rfl, rest, hrest, rfl⟩

/-- A server that is still running serves the next connection from the buffer it has. -/
theorem gfserverServe_concat {b₁ : List Byte} {served₁ : Served}
    (h : gfserverServe handler cs b = .ok (served, b₁))
    (h₁ : serveOne handler c b₁ = .ok (served₁, b')) :
    gfserverServe handler (cs ++ [c]) b = .ok (served ++ [served₁], b') := by
  induction cs generalizing b served with
  | nil =>
    cases h
    rw [List.nil_append, gfserverServe_cons served₁ h₁]
    rfl
  | cons d cs ih =>
    obtain ⟨served₂, b₂, hs, ⟨served', b₃⟩, hrest, heq⟩ := gfserverServe_ok_cons h
    simp only [Prod.mk.injEq] at heq
    obtain ⟨rfl, rfl⟩ := heq
    rw [List.cons_append, gfserverServe_cons served₂ hs, ih hrest]
    rfl

/-- The server survives a history exactly if, at each connection, the buffer starts with three
    words after `recv`. -/
theorem gfserverServe_ok_iff :
    (∃ res, gfserverServe handler cs b = .ok res) ↔
      ∀ pre c post, cs = pre ++ c :: post → ∀ served b₁,
        gfserverServe handler pre b = .ok (served, b₁) →
          ∃ w₁ w₂ w₃, Words (recvInto b₁ c.received) w₁ w₂ w₃ := by
  induction cs generalizing b with
  | nil => simp [gfserverServe]
  | cons d cs ih =>
    constructor
    · rintro ⟨res, h⟩ pre c post heq served b₁ hpre
      obtain ⟨served₁, b₂, hs, rest, hrest, -⟩ := gfserverServe_ok_cons h
      rcases List.cons_eq_append_iff.mp heq with ⟨rfl, hcs⟩ | ⟨pre', rfl, hcs⟩
      · cases hcs
        cases hpre
        exact serveOne_ok_iff.mp ⟨_, hs⟩
      · obtain ⟨served₂, b₃, hs', ⟨served', b₄⟩, hpre', hres⟩ := gfserverServe_ok_cons hpre
        rw [hs] at hs'
        cases hs'
        cases hres
        exact ih.mp ⟨rest, hrest⟩ pre' c post hcs served' b₄ hpre'
    · intro h
      have hserve : ∃ res, serveOne handler d b = .ok res :=
        serveOne_ok_iff.mpr (h [] d cs rfl [] b rfl)
      obtain ⟨⟨served₁, b₂⟩, hs⟩ := hserve
      obtain ⟨rest, hrest⟩ := ih.mpr fun pre c post heq served b₁ hpre =>
        h (d :: pre) c post (by rw [heq]; rfl) (served₁ :: served) b₁ (by
          rw [gfserverServe_cons served₁ hs, hpre]
          rfl)
      exact ⟨_, (gfserverServe_cons served₁ hs).trans (by rw [hrest]; rfl)⟩

end History

/-! ## Requests of the client -/

/-- A path that the client can ask for. -/
structure Path where
  bytes : List Byte
  slash : bytes.head? = some 47
  clean : ∀ a ∈ bytes, a ≠ 32 ∧ a ≠ 0
  le : bytes.length ≤ 256

theorem Path.isWord (p : Path) : IsWord p.bytes := by
  refine ⟨fun h => ?_, p.clean⟩
  have := p.slash
  rw [h] at this
  cases this

/-- A connection whose `recv` delivers the request of the client for `p`. -/
def Path.connection (p : Path) (io : WriteResults) : Connection where
  received := Gfclient.clientscheme p.bytes
  le := by
    have h₁ : (ascii "GETFILE GET ").length = 12 := by decide
    have h₂ : (ascii " \r\n\r\n").length = 5 := by decide
    have := p.le
    simp only [Gfclient.clientscheme, List.length_append, h₁, h₂]
    unfold BUFSIZE
    omega
  io := io

/-- The words of a buffer that starts like a request. -/
theorem words_getfile {p m : List Byte} {y : Byte} (hp : IsWord p) (hy : y = 32 ∨ y = 0) :
    Words (ascii "GETFILE GET " ++ (p ++ y :: m)) (ascii "GETFILE") (ascii "GET") p := by
  have hget : IsWord (ascii "GETFILE") ∧ IsWord (ascii "GET") := by
    constructor <;> exact ⟨by decide, by decide +kernel⟩
  refine ⟨hget.1, hget.2, hp, [], [], [], y, m, ?_, by simp, by simp, by simp, hy⟩
  have hscheme : ascii "GETFILE GET " = ascii "GETFILE" ++ 32 :: ascii "GET" ++ [32] := by decide
  simp only [hscheme, List.append_assoc, List.cons_append, List.nil_append]

/-- The words of a request of the client, whatever the buffer held before. -/
theorem Path.words (p : Path) (io : WriteResults) (b : List Byte) :
    Words (recvInto b (p.connection io).received) (ascii "GETFILE") (ascii "GET") p.bytes := by
  have hend : ascii " \r\n\r\n" = 32 :: ascii "\r\n\r\n" := by decide
  have h := words_getfile (m := ascii "\r\n\r\n" ++ b.drop (p.connection io).received.length)
    p.isWord (Or.inl rfl)
  simpa only [recvInto, Path.connection, Gfclient.clientscheme, hend, List.append_assoc,
    List.cons_append] using h

theorem Path.answer (p : Path) (handler : WriteResults → Handler) (io : WriteResults) :
    Gfserver.answer handler (p.connection io) (ascii "GETFILE") (ascii "GET") p.bytes =
      ⟨[p.bytes], handler io p.bytes Sock.new⟩ :=
  if_pos ⟨rfl, rfl, p.slash⟩

/-- Over any history that the server has survived, a request of the client is answered by one
    call of the handler, with its path, and by nothing else. -/
theorem serve_request (handler : WriteResults → Handler) (history : List Connection) (p : Path)
    (io : WriteResults) {served : List Served} {b : List Byte}
    (h : gfserverServe handler history readDataInit = .ok (served, b)) :
    ∃ b', gfserverServe handler (history ++ [p.connection io]) readDataInit =
      .ok (served ++ [⟨[p.bytes], handler io p.bytes Sock.new⟩], b') := by
  obtain ⟨b', hb', -⟩ := serveOne_words (p.words io b)
  rw [p.answer handler io] at hb'
  exact ⟨b', gfserverServe_concat h hb'⟩

theorem clean_a : ∀ a ∈ ascii "/a", a ≠ 32 ∧ a ≠ 0 := by decide +kernel

/-- Two requests one after the other. -/
theorem serve_request_twice :
    ∃ b', gfserverServe (fun _ _ s => s)
      ([] ++ [Path.connection ⟨ascii "/long/path", by decide, by decide +kernel, by decide⟩ fun _ => none] ++
        [Path.connection ⟨ascii "/a", by decide, clean_a, by decide⟩ fun _ => none])
      readDataInit =
      .ok ([] ++ [⟨[ascii "/long/path"], Sock.new⟩] ++ [⟨[ascii "/a"], Sock.new⟩], b') := by
  obtain ⟨b, hb⟩ := serve_request (fun _ _ s => s) []
    ⟨ascii "/long/path", by decide, by decide +kernel, by decide⟩ (fun _ => none) rfl
  exact serve_request (fun _ _ s => s) _ ⟨ascii "/a", by decide, clean_a, by decide⟩
    (fun _ => none) hb

/-! ## Surviving the clients -/

/-- The server survives a history exactly if every connection leaves three words at the start
    of the buffer, the last of them ended inside it: given by the bytes that were there when
    it was accepted and those it delivers. -/
theorem gfserverServe_survives_iff (handler : WriteResults → Handler) (cs : List Connection) :
    (∃ res, gfserverServe handler cs readDataInit = .ok res) ↔
      ∀ pre c post, cs = pre ++ c :: post → ∀ served readData,
        gfserverServe handler pre readDataInit = .ok (served, readData) →
          ∃ scheme method path, Words (recvInto readData c.received) scheme method path :=
  gfserverServe_ok_iff

/-- A first connection that delivers nothing: `*filenamerecvcli` reads a null pointer. -/
theorem not_survives_silent :
    ¬ ∀ (handler : WriteResults → Handler) (cs : List Connection),
      ∃ res, gfserverServe handler cs readDataInit = .ok res := by
  intro h
  obtain ⟨w₁, w₂, w₃, hw₁, -, -, sp₁, sp₂, sp₃, y, m, hb, -⟩ := gfserverServe_ok_iff.mp
    (h (fun _ _ s => s) [⟨[], by decide, fun _ => none⟩]) [] _ [] rfl [] readDataInit rfl
  obtain ⟨x, u, rfl⟩ := List.exists_cons_of_ne_nil hw₁.1
  have hx : x ∈ recvInto readDataInit [] := by rw [hb]; simp
  exact (hw₁.2 x (by simp)).2 (List.eq_of_mem_replicate hx)

end IntroOS.Gfserver
