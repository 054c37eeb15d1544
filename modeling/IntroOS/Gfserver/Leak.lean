import IntroOS.Gfserver.Serve

/-!
# What earlier connections leave behind

`readData` is cleared once, before the loop of `gfserver_serve`. What the server decides for a
connection may depend on the bytes that earlier connections have left behind those it delivers.

Main results:

* `words_iff_scan`: the three words of a buffer, found byte by byte.
* `history_buffer`, `history_of_cut`: the buffers that a history can leave.
* `stale_path`: bytes of an earlier connection end up in the path.
* `decision_independent_iff`: the decision depends on the bytes of the connection only, exactly
  if these bytes determine it.
-/

namespace IntroOS.Gfserver

open CString

/-! ## Scanning a buffer -/

/-- How far the three calls of `strtok` have come. -/
inductive Scan
  /-- between words, `begun` words have begun -/
  | gap (begun : ℕ)
  /-- in a word, the last of the `begun` words -/
  | word (begun : ℕ)
  /-- behind the third word -/
  | done
  /-- behind a NUL in front of the third word -/
  | dead
  deriving DecidableEq

namespace Scan

def step : Scan → Byte → Scan
  | gap k, x => if x = 32 then gap k else if x = 0 then dead else word (k + 1)
  | word k, x =>
    if x = 32 then if k = 3 then done else gap k
    else if x = 0 then if k = 3 then done else dead
    else word k
  | done, _ => done
  | dead, _ => dead

/-- The bytes `b` from the state `s` on. -/
def run (s : Scan) (b : List Byte) : Scan := b.foldl step s

/-- How many words have begun. -/
def begun : Scan → ℕ
  | gap k | word k => k
  | done | dead => 3

/-- How many bytes the rest of the three words takes at least. -/
def need : Scan → ℕ
  | gap k => 2 * (3 - k)
  | word k => 2 * (3 - k) + 1
  | done | dead => 0

variable {s : Scan} {b sp w t : List Byte} {k : ℕ} {y : Byte}

theorem run_cons (s : Scan) (x : Byte) (b : List Byte) : s.run (x :: b) = (s.step x).run b := rfl

theorem run_append (s : Scan) (b t : List Byte) : s.run (b ++ t) = (s.run b).run t :=
  List.foldl_append

theorem run_done (b : List Byte) : done.run b = done := by
  induction b with
  | nil => rfl
  | cons x b ih => exact ih

theorem run_dead (b : List Byte) : dead.run b = dead := by
  induction b with
  | nil => rfl
  | cons x b ih => exact ih

theorem run_spaces (hsp : ∀ a ∈ sp, a = 32) : (gap k).run sp = gap k := by
  induction sp with
  | nil => rfl
  | cons x sp ih =>
    obtain rfl := hsp x List.mem_cons_self
    exact ih fun a ha => hsp a (List.mem_cons_of_mem _ ha)

/-- Bytes of a word that has begun. -/
theorem run_letters (hw : ∀ a ∈ w, a ≠ 32 ∧ a ≠ 0) : (word k).run w = word k := by
  induction w with
  | nil => rfl
  | cons x w ih =>
    obtain ⟨h₁, h₂⟩ := hw x List.mem_cons_self
    have hx : (word k).step x = word k := by simp [step, h₁, h₂]
    rw [run, List.foldl_cons, hx]
    exact ih fun a ha => hw a (List.mem_cons_of_mem _ ha)

theorem run_word (hw : IsWord w) : (gap k).run w = word (k + 1) := by
  obtain ⟨hne, hw⟩ := hw
  obtain ⟨x, u, rfl⟩ := List.exists_cons_of_ne_nil hne
  obtain ⟨h₁, h₂⟩ := hw x List.mem_cons_self
  have hx : (gap k).step x = word (k + 1) := by simp [step, h₁, h₂]
  rw [run, List.foldl_cons, hx]
  exact run_letters fun a ha => hw a (List.mem_cons_of_mem _ ha)

/-- Spaces, and a word behind them or a part of one. -/
theorem run_gap (hsp : ∀ a ∈ sp, a = 32) (hw : ∀ a ∈ w, a ≠ 32 ∧ a ≠ 0) :
    (gap k).run (sp ++ w) = gap k ∨ (gap k).run (sp ++ w) = word (k + 1) := by
  rw [run_append, run_spaces hsp]
  rcases eq_or_ne w [] with rfl | hne
  · exact Or.inl rfl
  · exact Or.inr (run_word ⟨hne, hw⟩)

theorem step_gap (k : ℕ) (x : Byte) :
    (gap k).step x = if x = 32 then gap k else if x = 0 then dead else word (k + 1) := rfl

theorem step_word (k : ℕ) (x : Byte) :
    (word k).step x = if x = 32 then if k = 3 then done else gap k
      else if x = 0 then if k = 3 then done else dead else word k := rfl

/-- A byte brings the end of the third word nearer by one at most. -/
theorem need_le_step (s : Scan) (x : Byte) (h : s.step x ≠ dead) :
    s.need ≤ (s.step x).need + 1 := by
  cases s with
  | gap k =>
    rw [step_gap] at h ⊢
    split_ifs at h ⊢ with h₁ h₂
    · exact Nat.le_succ _
    · exact absurd rfl h
    · simp only [need]; omega
  | word k =>
    rw [step_word] at h ⊢
    split_ifs at h ⊢ with h₁ h₂ h₃ h₄
    · subst h₂; simp [need]
    · simp [need]
    · subst h₄; simp [need]
    · exact absurd rfl h
    · exact Nat.le_succ _
  | done => exact Nat.zero_le _
  | dead => exact absurd rfl h

theorem need_le_run (s : Scan) (b : List Byte) (h : s.run b ≠ dead) :
    s.need ≤ (s.run b).need + b.length := by
  induction b generalizing s with
  | nil => exact Nat.le_refl _
  | cons x b ih =>
    have hx : s.step x ≠ dead := fun hdead => by
      rw [run, List.foldl_cons, hdead] at h
      exact h (run_dead b)
    have h₁ := need_le_step s x hx
    have h₂ := ih (s.step x) h
    rw [run, List.foldl_cons, List.length_cons]
    exact h₁.trans (by rw [run] at h₂; omega)

/-- No more than three words begin. -/
def Valid : Scan → Prop
  | gap k => k ≤ 2
  | word k => k ≤ 3
  | done | dead => True

theorem Valid.step (h : s.Valid) (x : Byte) : (s.step x).Valid := by
  cases s with
  | gap k =>
    rw [step_gap]
    split_ifs
    · exact h
    · trivial
    · exact Nat.succ_le_succ h
  | word k =>
    have hk : k ≤ 3 := h
    rw [step_word]
    split_ifs with h₁ h₂ h₃ h₄
    · trivial
    · exact (show k ≤ 2 by omega)
    · trivial
    · trivial
    · exact h
  | done => trivial
  | dead => trivial

theorem Valid.run (h : s.Valid) (b : List Byte) : (s.run b).Valid := by
  induction b generalizing s with
  | nil => exact h
  | cons x b ih => exact ih (h.step x)

/-- Some bytes complete the three words. -/
theorem exists_completion (h : s.Valid) (hs : s ≠ dead) :
    ∃ t, t.length = s.need ∧ s.run t = done := by
  cases s with
  | gap k =>
    have hk : k ≤ 2 := h
    obtain rfl | rfl | rfl : k = 0 ∨ k = 1 ∨ k = 2 := by omega
    · exact ⟨ascii "x x x ", by decide, by decide⟩
    · exact ⟨ascii "x x ", by decide, by decide⟩
    · exact ⟨ascii "x ", by decide, by decide⟩
  | word k =>
    have hk : k ≤ 3 := h
    obtain rfl | rfl | rfl | rfl : k = 0 ∨ k = 1 ∨ k = 2 ∨ k = 3 := by omega
    · exact ⟨ascii " x x x ", by decide, by decide⟩
    · exact ⟨ascii " x x ", by decide, by decide⟩
    · exact ⟨ascii " x ", by decide, by decide⟩
    · exact ⟨ascii " ", by decide, by decide⟩
  | done => exact ⟨[], rfl, rfl⟩
  | dead => exact absurd rfl hs

end Scan

/-! ## The words of a scanned buffer -/

section WordsScan

open Scan

variable {b sp w m r t w₁ w₂ w₃ : List Byte} {k : ℕ} {y : Byte}

theorem Words.scan (h : Words b w₁ w₂ w₃) : (gap 0).run b = done := by
  obtain ⟨hw₁, hw₂, hw₃, sp₁, sp₂, sp₃, y, m, rfl, h₁, h₂, h₃, hy⟩ := h
  have hnext : ∀ k, k ≠ 3 → ∀ l, (word k).run (32 :: l) = (gap k).run l := by
    intro k hk l
    have hstep : (word k).step 32 = gap k := by simp [step_word, hk]
    rw [run, List.foldl_cons, hstep, run]
  have hlast : (word 3).step y = done := by
    rcases hy with rfl | rfl <;> decide
  rw [run_append, run_spaces h₁, run_append, run_word hw₁, hnext 1 (by omega), run_append,
    run_spaces h₂, run_append, run_word hw₂, hnext 2 (by omega), run_append, run_spaces h₃,
    run_append, run_word hw₃, run, List.foldl_cons, hlast]
  exact run_done m

/-- One word of a buffer in which three words end. -/
theorem run_done_cases (h : (gap k).run b = done) :
    ∃ sp w y m, b = sp ++ (w ++ y :: m) ∧ (∀ a ∈ sp, a = 32) ∧ IsWord w ∧
      (k = 2 ∧ (y = 32 ∨ y = 0) ∨ k ≠ 2 ∧ y = 32 ∧ (gap (k + 1)).run m = done) := by
  obtain ⟨sp, w, m, hb, hsp, h0, hwd, hw0, hm⟩ := strtokAt_shape b 0 (ascii " ")
  rw [List.drop_zero] at hb
  have hsp' : ∀ a ∈ sp, a = 32 := fun a ha => mem_space.mp (hsp a ha)
  have hw : ∀ a ∈ w, a ≠ 32 ∧ a ≠ 0 := fun a ha =>
    ⟨fun h => hwd a ha (mem_space.mpr h), fun h => hw0 (h ▸ ha)⟩
  have hrun := run_gap (k := k) hsp' hw
  rw [hb, ← List.append_assoc, run_append] at h
  rcases hm with rfl | ⟨m', rfl⟩ | ⟨hne, y, m', rfl, hy, -⟩
  · rcases hrun with hrun | hrun <;> rw [hrun] at h <;> cases h
  · rcases eq_or_ne w [] with rfl | hne
    · rw [List.append_nil, run_spaces hsp', run, List.foldl_cons, step_gap] at h
      exact absurd ((run_dead m').symm.trans h) (by decide)
    · rw [run_append, run_spaces hsp', run_word ⟨hne, hw⟩, run, List.foldl_cons, step_word] at h
      rcases eq_or_ne (k + 1) 3 with hk | hk
      · exact ⟨sp, w, 0, m', hb, hsp', ⟨hne, hw⟩, Or.inl ⟨by omega, Or.inr rfl⟩⟩
      · rw [if_neg (by decide), if_pos rfl, if_neg hk] at h
        exact absurd ((run_dead m').symm.trans h) (by decide)
  · obtain rfl : y = 32 := mem_space.mp hy
    rcases eq_or_ne k 2 with hk | hk
    · exact ⟨sp, w, 32, m', hb, hsp', ⟨hne, hw⟩, Or.inl ⟨hk, Or.inl rfl⟩⟩
    · rw [run_append, run_spaces hsp', run_word ⟨hne, hw⟩, run, List.foldl_cons, step_word,
        if_pos rfl, if_neg (by omega)] at h
      exact ⟨sp, w, 32, m', hb, hsp', ⟨hne, hw⟩, Or.inr ⟨hk, rfl, h⟩⟩

/-- The scan of a buffer ends well exactly if the buffer starts with three words. -/
theorem words_iff_scan : (∃ w₁ w₂ w₃, Words b w₁ w₂ w₃) ↔ (gap 0).run b = done := by
  constructor
  · rintro ⟨w₁, w₂, w₃, h⟩
    exact h.scan
  · intro h
    obtain ⟨sp₁, w₁, y₁, m₁, rfl, h₁, hw₁, ⟨hk, -⟩ | ⟨-, rfl, hm₁⟩⟩ := run_done_cases h
    · cases hk
    obtain ⟨sp₂, w₂, y₂, m₂, rfl, h₂, hw₂, ⟨hk, -⟩ | ⟨-, rfl, hm₂⟩⟩ := run_done_cases hm₁
    · cases hk
    obtain ⟨sp₃, w₃, y₃, m₃, rfl, h₃, hw₃, ⟨-, hy⟩ | ⟨hk, -⟩⟩ := run_done_cases hm₂
    · exact ⟨w₁, w₂, w₃, hw₁, hw₂, hw₃, sp₁, sp₂, sp₃, y₃, m₃, rfl, h₁, h₂, h₃, hy⟩
    · exact absurd rfl hk

/-- Bytes behind the third word do not matter. -/
theorem Words.append (h : Words r w₁ w₂ w₃) (t : List Byte) : Words (r ++ t) w₁ w₂ w₃ := by
  obtain ⟨hw₁, hw₂, hw₃, sp₁, sp₂, sp₃, y, m, rfl, h₁, h₂, h₃, hy⟩ := h
  exact ⟨hw₁, hw₂, hw₃, sp₁, sp₂, sp₃, y, m ++ t, by simp, h₁, h₂, h₃, hy⟩

end WordsScan

/-! ## What a connection leaves -/

/-- A buffer with the NULs that three calls of `strtok` have written. -/
def Tokenized (b : List Byte) : Prop :=
  ∃ sp₁ w₁ sp₂ w₂ sp₃ w₃ m,
    b = sp₁ ++ (w₁ ++ 0 :: (sp₂ ++ (w₂ ++ 0 :: (sp₃ ++ (w₃ ++ 0 :: m))))) ∧
      (∀ a ∈ sp₁, a = 32) ∧ (∀ a ∈ sp₂, a = 32) ∧ (∀ a ∈ sp₃, a = 32) ∧
        IsWord w₁ ∧ IsWord w₂ ∧ IsWord w₃

section Cut

variable {b b' u sp w m sp₁ w₁ sp₂ w₂ sp₃ w₃ : List Byte} {y : Byte}

/-- A call of `strtok` behind `u`: it puts a NUL behind the word, and saves the place behind
    that if a space stood there. -/
theorem strtokAt_cut (hsp : ∀ a ∈ sp, a = 32) (hw : IsWord w) (hy : y = 32 ∨ y = 0) :
    ∃ k, strtokAt (u ++ (sp ++ (w ++ y :: m))) u.length (ascii " ") =
        .ok (some (u.length + sp.length), k, u ++ (sp ++ (w ++ 0 :: m))) ∧
      (y = 32 → k = (u ++ (sp ++ (w ++ [0]))).length) := by
  have hb : (u ++ (sp ++ (w ++ y :: m))).drop u.length = sp ++ (w ++ y :: m) := List.drop_left
  have hspd : ∀ a ∈ sp, a ∈ ascii " " := fun a ha => mem_space.mpr (hsp a ha)
  have hwd : ∀ a ∈ w, a ∉ ascii " " := fun a ha h => (hw.2 a ha).1 (mem_space.mp h)
  have hw0 : (0 : Byte) ∉ w := fun h => (hw.2 0 h).2 rfl
  rcases hy with rfl | rfl
  · have hset : (u ++ (sp ++ (w ++ 32 :: m))).set (u.length + sp.length + w.length) 0 =
        u ++ (sp ++ (w ++ 0 :: m)) := by
      rw [List.set_append_right _ _ (by omega), List.set_append_right _ _ (by omega),
        List.set_append_right _ _ (by omega), show u.length + sp.length + w.length - u.length -
          sp.length - w.length = 0 by omega, List.set_cons_zero]
    refine ⟨_, ?_, fun _ => rfl⟩
    rw [strtokAt_ended hb hspd (zero_not_mem_spaces hsp) hw.1 hwd hw0 (mem_space.mpr rfl)
      (by decide), hset]
    simp only [List.length_append, List.length_singleton, Nat.add_assoc]
  · exact ⟨_, strtokAt_open hb hspd (zero_not_mem_spaces hsp) hw.1 hwd hw0,
      fun h => absurd h (by decide)⟩

/-- The buffer behind the three calls. -/
theorem tokenize_cut (h₁ : ∀ a ∈ sp₁, a = 32) (h₂ : ∀ a ∈ sp₂, a = 32) (h₃ : ∀ a ∈ sp₃, a = 32)
    (hw₁ : IsWord w₁) (hw₂ : IsWord w₂) (hw₃ : IsWord w₃) (hy : y = 32 ∨ y = 0) :
    ∃ tokens,
      tokenize (sp₁ ++ (w₁ ++ 32 :: (sp₂ ++ (w₂ ++ 32 :: (sp₃ ++ (w₃ ++ y :: m)))))) =
        .ok (tokens, sp₁ ++ (w₁ ++ 0 :: (sp₂ ++ (w₂ ++ 0 :: (sp₃ ++ (w₃ ++ 0 :: m)))))) := by
  obtain ⟨k₁, hs₁, hk₁⟩ := @strtokAt_cut [] sp₁ w₁ (sp₂ ++ (w₂ ++ 32 :: (sp₃ ++ (w₃ ++ y :: m)))) 32
    h₁ hw₁ (Or.inl rfl)
  obtain ⟨k₂, hs₂, hk₂⟩ := @strtokAt_cut (sp₁ ++ (w₁ ++ [0])) sp₂ w₂ (sp₃ ++ (w₃ ++ y :: m)) 32
    h₂ hw₂ (Or.inl rfl)
  obtain ⟨k₃, hs₃, -⟩ := @strtokAt_cut (sp₁ ++ (w₁ ++ [0]) ++ (sp₂ ++ (w₂ ++ [0]))) sp₃ w₃ m y
    h₃ hw₃ hy
  rw [← hk₂ rfl] at hs₃
  have hk₁ := hk₁ rfl
  rw [List.nil_append] at hk₁
  rw [← hk₁] at hs₂
  simp only [List.nil_append, List.length_nil, Nat.zero_add] at hs₁
  simp only [List.append_assoc, List.cons_append, List.nil_append] at hs₂ hs₃
  simp only [tokenize, hs₁, hs₂, hs₃, bind, Except.bind, pure, Except.pure]
  exact ⟨_, rfl⟩

variable {handler : WriteResults → Handler} {c : Connection} {served : Served}

/-- A connection leaves the buffer that the three calls leave. -/
theorem serveOne_buffer (h : serveOne handler c b = .ok (served, b')) :
    ∃ tokens, tokenize (recvInto b c.received) = .ok (tokens, b') := by
  unfold serveOne at h
  cases htok : tokenize (recvInto b c.received) with
  | error f => rw [htok] at h; cases h
  | ok r =>
    obtain ⟨tokens, b₁⟩ := r
    refine ⟨tokens, ?_⟩
    simp only [htok, bind, Except.bind] at h
    cases hp : tokens.filenamerecvcli with
    | none => rw [hp] at h; cases h
    | some p =>
      simp only [hp] at h
      cases hbad : badRequest b₁ tokens (b₁.getD p 0) with
      | error f => rw [hbad] at h; cases h
      | ok bad =>
        cases bad with
        | true =>
          simp only [hbad, if_true, pure, Except.pure, Except.ok.injEq, Prod.mk.injEq] at h
          rw [h.2]
        | false =>
          cases hpath : cstr b₁ p with
          | error f =>
            simp only [hbad, hpath, Bool.false_eq_true, if_false, reduceCtorEq] at h
          | ok path =>
            simp only [hbad, hpath, Bool.false_eq_true, if_false, pure, Except.pure,
              Except.ok.injEq, Prod.mk.injEq] at h
            rw [h.2]

theorem serveOne_tokenized (h : serveOne handler c b = .ok (served, b')) : Tokenized b' := by
  obtain ⟨w₁, w₂, w₃, hw₁, hw₂, hw₃, sp₁, sp₂, sp₃, y, m, hb, h₁, h₂, h₃, hy⟩ :=
    serveOne_ok_iff.mp ⟨_, h⟩
  obtain ⟨tokens, htok⟩ := serveOne_buffer h
  obtain ⟨tokens', htok'⟩ := tokenize_cut (m := m) h₁ h₂ h₃ hw₁ hw₂ hw₃ hy
  rw [hb, htok'] at htok
  cases htok
  exact ⟨sp₁, w₁, sp₂, w₂, sp₃, w₃, m, rfl, h₁, h₂, h₃, hw₁, hw₂, hw₃⟩

/-- The buffers that a server has between two connections. -/
theorem history_buffer {history : List Connection} {res : List Served}
    (h : gfserverServe handler history readDataInit = .ok (res, b)) :
    b.length = BUFSIZE ∧ (b = readDataInit ∨ Tokenized b) := by
  have hrun : ∀ (cs : List Connection) (b₀ : List Byte) (res : List Served) (b : List Byte),
      b₀.length = BUFSIZE → gfserverServe handler cs b₀ = .ok (res, b) →
        b.length = BUFSIZE ∧ (b = b₀ ∨ Tokenized b) := by
    intro cs
    induction cs with
    | nil =>
      intro b₀ res b hlen h
      cases h
      exact ⟨hlen, Or.inl rfl⟩
    | cons c cs ih =>
      intro b₀ res b hlen h
      obtain ⟨served, b₁, hs, ⟨rest, b₂⟩, hrest, heq⟩ := gfserverServe_ok_cons h
      obtain ⟨-, hb⟩ := Prod.mk.inj heq
      rw [← show b = b₂ from hb] at hrest
      obtain ⟨hlen', rfl | htok⟩ := ih b₁ rest b (serveOne_length hlen hs) hrest
      · exact ⟨hlen', Or.inr (serveOne_tokenized hs)⟩
      · exact ⟨hlen', Or.inr htok⟩
  exact hrun history readDataInit res b (by simp [readDataInit]) h

/-- Each of these buffers is left by one connection. -/
theorem history_of_cut (handler : WriteResults → Handler) (h₁ : ∀ a ∈ sp₁, a = 32)
    (h₂ : ∀ a ∈ sp₂, a = 32) (h₃ : ∀ a ∈ sp₃, a = 32) (hw₁ : IsWord w₁) (hw₂ : IsWord w₂)
    (hw₃ : IsWord w₃)
    (hlen : (sp₁ ++ (w₁ ++ 0 :: (sp₂ ++ (w₂ ++ 0 :: (sp₃ ++ (w₃ ++ 0 :: m)))))).length = BUFSIZE) :
    ∃ history served, gfserverServe handler history readDataInit =
      .ok (served, sp₁ ++ (w₁ ++ 0 :: (sp₂ ++ (w₂ ++ 0 :: (sp₃ ++ (w₃ ++ 0 :: m)))))) := by
  have hlen' : (sp₁ ++ (w₁ ++ 32 :: (sp₂ ++ (w₂ ++ 32 :: (sp₃ ++ (w₃ ++ 32 :: m)))))).length =
      BUFSIZE := by
    simpa only [List.length_append, List.length_cons] using hlen
  set r := sp₁ ++ (w₁ ++ 32 :: (sp₂ ++ (w₂ ++ 32 :: (sp₃ ++ (w₃ ++ 32 :: m))))) with hr
  set c : Connection := ⟨r, hlen'.le, fun _ => none⟩ with hc
  have hrecv : recvInto readDataInit c.received = r := by
    rw [recvInto, List.drop_eq_nil_of_le (by simp [readDataInit, hc, hlen']), List.append_nil]
  have hwords : Words (recvInto readDataInit c.received) w₁ w₂ w₃ :=
    ⟨hw₁, hw₂, hw₃, sp₁, sp₂, sp₃, 32, m, hrecv.trans hr, h₁, h₂, h₃, Or.inl rfl⟩
  obtain ⟨b', hserve, -⟩ := @serveOne_words handler c readDataInit w₁ w₂ w₃ hwords
  obtain ⟨tokens, htok⟩ := serveOne_buffer hserve
  obtain ⟨tokens', htok'⟩ := tokenize_cut (m := m) h₁ h₂ h₃ hw₁ hw₂ hw₃ (Or.inl rfl)
  rw [hrecv, hr, htok'] at htok
  cases htok
  exact ⟨[c], _, gfserverServe_cons _ hserve⟩

end Cut

/-! ## The decision -/

section Decision

open Scan

/-- What the server decides for a connection: the paths that it calls the handler with, none of
    them for `FILE_NOT_FOUND`; `none` if it dies. -/
def decision (handler : WriteResults → Handler) (c : Connection) (readData : List Byte) :
    Option (List (List Byte)) :=
  match serveOne handler c readData with
  | .ok (served, _) => some served.handled
  | .error _ => none

/-- The decision is the same after all histories that the server survives. -/
def SameDecision (handler : WriteResults → Handler) (c : Connection) : Prop :=
  ∀ history history' served served' b b',
    gfserverServe handler history readDataInit = .ok (served, b) →
      gfserverServe handler history' readDataInit = .ok (served', b') →
        decision handler c b = decision handler c b'

/-- The received bytes determine what `strtok` finds: three words end in them, or a NUL stands in
    front of the third one, or there is no room for the rest of three words. Up to five bytes do
    so too, unless they hold the beginning of just two words. -/
def Determined (r : List Byte) : Prop :=
  match (gap 0).run r with
  | .done | .dead => True
  | s => BUFSIZE < r.length + s.need ∨ r.length < 6 ∧ s.begun ≠ 2

variable {handler : WriteResults → Handler} {c : Connection} {b w₁ w₂ w₃ : List Byte}

theorem decision_words (h : Words (recvInto b c.received) w₁ w₂ w₃) :
    decision handler c b = some (answer handler c w₁ w₂ w₃).handled := by
  obtain ⟨b', hserve, -⟩ := @serveOne_words handler c b w₁ w₂ w₃ h
  rw [decision, hserve]

theorem decision_none_iff :
    decision handler c b = none ↔ ((gap 0).run c.received).run (b.drop c.received.length) ≠ done := by
  rw [← run_append, ne_eq, ← words_iff_scan]
  constructor
  · rintro h ⟨w₁, w₂, w₃, hw⟩
    rw [decision_words hw] at h
    cases h
  · intro h
    cases hserve : serveOne handler c b with
    | error f => rw [decision, hserve]
    | ok res => exact absurd (serveOne_ok_iff.mp ⟨res, hserve⟩) h

/-- Spaces and a part of a word, up to a NUL. -/
def Segment (l : List Byte) : Prop :=
  ∃ sp w m, l = sp ++ (w ++ 0 :: m) ∧ (∀ a ∈ sp, a = 32) ∧ ∀ a ∈ w, a ≠ 32 ∧ a ≠ 0

/-- Each place in front of the NUL that ends a word starts a segment; behind it lies the rest. -/
theorem drop_segment {sp w m : List Byte} (hsp : ∀ a ∈ sp, a = 32) (hw : IsWord w) (n : ℕ) :
    Segment ((sp ++ (w ++ 0 :: m)).drop n) ∨
      ∃ n', n = n' + w.length + sp.length + 1 ∧ (sp ++ (w ++ 0 :: m)).drop n = m.drop n' := by
  rcases Nat.lt_or_ge (sp.length + w.length) n with hn | hn
  · obtain ⟨n', rfl⟩ : ∃ n', n = n' + w.length + sp.length + 1 :=
      ⟨n - w.length - sp.length - 1, by omega⟩
    refine Or.inr ⟨n', rfl, ?_⟩
    rw [List.drop_append, List.drop_eq_nil_of_le (by omega), List.nil_append, List.drop_append,
      List.drop_eq_nil_of_le (by omega), List.nil_append,
      show n' + w.length + sp.length + 1 - sp.length - w.length = n' + 1 by omega,
      List.drop_succ_cons]
  · refine Or.inl ⟨sp.drop n, w.drop (n - sp.length), m, ?_,
      fun a ha => hsp a (List.mem_of_mem_drop ha), fun a ha => hw.2 a (List.mem_of_mem_drop ha)⟩
    rw [List.drop_append, List.drop_append, show n - sp.length - w.length = 0 by omega,
      List.drop_zero]

/-- Behind up to five bytes, a buffer that a history leaves goes on with a segment. -/
theorem history_segment {history : List Connection} {res : List Served}
    (h : gfserverServe handler history readDataInit = .ok (res, b)) {n : ℕ} (hn : n < 6) :
    Segment (b.drop n) := by
  obtain ⟨-, rfl | ⟨sp₁, w₁, sp₂, w₂, sp₃, w₃, m, rfl, h₁, h₂, h₃, hw₁, hw₂, hw₃⟩⟩ :=
    history_buffer h
  · refine ⟨[], [], List.replicate (BUFSIZE - n - 1) 0, ?_, by simp, by simp⟩
    rw [readDataInit, List.drop_replicate, List.nil_append, List.nil_append,
      ← List.replicate_succ, show BUFSIZE - n = BUFSIZE - n - 1 + 1 by unfold BUFSIZE; omega]
    rfl
  · have hpos₁ := List.length_pos_of_ne_nil hw₁.1
    have hpos₂ := List.length_pos_of_ne_nil hw₂.1
    have hpos₃ := List.length_pos_of_ne_nil hw₃.1
    rcases drop_segment h₁ hw₁ n with hseg | ⟨n₁, hn₁, hdrop₁⟩
    · exact hseg
    rw [hdrop₁]
    rcases drop_segment h₂ hw₂ n₁ with hseg | ⟨n₂, hn₂, hdrop₂⟩
    · exact hseg
    rw [hdrop₂]
    rcases drop_segment h₃ hw₃ n₂ with hseg | ⟨n₃, hn₃, -⟩
    · exact hseg
    · omega

/-- From six bytes on, a history can leave anything behind them. -/
theorem history_tail (handler : WriteResults → Handler) {n : ℕ} (hn : 6 ≤ n) (t : List Byte)
    (ht : n + t.length = BUFSIZE) :
    ∃ history served b, gfserverServe handler history readDataInit = .ok (served, b) ∧
      b.drop n = t := by
  have hx : IsWord [120] := ⟨by simp, by simp⟩
  obtain ⟨history, served, hserve⟩ := @history_of_cut (List.replicate (n - 6) 120 ++ t)
    [] [120] [] [120] [] [120] handler (by simp) (by simp) (by simp) hx hx hx
    (by simp only [List.length_append, List.length_cons, List.length_nil, List.length_replicate]
        omega)
  refine ⟨history, served, _, hserve, ?_⟩
  have hlen : ([120, 0, 120, 0, 120, 0] ++ List.replicate (n - 6) 120 : List Byte).length = n := by
    simp only [List.length_append, List.length_cons, List.length_nil, List.length_replicate]
    omega
  have hsplit : ([] ++ ([120] ++ 0 :: ([] ++ ([120] ++ 0 :: ([] ++ ([120] ++ 0 ::
      (List.replicate (n - 6) 120 ++ t)))))) : List Byte) =
        [120, 0, 120, 0, 120, 0] ++ List.replicate (n - 6) 120 ++ t := by
    simp only [List.nil_append, List.cons_append]
  rw [hsplit, List.drop_left' hlen]

/-- Two histories, one of them empty, after which the decisions for the connection are the same. -/
theorem SameDecision.fresh (h : SameDecision handler c) {history : List Connection}
    {res : List Served} (hb : gfserverServe handler history readDataInit = .ok (res, b)) :
    decision handler c b = decision handler c readDataInit :=
  h history [] res [] b readDataInit hb rfl

/-- What the scan finds on a new server. -/
theorem scan_fresh (s : Scan) {n : ℕ} (hn : n < BUFSIZE) :
    s.run (readDataInit.drop n) = (s.step 0).run (List.replicate (BUFSIZE - n - 1) 0) := by
  rw [readDataInit, List.drop_replicate, show BUFSIZE - n = BUFSIZE - n - 1 + 1 by omega,
    List.replicate_succ, run, List.foldl_cons, Nat.add_sub_cancel]
  rfl

/-- If one word has begun at most, a segment kills the server: it brings one more. -/
theorem run_segment {l : List Byte} (h : Segment l) {s : Scan} (hs : s.begun ≤ 1) :
    s.run l = dead := by
  obtain ⟨sp, w, m, rfl, hsp, hw⟩ := h
  have hgap : ∀ k ≤ 1, ∀ sp : List Byte, (∀ a ∈ sp, a = 32) →
      (gap k).run (sp ++ (w ++ 0 :: m)) = dead := by
    intro k hk sp hsp
    rw [← List.append_assoc, run_append]
    rcases run_gap (k := k) hsp hw with hrun | hrun
    · rw [hrun, run_cons]
      exact run_dead m
    · rw [hrun, run_cons, step_word, if_neg (by decide), if_pos rfl, if_neg (by omega)]
      exact run_dead m
  cases s with
  | gap k => exact hgap k hs sp hsp
  | word k =>
    have hk : k ≤ 1 := hs
    cases sp with
    | nil =>
      rw [List.nil_append, run_append, run_letters hw, run_cons, step_word, if_neg (by decide),
        if_pos rfl, if_neg (by omega)]
      exact run_dead m
    | cons x sp =>
      obtain rfl := hsp x List.mem_cons_self
      rw [List.cons_append, run_cons, step_word, if_pos rfl, if_neg (by omega)]
      exact hgap k hk sp fun a ha => hsp a (List.mem_cons_of_mem _ ha)
  | done => exact absurd hs (by decide)
  | dead => exact absurd hs (by decide)

/-- In the third word, a segment ends it. -/
theorem run_segment_third {l : List Byte} (h : Segment l) : (word 3).run l = done := by
  obtain ⟨sp, w, m, rfl, hsp, hw⟩ := h
  cases sp with
  | nil =>
    rw [List.nil_append, run_append, run_letters hw, run_cons]
    exact run_done m
  | cons x sp =>
    obtain rfl := hsp x List.mem_cons_self
    exact run_done _

/-- In up to five bytes, "GETFILE" is no scheme in front of two more words. -/
theorem scheme_short {r t : List Byte} (hr : r.length < 6) (hk : (gap 0).run r = word 3)
    (h : Words (r ++ t) w₁ w₂ w₃) : w₁ ≠ ascii "GETFILE" := by
  rintro rfl
  obtain ⟨-, -, -, sp₁, sp₂, sp₃, y, m, hb, h₁, -⟩ := h
  rw [← List.append_assoc] at hb
  have hpre : r <+: sp₁ ++ ascii "GETFILE" := by
    refine List.prefix_of_prefix_length_le ⟨t, hb⟩ ⟨_, rfl⟩ ?_
    have hlen : (ascii "GETFILE").length = 7 := by decide
    rw [List.length_append, hlen]
    omega
  obtain ⟨x, hx⟩ := hpre
  have hletters : ∀ a ∈ ascii "GETFILE", a ≠ 32 ∧ a ≠ 0 := by decide +kernel
  rcases List.append_eq_append_iff.mp hx with ⟨u, rfl, -⟩ | ⟨u, rfl, hu⟩
  · rw [run_spaces fun a ha => h₁ a (List.mem_append_left _ ha)] at hk
    cases hk
  · rcases run_gap (k := 0) h₁ fun a ha => hletters a (hu ▸ List.mem_append_left _ ha) with hrun | hrun
    · rw [hrun] at hk
      cases hk
    · rw [hrun] at hk
      cases hk

/-- One decision after all histories. -/
theorem SameDecision.of_const {d : Option (List (List Byte))} (h : ∀ history served b,
    gfserverServe handler history readDataInit = .ok (served, b) → decision handler c b = d) :
    SameDecision handler c := by
  intro history history' served served' b b' hb hb'
  rw [h history served b hb, h history' served' b' hb']

/-- The server dies after all histories. -/
theorem SameDecision.of_dies (h : ∀ history served b,
    gfserverServe handler history readDataInit = .ok (served, b) →
      ((gap 0).run c.received).run (b.drop c.received.length) ≠ done) : SameDecision handler c :=
  .of_const fun history served b hb => decision_none_iff.mpr (h history served b hb)

theorem SameDecision.of_no_room (h : BUFSIZE < c.received.length + ((gap 0).run c.received).need) :
    SameDecision handler c := by
  refine .of_dies fun history served b hb hdone => ?_
  have hneed := need_le_run _ (b.drop c.received.length) (by rw [hdone]; decide)
  have hle : c.received.length ≤ BUFSIZE := c.le
  rw [hdone, need, List.length_drop, (history_buffer hb).1] at hneed
  omega

/-- The rest of a buffer behind up to five bytes brings no word that is not begun. -/
theorem SameDecision.of_short (hlen : c.received.length < 6)
    (hbegun : ((gap 0).run c.received).begun ≤ 1) : SameDecision handler c := by
  refine .of_dies fun history served b hb hdone => ?_
  rw [run_segment (history_segment hb hlen) hbegun] at hdone
  cases hdone

/-- If the received bytes determine what `strtok` finds, no history matters. -/
theorem Determined.same (h : Determined c.received) : SameDecision handler c := by
  have hvalid : ((gap 0).run c.received).Valid := Valid.run (Nat.zero_le _) c.received
  unfold Determined at h
  cases hs : (gap 0).run c.received with
  | done =>
    obtain ⟨w₁, w₂, w₃, hw⟩ := words_iff_scan.mpr hs
    exact .of_const fun history served b _ => decision_words (hw.append _)
  | dead =>
    refine .of_dies fun history served b _ hdone => ?_
    rw [hs, run_dead] at hdone
    cases hdone
  | gap k =>
    rw [hs] at h hvalid
    have hk : k ≤ 2 := hvalid
    rcases h with h | ⟨hlen, hbegun⟩
    · exact .of_no_room (by rwa [hs])
    · exact .of_short hlen (by rw [hs]; exact (show k ≤ 1 by have : k ≠ 2 := hbegun; omega))
  | word k =>
    rw [hs] at h hvalid
    have hk : k ≤ 3 := hvalid
    rcases h with h | ⟨hlen, hbegun⟩
    · exact .of_no_room (by rwa [hs])
    · rcases Nat.lt_or_ge k 3 with hk | hk
      · exact .of_short hlen (by rw [hs]; exact (show k ≤ 1 by have : k ≠ 2 := hbegun; omega))
      · obtain rfl : k = 3 := by omega
        -- the third word ends in any buffer, but the first one is too short
        refine @SameDecision.of_const handler c (some []) fun history served b hb => ?_
        obtain ⟨w₁, w₂, w₃, hw⟩ : ∃ w₁ w₂ w₃, Words (recvInto b c.received) w₁ w₂ w₃ := by
          rw [words_iff_scan, recvInto, run_append, hs]
          exact run_segment_third (history_segment hb hlen)
        rw [decision_words hw, answer, if_neg fun hgood => scheme_short hlen hs hw hgood.1]

/-- In front of the third word, a NUL kills the server. -/
theorem step_zero {s : Scan} (hs : s.begun ≤ 2) : s.step 0 = dead := by
  cases s with
  | gap k => rfl
  | word k =>
    have hk : k ≤ 2 := hs
    rw [step_word, if_neg (by decide), if_pos rfl, if_neg (by omega)]
  | done => exact absurd hs (by decide)
  | dead => exact absurd hs (by decide)

theorem decision_fresh_none (hs : ((gap 0).run c.received).begun ≤ 2)
    (hlen : c.received.length < BUFSIZE) : decision handler c readDataInit = none := by
  rw [decision_none_iff, scan_fresh _ hlen, step_zero hs, run_dead]
  decide

/-- With room for the rest of three words, a history can bring them, unless fewer than six
    bytes hold the beginning of at most one word. -/
theorem exists_completing_history (handler : WriteResults → Handler) {r : List Byte}
    (hroom : r.length + ((gap 0).run r).need ≤ BUFSIZE) (hdead : (gap 0).run r ≠ dead)
    (hlong : 6 ≤ r.length ∨ ((gap 0).run r).begun = 2) :
    ∃ history served b, gfserverServe handler history readDataInit = .ok (served, b) ∧
      ((gap 0).run r).run (b.drop r.length) = done := by
  have hvalid : ((gap 0).run r).Valid := Valid.run (Nat.zero_le _) r
  set s := (gap 0).run r
  rcases Nat.lt_or_ge r.length 6 with hlen | hlen
  · have hbegun : s.begun = 2 := hlong.resolve_left (by omega)
    have hw : ∀ x : Byte, x ≠ 32 ∧ x ≠ 0 → IsWord [x] := fun x hx => ⟨by simp, by simpa using hx⟩
    obtain ⟨history, served, hserve⟩ := @history_of_cut (List.replicate (BUFSIZE - r.length - 7) 0)
      (List.replicate (r.length + 1) 32) [120] [] [121] [] [122] handler
      (fun a ha => List.eq_of_mem_replicate ha) (by simp) (by simp) (hw 120 (by decide))
      (hw 121 (by decide)) (hw 122 (by decide))
      (by simp only [List.length_append, List.length_cons, List.length_nil, List.length_replicate]
          unfold BUFSIZE
          omega)
    refine ⟨history, served, _, hserve, ?_⟩
    rw [List.replicate_succ', List.append_assoc, List.drop_left' List.length_replicate]
    -- a space, a letter and a NUL
    rw [List.cons_append, List.nil_append, List.cons_append, List.nil_append]
    cases hs : s with
    | gap k =>
      rw [hs] at hbegun
      obtain rfl : k = 2 := hbegun
      exact run_done _
    | word k =>
      rw [hs] at hbegun
      obtain rfl : k = 2 := hbegun
      exact run_done _
    | done => exact run_done _
    | dead => exact absurd hs hdead
  · obtain ⟨t, htlen, ht⟩ := exists_completion hvalid hdead
    obtain ⟨history, served, b, hserve, hb⟩ := history_tail handler hlen
      (t ++ List.replicate (BUFSIZE - r.length - t.length) 0) (by
        rw [List.length_append, List.length_replicate]
        omega)
    refine ⟨history, served, b, hserve, ?_⟩
    rw [hb, run_append, ht, run_done]

/-- The decision for a connection is the same after all histories, exactly if the bytes it
    delivers determine it. -/
theorem decision_independent_iff (handler : WriteResults → Handler) (c : Connection) :
    SameDecision handler c ↔ Determined c.received := by
  refine ⟨fun h => ?_, Determined.same⟩
  set r := c.received with hr
  have hvalid : ((gap 0).run r).Valid := Valid.run (Nat.zero_le _) r
  -- a history that completes three words, when a new server dies
  have hbegun : ∀ s, (gap 0).run r = s → s ≠ dead → 0 < s.need → s.begun ≤ 2 →
      BUFSIZE < r.length + s.need ∨ r.length < 6 ∧ s.begun ≠ 2 := by
    intro s hs hdead hneed hle
    subst hs
    by_contra hcon
    push Not at hcon
    obtain ⟨hroom, hshort⟩ := hcon
    obtain ⟨history, served, b, hserve, hdone⟩ := exists_completing_history handler hroom hdead
      (by rcases Nat.lt_or_ge r.length 6 with hlen | hlen
          · exact Or.inr (hshort hlen)
          · exact Or.inl hlen)
    have hfresh := h.fresh hserve
    rw [decision_fresh_none hle (show r.length < BUFSIZE by omega)] at hfresh
    exact decision_none_iff.mp hfresh hdone
  unfold Determined
  cases hs : (gap 0).run r with
  | done => trivial
  | dead => trivial
  | gap k =>
    rw [hs] at hvalid
    have hk : k ≤ 2 := hvalid
    exact hbegun _ hs (by simp) (by rw [need]; omega) hk
  | word k =>
    rw [hs] at hvalid
    have hk : k ≤ 3 := hvalid
    rcases Nat.lt_or_ge k 3 with hk | hk
    · exact hbegun _ hs (by simp) (by rw [need]; omega) (Nat.le_of_lt_succ hk)
    · obtain rfl : k = 3 := by omega
      by_contra hcon
      push Not at hcon
      obtain ⟨hroom, hshort⟩ := hcon
      have hlen : 6 ≤ r.length := by
        by_contra hlt
        exact absurd (hshort (by omega)) (by decide)
      rw [need] at hroom
      -- a new server ends the third word; behind a history of letters only, nothing does
      obtain ⟨history, served, b, hserve, hb⟩ := history_tail handler hlen
        (List.replicate (BUFSIZE - r.length) 120) (by rw [List.length_replicate]; omega)
      have hfresh := h.fresh hserve
      have hletters : (word 3).run (List.replicate (BUFSIZE - r.length) 120) = word 3 :=
        run_letters fun a ha => by
          rw [List.eq_of_mem_replicate ha]
          decide
      have hlost : decision handler c b = none := by
        rw [decision_none_iff, ← hr, hs, hb, hletters]
        decide
      rw [hlost, eq_comm, decision_none_iff, ← hr, hs, scan_fresh _ (by omega)] at hfresh
      exact hfresh (run_done _)

/-- A request that is cut inside its path: any letters that fit are appended to the path, after
    some history. -/
theorem stale_path (handler : WriteResults → Handler) (io : WriteResults) (p : Path)
    {u : List Byte} (hu : ∀ a ∈ u, a ≠ 32 ∧ a ≠ 0)
    (hle : (ascii "GETFILE GET " ++ p.bytes).length ≤ BUFSIZE)
    (hfit : (ascii "GETFILE GET " ++ p.bytes).length + u.length < BUFSIZE) :
    ∃ history served b, gfserverServe handler history readDataInit = .ok (served, b) ∧
      decision handler ⟨ascii "GETFILE GET " ++ p.bytes, hle, io⟩ b = some [p.bytes ++ u] := by
  have h12 : (ascii "GETFILE GET ").length = 12 := by decide
  rw [List.length_append, h12] at hfit
  obtain ⟨history, served, b, hserve, hb⟩ := history_tail handler
    (n := (ascii "GETFILE GET " ++ p.bytes).length) (by rw [List.length_append, h12]; omega)
    (u ++ 0 :: List.replicate (BUFSIZE - 12 - p.bytes.length - u.length - 1) 0) (by
      simp only [List.length_append, h12, List.length_cons, List.length_replicate]
      omega)
  refine ⟨history, served, b, hserve, ?_⟩
  have hget : IsWord (ascii "GETFILE") ∧ IsWord (ascii "GET") := by
    constructor <;> exact ⟨by decide, by decide +kernel⟩
  have hpath : IsWord (p.bytes ++ u) :=
    ⟨by simp [p.isWord.1], fun a ha => (List.mem_append.mp ha).elim (p.clean a) (hu a)⟩
  have hsplit : ascii "GETFILE GET " = ascii "GETFILE" ++ 32 :: ascii "GET" ++ [32] := by decide
  have hwords : Words (recvInto b (ascii "GETFILE GET " ++ p.bytes)) (ascii "GETFILE") (ascii "GET")
      (p.bytes ++ u) := by
    refine ⟨hget.1, hget.2, hpath, [], [], [], 0,
      List.replicate (BUFSIZE - 12 - p.bytes.length - u.length - 1) 0, ?_, by simp, by simp,
      by simp, Or.inr rfl⟩
    rw [recvInto, hb, hsplit]
    simp only [List.append_assoc, List.cons_append, List.nil_append]
  rw [@decision_words handler ⟨_, hle, io⟩ b _ _ _ hwords, answer, if_pos]
  exact ⟨rfl, rfl, by rw [List.head?_append, p.slash]; rfl⟩

/-- A request for "/foobar" in front of a request for "/x" that is cut behind its path. -/
theorem decision_leaks :
    ¬ ∀ (handler : WriteResults → Handler) (c : Connection), SameDecision handler c := by
  intro h
  have hleft : (gfserverServe (fun _ _ s => s)
      [⟨ascii "GETFILE GET /foobar \r\n\r\n", by decide +kernel, fun _ => none⟩]
        readDataInit).toOption.map (fun res => decision (fun _ _ s => s)
          ⟨ascii "GETFILE GET /x", by decide +kernel, fun _ => none⟩ res.2) =
      some (some [ascii "/xoobar"]) := by decide +kernel
  have hfresh : decision (fun _ _ s => s)
      ⟨ascii "GETFILE GET /x", by decide +kernel, fun _ => none⟩ readDataInit =
        some [ascii "/x"] := by decide +kernel
  obtain ⟨⟨served, b⟩, hres, hb⟩ := Option.map_eq_some_iff.mp hleft
  have hserve : gfserverServe (fun _ _ s => s)
      [⟨ascii "GETFILE GET /foobar \r\n\r\n", by decide +kernel, fun _ => none⟩]
        readDataInit = .ok (served, b) := by
    cases hcase : gfserverServe (fun _ _ s => s)
        [⟨ascii "GETFILE GET /foobar \r\n\r\n", by decide +kernel, fun _ => none⟩]
          readDataInit with
    | error f => rw [hcase] at hres; cases hres
    | ok res => rw [hcase] at hres; cases hres; rfl
  have hsame := (h (fun _ _ s => s)
    ⟨ascii "GETFILE GET /x", by decide +kernel, fun _ => none⟩).fresh hserve
  rw [hfresh] at hsame
  exact absurd (hb.symm.trans hsame) (by decide)

end Decision

end IntroOS.Gfserver
