import IntroOS.Concurrency.System
import IntroOS.Gfserver.Serve

/-!
# The path of a queued request

`handler_get` of `pr1/mtgf/handler.c` queues the path of a request as a pointer into
`readData`, the one buffer of `gfserver_serve` (`pr1/gflib/gfserver.c`), and a worker reads
the path when it calls `content_get`. `accept`, `recv`, each `strtok`, the checks with
`steque_enqueue`, and for the workers `steque_pop`, `content_get` and sending are one step
each. The queue is its list of requests, and a worker pops only what is there.

Main results:

* `PathRace.bossStep_ok`: what `readData` holds as the boss goes on.
* `lookups_right_iff`: the lookups of a run find the paths of their connections exactly if, at
  each lookup, the last request received is tokenised and has the same path.
-/

namespace IntroOS.Mtgf

open Concurrency CString Gfserver

/-! ## The model -/

/-- A request as the client writes it; one `recv` delivers it. -/
structure Request where
  path : List Byte
  slash : path.head? = some 47
  clean : ∀ a ∈ path, a ≠ 32 ∧ a ≠ 0
  le : (Gfclient.clientscheme path).length ≤ BUFSIZE

/-- What the boss does next in the loop of `gfserver_serve` (lines 166–200). -/
inductive ServePc
  | accept
  | recv (sockconn : ℕ)
  /-- the first `strtok` (line 179) -/
  | scheme (sockconn : ℕ)
  /-- the second `strtok` (line 180); `saved` is the position that `strtok` has saved -/
  | method (sockconn : ℕ) (scheme : Option ℕ) (saved : ℕ)
  /-- the third `strtok` (line 181) -/
  | filename (sockconn : ℕ) (scheme method : Option ℕ) (saved : ℕ)
  /-- lines 188–197 with `handler_get` -/
  | dispatch (sockconn : ℕ) (tokens : Tokens)

/-- The boss is not between `recv` and the last `strtok`. -/
def ServePc.Settled : ServePc → Prop
  | accept | recv _ | dispatch _ _ => True
  | _ => False

/-- What a worker does next in `thd_callback` (`handler.c`, lines 84–127). -/
inductive AnswerPc
  | pop
  /-- `content_get(ctx->path)` (line 95) -/
  | contentGet (ctx path : ℕ)
  | send (ctx : ℕ) (key : List Byte)

/-- The state of the server with `w` workers. What `content_get` has been called with and what
    has been sent are recorded, for each call with its connection; `current` is the connection
    that has been received last. -/
structure PathRace (w : ℕ) (β : Type) where
  readData : List Byte
  boss : ServePc
  accepted : ℕ
  current : Option ℕ
  requeue : List (ℕ × ℕ)
  workers : Fin w → AnswerPc
  looked : List (ℕ × List Byte)
  sent : List (ℕ × β)
  fault : Option Fault

/-- A step of the boss or of a worker. -/
inductive PathAct (w : ℕ)
  | boss
  | worker (i : Fin w)

namespace PathRace

variable {w : ℕ} {β : Type}

/-- The next step of the boss; connection `c` brings the request `paths c`. -/
def bossStep (paths : ℕ → Request) (s : PathRace w β) : PathRace w β :=
  match s.boss with
  | .accept => { s with boss := .recv s.accepted, accepted := s.accepted + 1 }
  | .recv c =>
    { s with readData := recvInto s.readData (Gfclient.clientscheme (paths c).path),
             boss := .scheme c, current := some c }
  | .scheme c =>
    match strtokAt s.readData 0 (ascii " ") with
    | .ok (scheme, saved, b) => { s with readData := b, boss := .method c scheme saved }
    | .error e => { s with fault := some e }
  | .method c scheme saved =>
    match strtokAt s.readData saved (ascii " ") with
    | .ok (method, saved, b) => { s with readData := b, boss := .filename c scheme method saved }
    | .error e => { s with fault := some e }
  | .filename c scheme method saved =>
    match strtokAt s.readData saved (ascii " ") with
    | .ok (filenamerecvcli, _, b) =>
      { s with readData := b, boss := .dispatch c ⟨scheme, method, filenamerecvcli⟩ }
    | .error e => { s with fault := some e }
  | .dispatch c tokens =>
    match tokens.filenamerecvcli with
    | none => { s with fault := some .nullPointer }
    | some p =>
      match badRequest s.readData tokens (s.readData.getD p 0) with
      | .error e => { s with fault := some e }
      -- the reply to a bad request does not come from a worker
      | .ok true => { s with boss := .accept }
      | .ok false => { s with boss := .accept, requeue := s.requeue ++ [(c, p)] }

def goto (s : PathRace w β) (i : Fin w) (pc : AnswerPc) : PathRace w β :=
  { s with workers := Function.update s.workers i pc }

/-- The next step of worker `i`; `content` is what is sent for a path. -/
def workerStep (content : List Byte → β) (i : Fin w) (s : PathRace w β) :
    Option (PathRace w β) :=
  match s.workers i, s.requeue with
  | .pop, [] => none
  | .pop, (c, p) :: rest => some { s.goto i (.contentGet c p) with requeue := rest }
  | .contentGet c p, _ =>
    match cstr s.readData p with
    | .ok key => some { s.goto i (.send c key) with looked := s.looked ++ [(c, key)] }
    | .error e => some { s with fault := some e }
  | .send c key, _ => some { s.goto i .pop with sent := s.sent ++ [(c, content key)] }

def step (paths : ℕ → Request) (content : List Byte → β) (a : PathAct w) (s : PathRace w β) :
    Option (PathRace w β) :=
  match s.fault, a with
  | some _, _ => none
  | none, .boss => some (s.bossStep paths)
  | none, .worker i => s.workerStep content i

/-- Every lookup has found the path of its connection, and the content of that path has been
    sent on it. -/
def Right (paths : ℕ → Request) (content : List Byte → β) (s : PathRace w β) : Prop :=
  s.fault = none ∧ (∀ e ∈ s.looked, e.2 = (paths e.1).path) ∧
    ∀ e ∈ s.sent, e.2 = content (paths e.1).path

end PathRace

/-- The server with `w` workers, whose connections bring the requests `paths`. -/
def pathRace (w : ℕ) {β : Type} (paths : ℕ → Request) (content : List Byte → β) :
    System (PathRace w β) (PathAct w) where
  init := ⟨readDataInit, .accept, 0, none, [], fun _ => .pop, [], [], none⟩
  step := PathRace.step paths content

/-- A lookup for connection `c` comes when the last request received is tokenised and has the
    same path. -/
def Fresh {w : ℕ} {β : Type} (paths : ℕ → Request) (a : PathAct w) (s : PathRace w β) : Prop :=
  ∀ i c p, a = .worker i → s.workers i = .contentGet c p →
    s.boss.Settled ∧ ∃ k, s.current = some k ∧ (paths k).path = (paths c).path

/-! ## The buffer of the boss -/

/-- The head of the request before the first `strtok`, after it, and after the second. -/
def head₀ : List Byte := ascii "GETFILE GET "
def head₁ : List Byte := ascii "GETFILE" ++ 0 :: ascii "GET "
def head₂ : List Byte := ascii "GETFILE" ++ 0 :: (ascii "GET" ++ [0])

/-- `b` starts with `u`, the path of `r` and the byte `y`. -/
def Holds (b u : List Byte) (r : Request) (y : Byte) : Prop := ∃ m, b = u ++ (r.path ++ y :: m)

/-- The buffer and the tokens as the boss goes on with a request. -/
def BossOk (paths : ℕ → Request) (boss : ServePc) (current : Option ℕ) (b : List Byte) : Prop :=
  match boss with
  | .accept | .recv _ => ∀ k, current = some k → cstr b 12 = .ok (paths k).path
  | .scheme c => current = some c ∧ Holds b head₀ (paths c) 32
  | .method c scheme saved =>
    current = some c ∧ Holds b head₁ (paths c) 32 ∧ scheme = some 0 ∧ saved = 8
  | .filename c scheme method saved =>
    current = some c ∧ Holds b head₂ (paths c) 32 ∧ scheme = some 0 ∧ method = some 8 ∧ saved = 12
  | .dispatch c tokens =>
    current = some c ∧ Holds b head₂ (paths c) 0 ∧ tokens = ⟨some 0, some 8, some 12⟩

section Buffer

variable {b u : List Byte} {r : Request}

theorem holds_recvInto (b : List Byte) (r : Request) :
    Holds (recvInto b (Gfclient.clientscheme r.path)) head₀ r 32 := by
  have h : ascii " \r\n\r\n" = 32 :: ascii "\r\n\r\n" := by decide
  exact ⟨ascii "\r\n\r\n" ++ b.drop (Gfclient.clientscheme r.path).length, by
    simp only [recvInto, Gfclient.clientscheme, head₀, h, List.append_assoc, List.cons_append]⟩

theorem Holds.scheme (h : Holds b head₀ r 32) :
    ∃ b', strtokAt b 0 (ascii " ") = .ok (some 0, 8, b') ∧ Holds b' head₁ r 32 := by
  obtain ⟨m, rfl⟩ := h
  have hsplit : head₀ = ascii "GETFILE" ++ 32 :: ascii "GET " := by decide
  have hset : head₀.set 7 0 = head₁ := by decide
  have htok := @strtokAt_ended (head₀ ++ (r.path ++ 32 :: m)) (ascii " ") [] (ascii "GETFILE")
    (ascii "GET " ++ (r.path ++ 32 :: m)) 0 32 (by rw [hsplit]; simp) (by simp) (by simp) (by decide)
    (by decide +kernel) (by decide) (by decide) (by decide)
  refine ⟨_, htok, m, ?_⟩
  rw [← hset]
  exact List.set_append_left _ _ (by decide)

theorem Holds.method (h : Holds b head₁ r 32) :
    ∃ b', strtokAt b 8 (ascii " ") = .ok (some 8, 12, b') ∧ Holds b' head₂ r 32 := by
  obtain ⟨m, rfl⟩ := h
  have hsplit : head₁.drop 8 = ascii "GET" ++ [32] := by decide
  have hset : head₁.set 11 0 = head₂ := by decide
  have htok := @strtokAt_ended (head₁ ++ (r.path ++ 32 :: m)) (ascii " ") [] (ascii "GET")
    (r.path ++ 32 :: m) 8 32
    (by rw [List.drop_append_of_le_length (by decide), hsplit]; simp) (by simp) (by simp) (by decide)
    (by decide +kernel) (by decide) (by decide) (by decide)
  refine ⟨_, htok, m, ?_⟩
  rw [← hset]
  exact List.set_append_left _ _ (by decide)

theorem Holds.drop {y : Byte} (hu : u.length = 12) (h : Holds b u r y) :
    ∃ m, b.drop 12 = r.path ++ y :: m := by
  obtain ⟨m, rfl⟩ := h
  exact ⟨m, List.drop_left' hu⟩

theorem Request.zero_not_mem (r : Request) : (0 : Byte) ∉ r.path := fun h => (r.clean 0 h).2 rfl

theorem Request.ne_nil (r : Request) : r.path ≠ [] := by
  intro h
  have hslash := r.slash
  rw [h] at hslash
  cases hslash

theorem Holds.filename (h : Holds b head₂ r 32) :
    ∃ k b', strtokAt b 12 (ascii " ") = .ok (some 12, k, b') ∧ Holds b' head₂ r 0 := by
  obtain ⟨m, hm⟩ := h.drop (by decide)
  obtain ⟨m, rfl⟩ := h
  have htok := @strtokAt_ended (head₂ ++ (r.path ++ 32 :: m)) (ascii " ") [] r.path m 12 32
    (List.drop_left' (by decide)) (by simp) (by simp) r.ne_nil
    (fun a ha => by rw [mem_space]; exact (r.clean a ha).1) r.zero_not_mem (by decide) (by decide)
  refine ⟨_, _, htok, m, ?_⟩
  have hlen : head₂.length = 12 := by decide
  have hpos : 12 + ([] : List Byte).length + r.path.length = head₂.length + (r.path.length + 0) := by
    simp [hlen]
  rw [hpos, List.set_append_right _ _ (by omega), Nat.add_sub_cancel_left,
    List.set_append_right _ _ (by omega), Nat.add_sub_cancel_left, List.set_cons_zero]

/-- Once tokenised, the buffer has the path as a string. -/
theorem Holds.cstr_path (h : Holds b head₂ r 0) : cstr b 12 = .ok r.path := by
  obtain ⟨m, hm⟩ := h.drop (by decide)
  exact cstr_eq_ok_iff.mpr ⟨r.zero_not_mem, m, hm⟩

/-- Before that, the string goes on with a space: it is not a path. -/
theorem Holds.cstr_ne_path (hu : u.length = 12) (h : Holds b u r 32) (r' : Request) :
    cstr b 12 ≠ .ok r'.path := by
  intro heq
  obtain ⟨m, hm⟩ := h.drop hu
  obtain ⟨-, m', hm'⟩ := cstr_eq_ok_iff.mp heq
  rw [hm] at hm'
  have hspace : (32 : Byte) ∉ r'.path := fun h => (r'.clean 32 h).1 rfl
  rcases List.append_eq_append_iff.mp hm' with ⟨v, hv, hrest⟩ | ⟨v, hv, hrest⟩
  · cases v with
    | nil => cases hrest
    | cons x v =>
      cases hrest
      exact hspace (by rw [hv]; simp)
  · cases v with
    | nil => cases hrest
    | cons x v =>
      cases hrest
      exact r.zero_not_mem (by rw [hv]; simp)

theorem Holds.badRequest (h : Holds b head₂ r 0) :
    Gfserver.badRequest b ⟨some 0, some 8, some 12⟩ (b.getD 12 0) = .ok false := by
  have hslash : b.getD 12 0 = 47 := by
    obtain ⟨x, u, hx⟩ := List.exists_cons_of_ne_nil r.ne_nil
    have hhead := r.slash
    rw [hx, List.head?_cons, Option.some.injEq] at hhead
    rw [← hhead]
    exact cstr_head (hx ▸ h.cstr_path)
  obtain ⟨m, rfl⟩ := h
  have hscheme : cstr (head₂ ++ (r.path ++ 0 :: m)) 0 = .ok (ascii "GETFILE") := by
    refine cstr_eq_ok_iff.mpr ⟨by decide, ascii "GET" ++ [0] ++ (r.path ++ 0 :: m), ?_⟩
    simp [head₂]
  have hmethod : cstr (head₂ ++ (r.path ++ 0 :: m)) 8 = .ok (ascii "GET") := by
    have hdrop : head₂.drop 8 = ascii "GET" ++ [0] := by decide
    refine cstr_eq_ok_iff.mpr ⟨by decide, r.path ++ 0 :: m, ?_⟩
    rw [List.drop_append_of_le_length (by decide), hdrop]
    simp
  rw [hslash]
  simp only [Gfserver.badRequest, strcmpNe, hscheme, hmethod, Except.map, bind, Except.bind, pure,
    Except.pure, bne_self_eq_false, Bool.false_eq_true, if_false]

end Buffer

namespace PathRace

section Step

variable {w : ℕ} {β : Type} {paths : ℕ → Request} {content : List Byte → β} {s s' : PathRace w β}
  {a : PathAct w} {i : Fin w} {c p : ℕ}

/-! ## What every step keeps -/

/-- Every queued path points to the twelfth byte of `readData`, and what has been sent is the
    content of what has been looked up. -/
structure Inv (paths : ℕ → Request) (content : List Byte → β) (s : PathRace w β) : Prop where
  boss : BossOk paths s.boss s.current s.readData
  queued : ∀ e ∈ s.requeue, e.2 = 12 ∧ s.current ≠ none
  working : ∀ i c p, s.workers i = .contentGet c p → p = 12 ∧ s.current ≠ none
  sending : ∀ i c key, s.workers i = .send c key → (c, key) ∈ s.looked
  answered : ∀ e ∈ s.sent, ∃ key, (e.1, key) ∈ s.looked ∧ e.2 = content key

theorem inv_init : (pathRace w paths content).init.Inv paths content where
  boss := fun _ => nofun
  queued := fun _ => nofun
  working := fun _ _ _ => nofun
  sending := fun _ _ _ => nofun
  answered := fun _ => nofun

/-- A step of the boss has no fault, keeps its buffer in order, and queues only pointers to the
    twelfth byte. -/
theorem bossStep_ok (h : BossOk paths s.boss s.current s.readData) (hrun : s.fault = none) :
    (s.bossStep paths).fault = none ∧
      BossOk paths (s.bossStep paths).boss (s.bossStep paths).current (s.bossStep paths).readData ∧
      (s.current ≠ none → (s.bossStep paths).current ≠ none) ∧
      ∀ e ∈ (s.bossStep paths).requeue,
        e ∈ s.requeue ∨ e.2 = 12 ∧ (s.bossStep paths).current ≠ none := by
  obtain ⟨b, boss, accepted, current, requeue, workers, looked, sent, fault⟩ := s
  dsimp only at h hrun
  subst hrun
  cases boss with
  | accept => exact ⟨rfl, h, id, fun _ => Or.inl⟩
  | recv c => exact ⟨rfl, ⟨rfl, holds_recvInto b (paths c)⟩, fun _ => nofun, fun _ => Or.inl⟩
  | scheme c =>
    obtain ⟨rfl, hholds⟩ := h
    obtain ⟨b', htok, hholds'⟩ := hholds.scheme
    simp only [bossStep, htok]
    exact ⟨trivial, ⟨rfl, hholds', rfl, rfl⟩, id, fun _ => Or.inl⟩
  | method c scheme saved =>
    obtain ⟨rfl, hholds, rfl, rfl⟩ := h
    obtain ⟨b', htok, hholds'⟩ := hholds.method
    simp only [bossStep, htok]
    exact ⟨trivial, ⟨rfl, hholds', rfl, rfl, rfl⟩, id, fun _ => Or.inl⟩
  | filename c scheme method saved =>
    obtain ⟨rfl, hholds, rfl, rfl, rfl⟩ := h
    obtain ⟨k, b', htok, hholds'⟩ := hholds.filename
    simp only [bossStep, htok]
    exact ⟨trivial, ⟨rfl, hholds', rfl⟩, id, fun _ => Or.inl⟩
  | dispatch c tokens =>
    obtain ⟨rfl, hholds, rfl⟩ := h
    simp only [bossStep, hholds.badRequest]
    refine ⟨trivial, fun k hk => ?_, id, fun e he => ?_⟩
    · cases hk
      exact hholds.cstr_path
    · rcases List.mem_append.mp he with he | he
      · exact Or.inl he
      · obtain rfl := List.mem_singleton.mp he
        exact Or.inr ⟨rfl, nofun⟩

/-- The other parts of the state belong to the workers. -/
theorem bossStep_frame (paths : ℕ → Request) (s : PathRace w β) :
    (s.bossStep paths).workers = s.workers ∧ (s.bossStep paths).looked = s.looked ∧
      (s.bossStep paths).sent = s.sent := by
  unfold bossStep
  repeat' split
  all_goals exact ⟨rfl, rfl, rfl⟩

theorem goto_workers (s : PathRace w β) (i j : Fin w) (pc : AnswerPc) :
    (s.goto i pc).workers j = if j = i then pc else s.workers j := Function.update_apply ..

theorem Inv.bossStep (h : s.Inv paths content) (hrun : s.fault = none) :
    (s.bossStep paths).Inv paths content := by
  obtain ⟨-, hboss, hcurrent, hqueued⟩ := bossStep_ok h.boss hrun
  obtain ⟨hworkers, hlooked, hsent⟩ := s.bossStep_frame paths
  refine ⟨hboss, fun e he => ?_, fun i c p hpc => ?_, ?_, ?_⟩
  · rcases hqueued e he with he | he
    · exact ⟨(h.queued e he).1, hcurrent (h.queued e he).2⟩
    · exact he
  · rw [hworkers] at hpc
    exact ⟨(h.working i c p hpc).1, hcurrent (h.working i c p hpc).2⟩
  · rw [hworkers, hlooked]
    exact h.sending
  · rw [hsent, hlooked]
    exact h.answered

/-- The lookups and the answers that a step of a worker adds. -/
theorem Inv.workerStep (h : s.Inv paths content) (hstep : s.workerStep content i = some s') :
    s'.Inv paths content := by
  have hmono : ∀ e ∈ s.looked, ∀ x, e ∈ s.looked ++ [x] := fun e he x => List.mem_append_left _ he
  unfold PathRace.workerStep at hstep
  split at hstep
  · cases hstep
  · next c p rest hpc hqueue =>
    cases hstep
    have hhead := h.queued (c, p) (by rw [hqueue]; exact List.mem_cons_self)
    refine ⟨h.boss, fun e he => h.queued e (by rw [hqueue]; exact List.mem_cons_of_mem _ he), ?_, ?_,
      h.answered⟩
    · intro j d p' hj
      rw [goto_workers] at hj
      split_ifs at hj
      · cases hj
        exact hhead
      · exact h.working j d p' hj
    · intro j d key hj
      rw [goto_workers] at hj
      split_ifs at hj
      exact h.sending j d key hj
  · next c p hpc =>
    cases hkey : cstr s.readData p with
    | error e =>
      rw [hkey] at hstep
      cases hstep
      exact ⟨h.boss, h.queued, h.working, h.sending, h.answered⟩
    | ok key =>
      rw [hkey] at hstep
      cases hstep
      refine ⟨h.boss, h.queued, ?_, ?_, ?_⟩
      · intro j d p' hj
        rw [goto_workers] at hj
        split_ifs at hj
        exact h.working j d p' hj
      · intro j d key' hj
        rw [goto_workers] at hj
        split_ifs at hj
        · cases hj
          exact List.mem_append_right _ (List.mem_singleton_self _)
        · exact hmono _ (h.sending j d key' hj) _
      · intro e he
        obtain ⟨key', hlooked, heq⟩ := h.answered e he
        exact ⟨key', hmono _ hlooked _, heq⟩
  · next c key hpc =>
    cases hstep
    refine ⟨h.boss, h.queued, ?_, ?_, ?_⟩
    · intro j d p' hj
      rw [goto_workers] at hj
      split_ifs at hj
      exact h.working j d p' hj
    · intro j d key' hj
      rw [goto_workers] at hj
      split_ifs at hj
      exact h.sending j d key' hj
    · intro e he
      rcases List.mem_append.mp he with he | he
      · exact h.answered e he
      · obtain rfl := List.mem_singleton.mp he
        exact ⟨key, h.sending i c key hpc, rfl⟩

/-- A lookup finds the path of the connection exactly if it is fresh. -/
theorem Inv.lookup (h : s.Inv paths content) (hpc : s.workers i = .contentGet c p) :
    cstr s.readData p = .ok (paths c).path ↔
      s.boss.Settled ∧ ∃ k, s.current = some k ∧ (paths k).path = (paths c).path := by
  obtain ⟨rfl, hcurrent⟩ := h.working i c p hpc
  obtain ⟨k, hk⟩ := Option.ne_none_iff_exists'.mp hcurrent
  have hsettled : cstr s.readData 12 = .ok (paths k).path →
      (cstr s.readData 12 = .ok (paths c).path ↔
        ∃ k, s.current = some k ∧ (paths k).path = (paths c).path) := by
    intro hpath
    rw [hpath, hk]
    simp
  have hboss := h.boss
  have hne : ∀ {d u}, u.length = 12 → Holds s.readData u (paths d) 32 →
      ¬ cstr s.readData 12 = .ok (paths c).path := fun hu hholds => hholds.cstr_ne_path hu (paths c)
  cases hpcb : s.boss with
  | accept =>
    rw [hpcb] at hboss
    simpa [ServePc.Settled] using hsettled (hboss k hk)
  | recv d =>
    rw [hpcb] at hboss
    simpa [ServePc.Settled] using hsettled (hboss k hk)
  | scheme d =>
    rw [hpcb] at hboss
    simpa [ServePc.Settled] using hne (by decide) hboss.2
  | method d scheme saved =>
    rw [hpcb] at hboss
    simpa [ServePc.Settled] using hne (by decide) hboss.2.1
  | filename d scheme method saved =>
    rw [hpcb] at hboss
    simpa [ServePc.Settled] using hne (by decide) hboss.2.1
  | dispatch d tokens =>
    rw [hpcb] at hboss
    obtain ⟨hd, hholds, -⟩ := hboss
    rw [hk, Option.some.injEq] at hd
    simpa [ServePc.Settled] using hsettled (hd ▸ hholds.cstr_path)

theorem Inv.step (h : s.Inv paths content) (hstep : PathRace.step paths content a s = some s') :
    s'.Inv paths content := by
  unfold PathRace.step at hstep
  cases hrun : s.fault with
  | some e => rw [hrun] at hstep; cases hstep
  | none =>
    rw [hrun] at hstep
    cases a with
    | boss =>
      cases hstep
      exact h.bossStep hrun
    | worker i => exact h.workerStep hstep

/-! ## Runs -/

/-- Under the invariant, the answers are right if the lookups are. -/
theorem Inv.right_iff (h : s.Inv paths content) :
    s.Right paths content ↔ s.fault = none ∧ ∀ e ∈ s.looked, e.2 = (paths e.1).path := by
  refine ⟨fun hright => ⟨hright.1, hright.2.1⟩, fun hlooked => ⟨hlooked.1, hlooked.2, ?_⟩⟩
  intro e he
  obtain ⟨key, hmem, heq⟩ := h.answered e he
  rw [heq, show key = (paths e.1).path from hlooked.2 (e.1, key) hmem]

/-- A step that is not a lookup. -/
theorem Inv.step_elsewhere (h : s.Inv paths content)
    (hstep : PathRace.step paths content a s = some s')
    (hnot : ∀ i c p, a = .worker i → s.workers i ≠ .contentGet c p) :
    s'.fault = s.fault ∧ s'.looked = s.looked := by
  unfold PathRace.step at hstep
  cases hrun : s.fault with
  | some e => rw [hrun] at hstep; cases hstep
  | none =>
    rw [hrun] at hstep
    cases a with
    | boss =>
      cases hstep
      exact ⟨(bossStep_ok h.boss hrun).1, (s.bossStep_frame paths).2.1⟩
    | worker i =>
      simp only [PathRace.workerStep] at hstep
      cases hpc : s.workers i with
      | pop =>
        cases hqueue : s.requeue with
        | nil => simp [hpc, hqueue] at hstep
        | cons e rest =>
          simp only [hpc, hqueue] at hstep
          cases hstep
          exact ⟨hrun, rfl⟩
      | contentGet c p => exact absurd hpc (hnot i c p rfl)
      | send c key =>
        simp only [hpc] at hstep
        cases hstep
        exact ⟨hrun, rfl⟩

theorem fresh_iff (hpc : s.workers i = .contentGet c p) : Fresh paths (.worker i) s ↔
    s.boss.Settled ∧ ∃ k, s.current = some k ∧ (paths k).path = (paths c).path := by
  constructor
  · exact fun h => h i c p rfl hpc
  · intro h j d p' hj hd
    cases hj
    rw [hpc] at hd
    cases hd
    exact h

/-- A step keeps the lookups right exactly if it is not a lookup or a fresh one. -/
theorem Inv.right_step (h : s.Inv paths content)
    (hstep : PathRace.step paths content a s = some s') :
    s'.Right paths content ↔ s.Right paths content ∧ Fresh paths a s := by
  rw [(h.step hstep).right_iff, h.right_iff]
  by_cases hlook : ∃ i c p, a = .worker i ∧ s.workers i = .contentGet c p
  · obtain ⟨i, c, p, rfl, hpc⟩ := hlook
    have hkey := h.lookup hpc
    rw [fresh_iff hpc, ← hkey]
    unfold PathRace.step at hstep
    cases hrun : s.fault with
    | some e => rw [hrun] at hstep; cases hstep
    | none =>
      simp only [hrun, PathRace.workerStep, hpc] at hstep
      cases hcstr : cstr s.readData p with
      | error e =>
        rw [hcstr] at hstep
        cases hstep
        simp
      | ok key =>
        rw [hcstr] at hstep
        cases hstep
        simp [goto, hrun, or_imp, forall_and]
  · push Not at hlook
    obtain ⟨hfault, hlooked⟩ := h.step_elsewhere hstep fun i c p hi => hlook i c p hi
    have hfresh : Fresh paths a s := fun i c p hi hpc => absurd hpc (hlook i c p hi)
    rw [hfault, hlooked]
    exact (and_iff_left hfresh).symm

end Step

end PathRace

/-- In a run of the server, every lookup finds the path of its connection, and the content of
    that path is sent on it, exactly if every lookup comes when the last request received is
    tokenised and has the same path. -/
theorem lookups_right_iff (w : ℕ) {β : Type} (paths : ℕ → Request) (content : List Byte → β)
    (as : List (PathAct w)) (s : PathRace w β)
    (h : (pathRace w paths content).run as (pathRace w paths content).init = some s) :
    s.Right paths content ↔
      (pathRace w paths content).Meets (Fresh paths) as (pathRace w paths content).init := by
  have hinit : (pathRace w paths content).init.Right paths content :=
    ⟨rfl, fun _ => nofun, fun _ => nofun⟩
  rw [System.run_iff (I := PathRace.Inv paths content) (R := PathRace.Right paths content)
    (fun _ _ _ ih hs => ih.step hs) (fun _ _ _ ih hs => ih.right_step hs) PathRace.inv_init h]
  exact and_iff_right hinit

/-- The requests for `/a` and `/b` in turn. -/
def requestsInTurn (c : ℕ) : Request :=
  if c = 0 then ⟨ascii "/a", by decide, clean_a, by decide⟩
  else ⟨ascii "/b", by decide, by decide +kernel, by decide⟩

theorem lookups_right_first : ∃ s : PathRace 1 (List Byte),
    (pathRace 1 requestsInTurn id).run
        (List.replicate 6 .boss ++ List.replicate 3 (.worker 0))
        (pathRace 1 requestsInTurn id).init = some s ∧
      (s.Right requestsInTurn id ↔ (pathRace 1 requestsInTurn id).Meets (Fresh requestsInTurn)
        (List.replicate 6 .boss ++ List.replicate 3 (.worker 0))
        (pathRace 1 requestsInTurn id).init) := by
  obtain ⟨s, hs⟩ := Option.isSome_iff_exists.mp (show ((pathRace 1 requestsInTurn id).run
      (List.replicate 6 .boss ++ List.replicate 3 (.worker 0))
      (pathRace 1 requestsInTurn id).init).isSome = true by decide +kernel)
  exact ⟨s, hs, lookups_right_iff 1 requestsInTurn id _ s hs⟩

/-- The second request is received before the worker looks up the path of the first one. -/
theorem lookup_wrong_path :
    ¬ ∀ (w : ℕ) (β : Type) (paths : ℕ → Request) (content : List Byte → β)
      (as : List (PathAct w)) (s : PathRace w β),
      (pathRace w paths content).run as (pathRace w paths content).init = some s →
        s.Right paths content := by
  intro h
  have hlooked : ((pathRace 1 requestsInTurn id).run
      (List.replicate 12 .boss ++ List.replicate 2 (.worker 0))
      (pathRace 1 requestsInTurn id).init).map PathRace.looked = some [(0, ascii "/b")] := by
    decide +kernel
  obtain ⟨s, hs, heq⟩ := Option.map_eq_some_iff.mp hlooked
  have hright := (h 1 (List Byte) requestsInTurn id _ s hs).2.1 (0, ascii "/b") (by rw [heq]; simp)
  exact absurd hright (by decide)

end IntroOS.Mtgf
