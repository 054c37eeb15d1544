import IntroOS.Concurrency.Lock
import IntroOS.Gfserver.Model
import IntroOS.Mtgf.Steque

/-!
# The transfers of the workers

Model of `thd_callback` (`pr1/mtgf/handler.c`, lines 74–134) with the transfer of a file under
`filelock`. The connections and what `write` and `pread` do on them are those of the
single-threaded server.

* The path of a request is what its pointer shows when `content_get` reads it.
* `steque_enqueue` in `handler_get` and each call of `thd_callback` is one step.

Main results:

* `failure_ends_process`: what a worker does whose transfer fails.
* `failure_never_isolated`: no failure leaves the process running.
* `failing_worker_keeps_lock`: until then, whatever the others do, it holds `filelock`.
-/

namespace IntroOS.Mtgf

open Concurrency Gfserver

/-! ## The model -/

/-- What a worker does next (`thd_callback`). A context is the number of its connection. -/
inductive TransferPc
  /-- `!steque_isempty(requeue)` (line 81) -/
  | test
  /-- `pthread_mutex_lock(&reqlock)` (line 84) -/
  | lock
  /-- `steque_pop(requeue)` (line 85) -/
  | pop
  /-- `pthread_mutex_unlock(&reqlock)` (line 86) -/
  | unlock (ctx : ℕ)
  /-- `content_get(ctx->path)` (line 94) -/
  | lookup (ctx : ℕ)
  /-- `gfs_sendheader(ctx->ctx, GF_FILE_NOT_FOUND, 0)` (line 96) -/
  | notFound (ctx : ℕ)
  /-- `gfs_sendheader(ctx->ctx, GF_OK, file_len)` (line 105) -/
  | header (ctx : ℕ) (file : File)
  /-- `pthread_mutex_lock(&filelock)` (line 107) -/
  | lockFile (ctx : ℕ) (file : File)
  /-- the test of the loop and `pread` (lines 111–112) -/
  | read (ctx : ℕ) (file : File) (bytesTransferred : ℕ)
  /-- `gfs_send` (line 118) -/
  | send (ctx : ℕ) (file : File) (bytesTransferred : ℕ) (buffer : List CString.Byte)
  /-- `pthread_mutex_unlock(&filelock)` (line 127) -/
  | unlockFile
  /-- `gfs_abort(ctx->ctx)` (lines 115 and 121) -/
  | abort (ctx : ℕ)
  /-- `exit(-1)` (lines 116 and 122) -/
  | exit

/-- The worker holds `filelock`. -/
def TransferPc.InFile : TransferPc → Prop
  | read .. | send .. | unlockFile | abort _ | exit => True
  | _ => False

/-- The transfer of the worker has failed. -/
def TransferPc.Doomed : TransferPc → Prop
  | abort _ | exit => True
  | _ => False

/-- How the process has ended. -/
inductive ProcessEnd
  | halt (e : Halt)
  | exit (status : ℤ)
  deriving DecidableEq

/-- The state of the process with `w` workers. -/
structure Transfers (w : ℕ) where
  requeue : Steque ℕ
  reqlock : Option (Fin w)
  filelock : Option (Fin w)
  pcs : Fin w → TransferPc
  socks : ℕ → Sock
  ended : Option ProcessEnd

/-- What the process finds: the content library, the path of each request when it is read, and
    for each connection the results of `pread` and `write`. -/
structure Surroundings where
  content : Content
  paths : ℕ → List CString.Byte
  reads : ℕ → ReadResults
  io : ℕ → WriteResults

/-- A step of the boss, which enqueues a request in a new node, or of a worker. -/
inductive TransferAct (w : ℕ)
  | enqueue (node : ℕ) (ctx : ℕ)
  | worker (i : Fin w)

namespace Transfers

variable {w : ℕ}

def goto (s : Transfers w) (i : Fin w) (pc : TransferPc) : Transfers w :=
  { s with pcs := Function.update s.pcs i pc }

def setSock (s : Transfers w) (ctx : ℕ) (sock : Sock) : Transfers w :=
  { s with socks := Function.update s.socks ctx sock }

/-- The next step of worker `i`. -/
def workerStep (e : Surroundings) (i : Fin w) (s : Transfers w) : Option (Transfers w) :=
  match s.pcs i with
  | .test => some (s.goto i (if s.requeue.isempty then .test else .lock))
  | .lock =>
    if s.reqlock.isNone then some { s.goto i .pop with reqlock := some i } else none
  | .pop =>
    match s.requeue.pop with
    | .ok (ctx, q) => some { s.goto i (.unlock ctx) with requeue := q }
    | .error h => some { s with ended := some (.halt h) }
  | .unlock ctx => some { s.goto i (.lookup ctx) with reqlock := none }
  | .lookup ctx =>
    match e.content (e.paths ctx) with
    | none => some (s.goto i (.notFound ctx))
    | some file => some (s.goto i (.header ctx file))
  | .notFound ctx =>
    some ((s.goto i .test).setSock ctx
      (gfsSendheader (e.io ctx) (s.socks ctx) .fileNotFound 0).2)
  | .header ctx file =>
    some ((s.goto i (.lockFile ctx file)).setSock ctx
      (gfsSendheader (e.io ctx) (s.socks ctx) .ok (CString.sizeT file.bytes.length)).2)
  | .lockFile ctx file =>
    if s.filelock.isNone then some { s.goto i (.read ctx file 0) with filelock := some i }
    else none
  | .read ctx file bytesTransferred =>
    if bytesTransferred < file.bytes.length then
      let buffer := pread (e.reads ctx) file.bytes bytesTransferred
      if buffer.length ≤ 0 then some (s.goto i (.abort ctx))
      else some (s.goto i (.send ctx file bytesTransferred buffer))
    else some (s.goto i .unlockFile)
  | .send ctx file bytesTransferred buffer =>
    let r := gfsSend (e.io ctx) (s.socks ctx) buffer
    let s := s.setSock ctx r.2
    if r.1 ≠ buffer.length then some (s.goto i (.abort ctx))
    else some (s.goto i (.read ctx file (bytesTransferred + buffer.length)))
  | .unlockFile => some { s.goto i .test with filelock := none }
  | .abort ctx => some ((s.goto i .exit).setSock ctx (gfsAbort (s.socks ctx)))
  | .exit => some { s with ended := some (.exit (-1)) }

/-- `steque_enqueue(requeue, req_ctx)` in `handler_get` (line 145). -/
def enqueueStep (node : ℕ) (ctx : ℕ) (s : Transfers w) : Option (Transfers w) :=
  if (s.requeue.heap node).isNone then
    match s.requeue.enqueue node ctx with
    | .ok q => some { s with requeue := q }
    | .error h => some { s with ended := some (.halt h) }
  else none

def step (e : Surroundings) (a : TransferAct w) (s : Transfers w) : Option (Transfers w) :=
  match s.ended, a with
  | some _, _ => none
  | none, .enqueue node ctx => s.enqueueStep node ctx
  | none, .worker i => s.workerStep e i

/-- The transfer of worker `i` gets a `pread` that delivers nothing, or a `gfs_send` that is
    short or fails. -/
def Fails (e : Surroundings) (s : Transfers w) (i : Fin w) (ctx : ℕ) : Prop :=
  match s.pcs i with
  | .read c file bytesTransferred =>
    c = ctx ∧ bytesTransferred < file.bytes.length ∧
      (pread (e.reads ctx) file.bytes bytesTransferred).length ≤ 0
  | .send c _ _ buffer =>
    c = ctx ∧ (gfsSend (e.io ctx) (s.socks ctx) buffer).1 ≠ buffer.length
  | _ => False

end Transfers

/-- The process with `w` workers. -/
def transfers (e : Surroundings) (w : ℕ) : System (Transfers w) (TransferAct w) where
  init := ⟨Steque.init, none, none, fun _ => .test, fun _ => Sock.new, none⟩
  step := Transfers.step e

namespace Transfers

variable {w : ℕ} {e : Surroundings} {s s' : Transfers w} {i j : Fin w} {ctx : ℕ}

/-- Worker `i` has handled a failure: it is back at the test of the queue, or the process has
    ended. -/
def Handled (s : Transfers w) (i : Fin w) : Prop := s.ended ≠ none ∨ s.pcs i = .test

/-- From `s` to `s'` worker `i` has harmed nobody else: the process is running, the worker
    holds no lock, its connection is aborted, and the queue and the other workers are as they
    were. -/
structure Unharmed (s s' : Transfers w) (i : Fin w) (ctx : ℕ) : Prop where
  running : s'.ended = none
  reqlock : s'.reqlock ≠ some i
  filelock : s'.filelock ≠ some i
  aborted : (s'.socks ctx).closed = true
  requeue : s'.requeue = s.requeue
  others : ∀ j ≠ i, s'.pcs j = s.pcs j

/-- The steps of worker `i` by which it handles the failure in `s` harm nobody else. -/
def Isolated (e : Surroundings) (s : Transfers w) (i : Fin w) (ctx : ℕ) : Prop :=
  ∀ k s', (transfers e w).run (List.replicate k (.worker i)) s = some s' → s'.Handled i →
    s.Unharmed s' i ctx

theorem step_worker (hrunning : s.ended = none) : step e (.worker i) s = s.workerStep e i := by
  simp only [step, hrunning]

/-! ## The steps of a worker -/

/-- What worker `i` does at each of its places, with what it has found there. -/
inductive WorkerMoves (e : Surroundings) (i : Fin w) (s : Transfers w) :
    TransferPc → Transfers w → Prop
  | test : WorkerMoves e i s .test (s.goto i (if s.requeue.isempty then .test else .lock))
  | lock (free : s.reqlock = none) :
      WorkerMoves e i s .lock { s.goto i .pop with reqlock := some i }
  | pop (ctx : ℕ) (q : Steque ℕ) (hpop : s.requeue.pop = .ok (ctx, q)) :
      WorkerMoves e i s .pop { s.goto i (.unlock ctx) with requeue := q }
  | underflow (h : Halt) (hpop : s.requeue.pop = .error h) :
      WorkerMoves e i s .pop { s with ended := some (.halt h) }
  | unlock (ctx : ℕ) :
      WorkerMoves e i s (.unlock ctx) { s.goto i (.lookup ctx) with reqlock := none }
  | missing (ctx : ℕ) (hfile : e.content (e.paths ctx) = none) :
      WorkerMoves e i s (.lookup ctx) (s.goto i (.notFound ctx))
  | found (ctx : ℕ) (file : File) (hfile : e.content (e.paths ctx) = some file) :
      WorkerMoves e i s (.lookup ctx) (s.goto i (.header ctx file))
  | notFound (ctx : ℕ) :
      WorkerMoves e i s (.notFound ctx) ((s.goto i .test).setSock ctx
        (gfsSendheader (e.io ctx) (s.socks ctx) .fileNotFound 0).2)
  | header (ctx : ℕ) (file : File) :
      WorkerMoves e i s (.header ctx file) ((s.goto i (.lockFile ctx file)).setSock ctx
        (gfsSendheader (e.io ctx) (s.socks ctx) .ok (CString.sizeT file.bytes.length)).2)
  | lockFile (ctx : ℕ) (file : File) (free : s.filelock = none) :
      WorkerMoves e i s (.lockFile ctx file) { s.goto i (.read ctx file 0) with filelock := some i }
  | readFails (ctx : ℕ) (file : File) (bytesTransferred : ℕ)
      (hlt : bytesTransferred < file.bytes.length)
      (hnone : (pread (e.reads ctx) file.bytes bytesTransferred).length ≤ 0) :
      WorkerMoves e i s (.read ctx file bytesTransferred) (s.goto i (.abort ctx))
  | read (ctx : ℕ) (file : File) (bytesTransferred : ℕ)
      (hlt : bytesTransferred < file.bytes.length)
      (hsome : ¬ (pread (e.reads ctx) file.bytes bytesTransferred).length ≤ 0) :
      WorkerMoves e i s (.read ctx file bytesTransferred) (s.goto i
        (.send ctx file bytesTransferred (pread (e.reads ctx) file.bytes bytesTransferred)))
  | readEnd (ctx : ℕ) (file : File) (bytesTransferred : ℕ)
      (hend : ¬ bytesTransferred < file.bytes.length) :
      WorkerMoves e i s (.read ctx file bytesTransferred) (s.goto i .unlockFile)
  | sendFails (ctx : ℕ) (file : File) (bytesTransferred : ℕ) (buffer : List CString.Byte)
      (hshort : (gfsSend (e.io ctx) (s.socks ctx) buffer).1 ≠ buffer.length) :
      WorkerMoves e i s (.send ctx file bytesTransferred buffer)
        ((s.setSock ctx (gfsSend (e.io ctx) (s.socks ctx) buffer).2).goto i (.abort ctx))
  | send (ctx : ℕ) (file : File) (bytesTransferred : ℕ) (buffer : List CString.Byte)
      (hfull : ¬ (gfsSend (e.io ctx) (s.socks ctx) buffer).1 ≠ buffer.length) :
      WorkerMoves e i s (.send ctx file bytesTransferred buffer)
        ((s.setSock ctx (gfsSend (e.io ctx) (s.socks ctx) buffer).2).goto i
          (.read ctx file (bytesTransferred + buffer.length)))
  | unlockFile : WorkerMoves e i s .unlockFile { s.goto i .test with filelock := none }
  | abort (ctx : ℕ) :
      WorkerMoves e i s (.abort ctx) ((s.goto i .exit).setSock ctx (gfsAbort (s.socks ctx)))
  | exit : WorkerMoves e i s .exit { s with ended := some (.exit (-1)) }

theorem workerMoves_of_step (h : s.workerStep e i = some s') :
    s.WorkerMoves e i (s.pcs i) s' := by
  unfold Transfers.workerStep at h
  cases hpc : s.pcs i with
  | test =>
    rw [hpc] at h
    cases h
    exact .test
  | lock =>
    rw [hpc] at h
    obtain ⟨hfree, h⟩ := Option.ite_none_right_eq_some.mp h
    cases h
    exact .lock (Option.isNone_iff_eq_none.mp hfree)
  | pop =>
    rw [hpc] at h
    dsimp only at h
    cases hq : s.requeue.pop with
    | ok r =>
      rw [hq] at h
      cases h
      exact .pop r.1 r.2 hq
    | error halt =>
      rw [hq] at h
      cases h
      exact .underflow halt hq
  | unlock c =>
    rw [hpc] at h
    cases h
    exact .unlock c
  | lookup c =>
    rw [hpc] at h
    dsimp only at h
    cases hfile : e.content (e.paths c) with
    | none =>
      rw [hfile] at h
      cases h
      exact .missing c hfile
    | some file =>
      rw [hfile] at h
      cases h
      exact .found c file hfile
  | notFound c =>
    rw [hpc] at h
    cases h
    exact .notFound c
  | header c file =>
    rw [hpc] at h
    cases h
    exact .header c file
  | lockFile c file =>
    rw [hpc] at h
    obtain ⟨hfree, h⟩ := Option.ite_none_right_eq_some.mp h
    cases h
    exact .lockFile c file (Option.isNone_iff_eq_none.mp hfree)
  | read c file bytesTransferred =>
    rw [hpc] at h
    dsimp only at h
    split_ifs at h with hlt hnone
    · cases h
      exact .readFails c file bytesTransferred hlt hnone
    · cases h
      exact .read c file bytesTransferred hlt hnone
    · cases h
      exact .readEnd c file bytesTransferred hlt
  | send c file bytesTransferred buffer =>
    rw [hpc] at h
    dsimp only at h
    split_ifs at h with hshort
    · cases h
      exact .sendFails c file bytesTransferred buffer hshort
    · cases h
      exact .send c file bytesTransferred buffer hshort
  | unlockFile =>
    rw [hpc] at h
    cases h
    exact .unlockFile
  | abort c =>
    rw [hpc] at h
    cases h
    exact .abort c
  | exit =>
    rw [hpc] at h
    cases h
    exact .exit

/-! ## The handling of a failure -/

/-- The first step: the transfer fails, and the worker goes on to `gfs_abort`. -/
theorem Fails.workerStep (h : s.Fails e i ctx) :
    ∃ socks, s.workerStep e i = some { s.goto i (.abort ctx) with socks := socks } := by
  unfold Fails at h
  unfold Transfers.workerStep
  cases hpc : s.pcs i with
  | read c file bytesTransferred =>
    rw [hpc] at h
    obtain ⟨rfl, hlt, hnone⟩ := h
    exact ⟨s.socks, by simp only [if_pos hlt, if_pos hnone]; rfl⟩
  | send c file bytesTransferred buffer =>
    rw [hpc] at h
    obtain ⟨rfl, hshort⟩ := h
    exact ⟨Function.update s.socks c (gfsSend (e.io c) (s.socks c) buffer).2,
      by simp only [if_pos hshort]; rfl⟩
  | _ => rw [hpc] at h; cases h

/-- The worker whose transfer fails closes its connection and ends the process. -/
theorem failure_ends_process (hrunning : s.ended = none) (h : s.Fails e i ctx) :
    ∃ s', (transfers e w).run (List.replicate 3 (.worker i)) s = some s' ∧
      s'.ended = some (.exit (-1)) ∧ (s'.socks ctx).closed = true ∧ s'.requeue = s.requeue ∧
      s'.reqlock = s.reqlock ∧ s'.filelock = s.filelock ∧ ∀ j ≠ i, s'.pcs j = s.pcs j := by
  obtain ⟨socks, h₁⟩ := h.workerStep
  let u : Transfers w := { s.goto i (.abort ctx) with socks := socks }
  let v := (u.goto i .exit).setSock ctx (gfsAbort (socks ctx))
  have hu : u.pcs i = .abort ctx := Function.update_self ..
  have hv : v.pcs i = .exit := Function.update_self ..
  have h₂ : u.workerStep e i = some v := by
    unfold Transfers.workerStep
    rw [hu]
  have h₃ : v.workerStep e i = some { v with ended := some (.exit (-1)) } := by
    unfold Transfers.workerStep
    rw [hv]
  refine ⟨{ v with ended := some (.exit (-1)) }, ?_, rfl, ?_, rfl, rfl, rfl, fun j hj => ?_⟩
  · have h₁' := (@step_worker w e s i hrunning).trans h₁
    have h₂' := (@step_worker w e u i hrunning).trans h₂
    have h₃' := (@step_worker w e v i hrunning).trans h₃
    show (step e (.worker i) s).bind (System.run _ _) = _
    rw [h₁']
    show (step e (.worker i) u).bind (System.run _ _) = _
    rw [h₂']
    show (step e (.worker i) v).bind (System.run _ _) = _
    rw [h₃']
    rfl
  · show (Function.update socks ctx (gfsAbort (socks ctx)) ctx).closed = true
    rw [Function.update_self]
    simp [gfsAbort, Sock.closed]
  · show Function.update (Function.update s.pcs i _) i _ j = s.pcs j
    rw [Function.update_of_ne hj, Function.update_of_ne hj]

/-! ## The lock of the files -/

/-- What a step of worker `i` does to its place in the code and to `filelock`. -/
inductive Moves (s s' : Transfers w) (i : Fin w) : Prop
  | keep (pc : TransferPc) (pcs : s'.pcs = Function.update s.pcs i pc)
      (filelock : s'.filelock = s.filelock)
      (inFile : (pc.InFile ↔ (s.pcs i).InFile) ∧ ((s.pcs i).Doomed → pc.Doomed))
  | take (pc : TransferPc) (pcs : s'.pcs = Function.update s.pcs i pc) (free : s.filelock = none)
      (filelock : s'.filelock = some i) (inFile : pc.InFile ∧ ¬ (s.pcs i).Doomed)
  | giveBack (pc : TransferPc) (pcs : s'.pcs = Function.update s.pcs i pc)
      (filelock : s'.filelock = none)
      (inFile : (s.pcs i).InFile ∧ ¬ pc.InFile ∧ ¬ (s.pcs i).Doomed)

/-- A move from a known place that does not concern the lock. -/
theorem Moves.stay {old : TransferPc} (hold : s.pcs i = old) (pc : TransferPc)
    (hpcs : s'.pcs = Function.update s.pcs i pc) (hlock : s'.filelock = s.filelock)
    (hsame : (pc.InFile ↔ old.InFile) ∧ (old.Doomed → pc.Doomed)) : s.Moves s' i :=
  .keep pc hpcs hlock (by rw [hold]; exact hsame)

theorem moves_of_workerStep (h : s.workerStep e i = some s') : s.Moves s' i := by
  have hself : s.pcs = Function.update s.pcs i (s.pcs i) := (Function.update_eq_self i s.pcs).symm
  have hmoves := workerMoves_of_step h
  generalize hpc : s.pcs i = pc at hmoves
  cases hmoves with
  | test =>
    refine .stay hpc _ rfl rfl ?_
    split <;> exact ⟨Iff.rfl, id⟩
  | lock free => exact .stay hpc .pop rfl rfl ⟨Iff.rfl, id⟩
  | pop c q hpop => exact .stay hpc (.unlock c) rfl rfl ⟨Iff.rfl, id⟩
  | underflow halt hpop => exact .keep (s.pcs i) hself rfl ⟨Iff.rfl, id⟩
  | unlock c => exact .stay hpc (.lookup c) rfl rfl ⟨Iff.rfl, id⟩
  | missing c hfile => exact .stay hpc (.notFound c) rfl rfl ⟨Iff.rfl, id⟩
  | found c file hfile => exact .stay hpc (.header c file) rfl rfl ⟨Iff.rfl, id⟩
  | notFound c => exact .stay hpc .test rfl rfl ⟨Iff.rfl, id⟩
  | header c file => exact .stay hpc (.lockFile c file) rfl rfl ⟨Iff.rfl, id⟩
  | lockFile c file free =>
    exact .take (.read c file 0) rfl free rfl (by rw [hpc]; exact ⟨trivial, id⟩)
  | readFails c file n hlt hnone => exact .stay hpc (.abort c) rfl rfl ⟨Iff.rfl, fun _ => trivial⟩
  | read c file n hlt hsome => exact .stay hpc (.send c file n _) rfl rfl ⟨Iff.rfl, id⟩
  | readEnd c file n hend => exact .stay hpc .unlockFile rfl rfl ⟨Iff.rfl, id⟩
  | sendFails c file n buffer hshort =>
    exact .stay hpc (.abort c) rfl rfl ⟨Iff.rfl, fun _ => trivial⟩
  | send c file n buffer hfull => exact .stay hpc (.read c file _) rfl rfl ⟨Iff.rfl, id⟩
  | unlockFile => exact .giveBack .test rfl rfl (by rw [hpc]; exact ⟨trivial, id, id⟩)
  | abort c => exact .stay hpc .exit rfl rfl ⟨Iff.rfl, id⟩
  | exit => exact .keep (s.pcs i) hself rfl ⟨Iff.rfl, id⟩

/-- The workers between `pthread_mutex_lock(&filelock)` and its release hold it. -/
def FileOwner (s : Transfers w) : Prop := ∀ j, s.filelock = some j ↔ (s.pcs j).InFile

theorem FileOwner.moves (h : s.FileOwner) (hm : s.Moves s' i) : s'.FileOwner := by
  have howned : Owned TransferPc.InFile s.filelock s.pcs := h
  show Owned TransferPc.InFile s'.filelock s'.pcs
  cases hm with
  | keep pc hpcs hlock hin =>
    rw [hpcs, hlock]
    exact howned.keep hin.1
  | take pc hpcs hfree hlock hin =>
    rw [hpcs, hlock]
    exact howned.take hfree hin.1
  | giveBack pc hpcs hlock hin =>
    rw [hpcs, hlock]
    exact howned.giveBack hin.1 hin.2.1

theorem Moves.doomed (hm : s.Moves s' i) (h : (s.pcs j).Doomed) : (s'.pcs j).Doomed := by
  obtain ⟨pc, hpcs, hdoomed⟩ :
      ∃ pc, s'.pcs = Function.update s.pcs i pc ∧ ((s.pcs i).Doomed → pc.Doomed) := by
    cases hm with
    | keep pc hpcs _ hin => exact ⟨pc, hpcs, hin.2⟩
    | take pc hpcs _ _ hin => exact ⟨pc, hpcs, fun hd => absurd hd hin.2⟩
    | giveBack pc hpcs _ hin => exact ⟨pc, hpcs, fun hd => absurd hd hin.2.2⟩
  rw [hpcs, Function.update_apply]
  split_ifs with hj
  · rw [hj] at h
    exact hdoomed h
  · exact h

/-- A step of the process moves a worker, or none of them and no lock. -/
theorem moves_of_step {a : TransferAct w} (h : step e a s = some s') :
    (∃ i, s.Moves s' i) ∨ s'.pcs = s.pcs ∧ s'.filelock = s.filelock := by
  unfold step at h
  cases hended : s.ended with
  | some how => rw [hended] at h; cases h
  | none =>
    rw [hended] at h
    cases a with
    | worker i => exact Or.inl ⟨i, moves_of_workerStep h⟩
    | enqueue node ctx =>
      apply Or.inr
      simp only [enqueueStep] at h
      split_ifs at h
      cases hq : s.requeue.enqueue node ctx with
      | ok q => rw [hq] at h; cases h; exact ⟨rfl, rfl⟩
      | error halt => rw [hq] at h; cases h; exact ⟨rfl, rfl⟩

theorem fileOwner_of_reach (h : (transfers e w).Reach System.anyStep s) : s.FileOwner := by
  refine h.invariant (fun j => iff_of_false nofun id) fun a s s' ih _ hstep => ?_
  rcases moves_of_step hstep with ⟨i, hm⟩ | ⟨hpcs, hlock⟩
  · exact ih.moves hm
  · intro j
    rw [hpcs, hlock]
    exact ih j

/-- A worker whose transfer has failed holds `filelock` for ever, whatever the others do. -/
theorem failing_worker_keeps_lock (h : (transfers e w).Reach System.anyStep s)
    (hdoomed : (s.pcs i).Doomed) {as : List (TransferAct w)}
    (hrun : (transfers e w).run as s = some s') :
    s'.filelock = some i ∧ ∀ j ≠ i, ¬ (s'.pcs j).InFile := by
  have hkeep : (s'.pcs i).Doomed := by
    induction as generalizing s with
    | nil => cases hrun; exact hdoomed
    | cons a as ih =>
      obtain ⟨u, hu, hrun⟩ := Option.bind_eq_some_iff.mp hrun
      refine ih (h.step trivial hu) ?_ hrun
      rcases moves_of_step hu with ⟨k, hm⟩ | ⟨hpcs, -⟩
      · exact hm.doomed hdoomed
      · rwa [hpcs]
  have howner := fileOwner_of_reach (h.run (System.meets_anyStep as s) hrun)
  have hlock : s'.filelock = some i := by
    apply (howner i).mpr
    cases hpc : s'.pcs i with
    | abort c => trivial
    | exit => trivial
    | _ => rw [hpc] at hkeep; cases hkeep
  refine ⟨hlock, fun j hj hin => hj ?_⟩
  have hjlock := (howner j).mpr hin
  rw [hlock, Option.some.injEq] at hjlock
  exact hjlock.symm

end Transfers

/-- No failing transfer leaves the process running. -/
theorem failure_never_isolated (e : Surroundings) (w : ℕ) (s : Transfers w) (i : Fin w) (ctx : ℕ)
    (h : s.Fails e i ctx) : ¬ s.Isolated e i ctx := by
  intro hisolated
  cases hended : s.ended with
  | some how =>
    have hunharmed := hisolated 0 s rfl (Or.inl (by rw [hended]; exact nofun))
    exact absurd (hended.symm.trans hunharmed.running) nofun
  | none =>
    obtain ⟨s', hrun, hexit, -⟩ := Transfers.failure_ends_process hended h
    have hunharmed := hisolated 3 s' hrun (Or.inl (by rw [hexit]; exact nofun))
    exact absurd (hexit.symm.trans hunharmed.running) nofun

/-- A file of one byte, and `pread` fails. -/
def failingRead : Surroundings :=
  ⟨fun _ => some ⟨[0], by decide⟩, fun _ => [], fun _ _ => none, fun _ _ => some 4096⟩

/-- One worker, and one request for the file. -/
def oneRequest : List (TransferAct 1) :=
  [.enqueue 0 0, .worker 0, .worker 0, .worker 0, .worker 0, .worker 0, .worker 0, .worker 0]

theorem failure_never_isolated_read : ∃ s : Transfers 1,
    (transfers failingRead 1).run oneRequest (transfers failingRead 1).init = some s ∧
      ¬ s.Isolated failingRead 0 0 :=
  ⟨_, rfl, failure_never_isolated failingRead 1 _ 0 0 ⟨rfl, by decide, by decide⟩⟩

/-- The process ends with the first failing `pread`. -/
theorem failure_not_isolated :
    ¬ ∀ (e : Surroundings) (w : ℕ) (s : Transfers w), (transfers e w).Reach System.anyStep s →
      ∀ (i : Fin w) (ctx : ℕ), s.Fails e i ctx → s.Isolated e i ctx := by
  intro h
  have hreach : (transfers failingRead 1).Reach System.anyStep _ :=
    @System.reach_of_run _ _ _ oneRequest _ rfl
  have hisolated := h failingRead 1 _ hreach 0 0 ⟨rfl, by decide, by decide⟩
  have hunharmed := hisolated 3 _ rfl (Or.inl nofun)
  exact absurd hunharmed.running nofun

end IntroOS.Mtgf
