import IntroOS.Concurrency.Lock
import IntroOS.Mtgf.Steque

/-!
# The worker pool

Model of the threads of `pr1/mtgf/handler.c`: the boss appends requests to `requeue`
(`handler_get`), and the workers take them (`thd_callback`). Each operation on the queue,
on the mutex `reqlock`, and serving a request is one step; serving succeeds, and no worker waits
for `filelock` or for a client that has stopped reading. Fewer than 2^31 requests are queued, so
that `N` is a number without a bound.

Main results:

* `pool_never_underflows`: no `steque_pop` meets an empty queue in the runs in which a worker
  passes the test of the queue only when the requests outnumber the workers that have passed
  it and not popped yet.
* `crowded_underflows`: any other pass can be continued to a `steque_pop` on the empty queue.
* `single_worker_never_underflows`: with one worker every run is of the first kind.
-/

namespace IntroOS.Mtgf

open Concurrency

/-! ## The model -/

/-- What a worker does next (`thd_callback`, lines 74–134). -/
inductive WorkerPc (ι : Type)
  /-- `!steque_isempty(requeue)` (line 81) -/
  | test
  /-- `pthread_mutex_lock(&reqlock)` (line 84) -/
  | lock
  /-- `steque_pop(requeue)` (line 85) -/
  | pop
  /-- `pthread_mutex_unlock(&reqlock)` (line 86) -/
  | unlock (ctx : ι)
  /-- lines 88–127 -/
  | serve (ctx : ι)

/-- The worker holds `reqlock`. -/
def WorkerPc.InLock {ι : Type} : WorkerPc ι → Prop
  | pop | unlock _ => True
  | _ => False

/-- One if the worker has passed the test and not popped yet. -/
def WorkerPc.pending {ι : Type} : WorkerPc ι → ℕ
  | lock | pop => 1
  | _ => 0

/-- The state of the process with `w` workers. -/
structure Pool (w : ℕ) (ι : Type) where
  requeue : Steque ι
  reqlock : Option (Fin w)
  pcs : Fin w → WorkerPc ι
  halted : Option Halt

/-- A step of the boss, which enqueues a request in a new node, or of a worker. -/
inductive PoolAct (w : ℕ) (ι : Type)
  | enqueue (node : ℕ) (req_ctx : ι)
  | worker (i : Fin w)

namespace Pool

variable {w : ℕ} {ι : Type}

def goto (s : Pool w ι) (i : Fin w) (pc : WorkerPc ι) : Pool w ι :=
  { s with pcs := Function.update s.pcs i pc }

/-- The next step of worker `i`. -/
def workerStep (i : Fin w) (s : Pool w ι) : Option (Pool w ι) :=
  match s.pcs i with
  | .test => some (s.goto i (if s.requeue.isempty then .test else .lock))
  | .lock =>
    if s.reqlock.isNone then some { s.goto i .pop with reqlock := some i } else none
  | .pop =>
    match s.requeue.pop with
    | .ok (ctx, q) => some { s.goto i (.unlock ctx) with requeue := q }
    | .error e => some { s with halted := some e }
  | .unlock ctx => some { s.goto i (.serve ctx) with reqlock := none }
  | .serve _ => some (s.goto i .test)

/-- `steque_enqueue(requeue, req_ctx)` in `handler_get` (line 145). -/
def enqueueStep (node : ℕ) (req_ctx : ι) (s : Pool w ι) : Option (Pool w ι) :=
  if (s.requeue.heap node).isNone then
    match s.requeue.enqueue node req_ctx with
    | .ok q => some { s with requeue := q }
    | .error e => some { s with halted := some e }
  else none

def step (a : PoolAct w ι) (s : Pool w ι) : Option (Pool w ι) :=
  match s.halted, a with
  | some _, _ => none
  | none, .enqueue node req_ctx => s.enqueueStep node req_ctx
  | none, .worker i => s.workerStep i

/-- How many workers have passed the test and not popped yet. -/
def pending (s : Pool w ι) : ℕ := ∑ i, (s.pcs i).pending

/-- A worker executes `steque_pop` on an empty queue. -/
def Underflow (s : Pool w ι) : Prop := ∃ i, s.pcs i = .pop ∧ s.requeue.front = none

end Pool

/-- The process with `w` workers. -/
def pool (w : ℕ) (ι : Type) : System (Pool w ι) (PoolAct w ι) where
  init := ⟨Steque.init, none, fun _ => .test, none⟩
  step := Pool.step

/-- A worker passes the test only if there are more requests than workers that have passed it
    and not popped yet. -/
def Roomy {w : ℕ} {ι : Type} (a : PoolAct w ι) (s : Pool w ι) : Prop :=
  ∀ i, a = .worker i → s.pcs i = .test → s.requeue.isempty = false →
    (s.pending : ℤ) < s.requeue.N

namespace Pool

variable {w : ℕ} {ι : Type} {s s' : Pool w ι} {a : PoolAct w ι} {i : Fin w}
  {l : List (ℕ × ι)}

/-! ## What every step keeps -/

theorem pending_goto (s : Pool w ι) (i : Fin w) (pc : WorkerPc ι) :
    (s.goto i pc).pending + (s.pcs i).pending = s.pending + pc.pending :=
  sum_update_add WorkerPc.pending s.pcs i pc

/-! ## The steps of a worker -/

theorem workerStep_test (hpc : s.pcs i = .test) :
    s.workerStep i = some (s.goto i (if s.requeue.isempty then .test else .lock)) := by
  rw [workerStep, hpc]

theorem workerStep_lock (hpc : s.pcs i = .lock) (hlock : s.reqlock = none) :
    s.workerStep i = some { s.goto i .pop with reqlock := some i } := by
  rw [workerStep, hpc, hlock]
  rfl

theorem workerStep_blocked (hpc : s.pcs i = .lock) (hlock : s.reqlock ≠ none) :
    s.workerStep i = none := by
  rw [workerStep, hpc]
  exact if_neg fun h => hlock (Option.isNone_iff_eq_none.mp h)

theorem workerStep_pop {ctx : ι} {q : Steque ι} (hpc : s.pcs i = .pop)
    (hq : s.requeue.pop = .ok (ctx, q)) :
    s.workerStep i = some { s.goto i (.unlock ctx) with requeue := q } := by
  rw [workerStep, hpc, hq]

theorem workerStep_unlock {ctx : ι} (hpc : s.pcs i = .unlock ctx) :
    s.workerStep i = some { s.goto i (.serve ctx) with reqlock := none } := by
  rw [workerStep, hpc]

theorem workerStep_serve {ctx : ι} (hpc : s.pcs i = .serve ctx) :
    s.workerStep i = some (s.goto i .test) := by
  rw [workerStep, hpc]

/-- The queue is well formed and its requests are those of `l`, the process is running, and
    the workers between `pthread_mutex_lock` and `pthread_mutex_unlock` hold `reqlock`. -/
structure Sound (s : Pool w ι) (l : List (ℕ × ι)) : Prop where
  repr : s.requeue.Repr l
  running : s.halted = none
  owner : ∀ j, s.reqlock = some j ↔ (s.pcs j).InLock

theorem Sound.owned (h : s.Sound l) : Owned WorkerPc.InLock s.reqlock s.pcs := h.owner

theorem Sound.goto (h : s.Sound l) {pc : WorkerPc ι} (hpc : pc.InLock ↔ (s.pcs i).InLock) :
    (s.goto i pc).Sound l :=
  ⟨h.repr, h.running, h.owned.keep hpc⟩

theorem Sound.acquire (h : s.Sound l) (hlock : s.reqlock = none) :
    Sound { s.goto i .pop with reqlock := some i } l :=
  have hin : (WorkerPc.pop : WorkerPc ι).InLock := trivial
  ⟨h.repr, h.running, h.owned.take hlock hin⟩

theorem Sound.release (h : s.Sound l) (hin : (s.pcs i).InLock) (ctx : ι) :
    Sound { s.goto i (.serve ctx) with reqlock := none } l :=
  have hout : ¬ (WorkerPc.serve ctx).InLock := id
  ⟨h.repr, h.running, h.owned.giveBack hin hout⟩

theorem Sound.pop {c : ℕ × ι} (h : s.Sound (c :: l)) (hpc : s.pcs i = .pop) :
    ∃ s', s.workerStep i = some s' ∧ s'.Sound l ∧ s'.pending + 1 = s.pending ∧
      s'.reqlock = s.reqlock ∧ s'.pcs i = .unlock c.2 := by
  obtain ⟨q, hq, hrepr⟩ := h.repr.pop
  have hin : (WorkerPc.unlock c.2).InLock ↔ (s.pcs i).InLock := by rw [hpc]; exact Iff.rfl
  have hpending := s.pending_goto i (.unlock c.2)
  rw [hpc] at hpending
  exact ⟨_, workerStep_pop hpc hq, ⟨hrepr, h.running, (h.goto hin).owner⟩, hpending, rfl,
    Function.update_self ..⟩

/-- What a step of a worker does: a `steque_pop` ends the process on an empty queue, a passed
    test makes one more worker wait, and every other step leaves the queue as far ahead of
    the waiting workers as it was. -/
theorem Sound.workerStep (h : s.Sound l) (hstep : s.workerStep i = some s') :
    s.Underflow ∨ ∃ l', s'.Sound l' ∧
      (s'.pending + l.length ≤ s.pending + l'.length ∨
        l' = l ∧ s'.pending = s.pending + 1 ∧ s.pcs i = .test ∧ s.requeue.isempty = false) := by
  have hpending := s.pending_goto i
  cases hpc : s.pcs i with
  | test =>
    rw [workerStep_test hpc] at hstep
    cases hstep
    rw [hpc] at hpending
    have hsound : (s.goto i (if s.requeue.isempty then .test else .lock)).Sound l :=
      h.goto (by rw [hpc]; split <;> exact Iff.rfl)
    refine Or.inr ⟨l, hsound, ?_⟩
    cases hempty : s.requeue.isempty with
    | true => exact Or.inl (Nat.add_le_add_right (hpending .test).le _)
    | false => exact Or.inr ⟨rfl, hpending .lock, rfl, rfl⟩
  | lock =>
    by_cases hlock : s.reqlock = none
    · rw [workerStep_lock hpc hlock] at hstep
      cases hstep
      rw [hpc] at hpending
      exact Or.inr ⟨l, h.acquire hlock,
        Or.inl (Nat.add_le_add_right (Nat.le_of_add_le_add_right (hpending .pop).le) _)⟩
    · rw [workerStep_blocked hpc hlock] at hstep
      cases hstep
  | pop =>
    cases l with
    | nil => exact Or.inl ⟨i, hpc, h.repr.front_eq_none.mpr rfl⟩
    | cons c l =>
      obtain ⟨t, ht, hsound, hpend, -, -⟩ := h.pop hpc
      rw [hstep] at ht
      cases ht
      exact Or.inr ⟨l, hsound, Or.inl (by rw [List.length_cons]; omega)⟩
  | unlock ctx =>
    rw [workerStep_unlock hpc] at hstep
    cases hstep
    have hin : (s.pcs i).InLock := by rw [hpc]; trivial
    rw [hpc] at hpending
    exact Or.inr ⟨l, h.release hin ctx,
      Or.inl (Nat.add_le_add_right (hpending (.serve ctx)).le _)⟩
  | serve ctx =>
    rw [workerStep_serve hpc] at hstep
    cases hstep
    have hin : (WorkerPc.test : WorkerPc ι).InLock ↔ (s.pcs i).InLock := by rw [hpc]; exact Iff.rfl
    rw [hpc] at hpending
    exact Or.inr ⟨l, h.goto hin, Or.inl (Nat.add_le_add_right (hpending .test).le _)⟩

theorem Sound.enqueueStep {node : ℕ} {req_ctx : ι} (h : s.Sound l)
    (hstep : s.enqueueStep node req_ctx = some s') :
    ∃ l', s'.Sound l' ∧ s'.pending + l.length ≤ s.pending + l'.length := by
  unfold Pool.enqueueStep at hstep
  by_cases hfree : (s.requeue.heap node).isNone
  · obtain ⟨q, hq, hrepr⟩ := h.repr.enqueue (Option.isNone_iff_eq_none.mp hfree) req_ctx
    rw [if_pos hfree, hq] at hstep
    cases hstep
    refine ⟨_, ⟨hrepr, h.running, h.owner⟩, ?_⟩
    rw [List.length_append]
    exact Nat.add_le_add_left (Nat.le_add_right ..) s.pending
  · rw [if_neg hfree] at hstep
    cases hstep

theorem Sound.step_enqueue {node : ℕ} {req_ctx : ι} (h : s.Sound l) :
    Pool.step (.enqueue node req_ctx) s = s.enqueueStep node req_ctx := by
  simp only [Pool.step, h.running]

theorem Sound.step_worker (h : s.Sound l) : Pool.step (.worker i) s = s.workerStep i := by
  simp only [Pool.step, h.running]

/-! ## Runs without underflow -/

/-- The queue is sound and has a request for every worker that has passed the test. -/
def Ample (s : Pool w ι) : Prop := ∃ l, s.Sound l ∧ s.pending ≤ l.length

theorem Ample.not_underflow (h : s.Ample) : ¬ s.Underflow := by
  rintro ⟨i, hpc, hfront⟩
  obtain ⟨l, hsound, hle⟩ := h
  obtain rfl := hsound.repr.front_eq_none.mp hfront
  have hone : (s.pcs i).pending ≤ s.pending :=
    Finset.single_le_sum (f := fun j => (s.pcs j).pending) (fun _ _ => Nat.zero_le _)
      (Finset.mem_univ i)
  rw [hpc] at hone
  exact absurd (hone.trans hle) (by simp [WorkerPc.pending])

theorem ample_init : (pool w ι).init.Ample := by
  refine ⟨[], ⟨Steque.Repr.init, rfl, fun j => ?_⟩, ?_⟩
  · simp [pool, WorkerPc.InLock]
  · simp [pool, pending, WorkerPc.pending]

theorem Ample.step (h : s.Ample) (hroomy : Roomy a s) (hstep : Pool.step a s = some s') :
    s'.Ample := by
  have hnot := h.not_underflow
  obtain ⟨l, hsound, hle⟩ := h
  cases a with
  | enqueue node req_ctx =>
    rw [hsound.step_enqueue] at hstep
    obtain ⟨l', hsound', hkeep⟩ := hsound.enqueueStep hstep
    exact ⟨l', hsound', by omega⟩
  | worker i =>
    rw [hsound.step_worker] at hstep
    rcases hsound.workerStep hstep with hunder | ⟨l', hsound', hkeep | ⟨rfl, hpend, hpc, hempty⟩⟩
    · exact absurd hunder hnot
    · exact ⟨l', hsound', by omega⟩
    · have hroom := hroomy i rfl hpc hempty
      rw [hsound.repr.count] at hroom
      exact ⟨l', hsound', by omega⟩

/-! ## Runs into an underflow -/

/-- Some schedule leads to a `steque_pop` on the empty queue. -/
def Leads (s : Pool w ι) : Prop := ∃ as s', (pool w ι).run as s = some s' ∧ s'.Underflow

theorem Leads.of_worker (h : s.Sound l) (hstep : s.workerStep i = some s') (hs' : s'.Leads) :
    s.Leads := by
  have hfirst : (pool w ι).step (.worker i) s = some s' := h.step_worker.trans hstep
  exact System.LeadsTo.of_step hfirst hs'

section Crowded

variable (ih : ∀ c m, l = c :: m → ∀ t : Pool w ι, t.Sound m → m.length < t.pending → t.Leads)

include ih

theorem Sound.leads_of_pop (h : s.Sound l) (hlt : l.length < s.pending) (hpc : s.pcs i = .pop) :
    s.Leads := by
  cases l with
  | nil => exact ⟨[], s, rfl, i, hpc, h.repr.front_eq_none.mpr rfl⟩
  | cons c m =>
    obtain ⟨t, ht, hsound, hpend, -, -⟩ := h.pop hpc
    rw [List.length_cons] at hlt
    exact Leads.of_worker h ht (ih c m rfl t hsound (by omega))

theorem Sound.leads_of_free (h : s.Sound l) (hlt : l.length < s.pending)
    (hlock : s.reqlock = none) : s.Leads := by
  obtain ⟨i, -, hi⟩ := Finset.exists_ne_zero_of_sum_ne_zero
    (show ∑ i, (s.pcs i).pending ≠ 0 from (Nat.zero_le _).trans_lt hlt |>.ne')
  have hpending := s.pending_goto i .pop
  cases hpc : s.pcs i with
  | pop => exact h.leads_of_pop ih hlt hpc
  | lock =>
    rw [hpc] at hpending
    have hsame : (s.goto i .pop).pending = s.pending := Nat.add_right_cancel hpending
    exact Leads.of_worker h (workerStep_lock hpc hlock)
      ((h.acquire hlock).leads_of_pop ih (hsame ▸ hlt) (Function.update_self ..))
  | test | unlock ctx | serve ctx => simp [hpc, WorkerPc.pending] at hi

theorem Sound.leads_step (h : s.Sound l) (hlt : l.length < s.pending) : s.Leads := by
  cases hlock : s.reqlock with
  | none => exact h.leads_of_free ih hlt hlock
  | some j =>
    have hin : (s.pcs j).InLock := (h.owner j).mp hlock
    have hpending := s.pending_goto j
    cases hpc : s.pcs j with
    | pop => exact h.leads_of_pop ih hlt hpc
    | unlock ctx =>
      rw [hpc] at hpending
      have hsame : (s.goto j (.serve ctx)).pending = s.pending := hpending (.serve ctx)
      exact Leads.of_worker h (workerStep_unlock hpc)
        ((h.release hin ctx).leads_of_free ih (hsame ▸ hlt) rfl)
    | test | lock | serve ctx => simp [hpc, WorkerPc.InLock] at hin

end Crowded

/-- With more workers behind the test than requests, the last of them pops an empty queue. -/
theorem Sound.leads (h : s.Sound l) (hlt : l.length < s.pending) : s.Leads := by
  induction l generalizing s with
  | nil => exact h.leads_step (fun _ _ heq => by cases heq) hlt
  | cons c m ih =>
    refine h.leads_step (fun _ _ heq t ht hlt => ?_) hlt
    cases heq
    exact ih ht hlt

end Pool

section Runs

variable {w : ℕ} {ι : Type} {s s' : Pool w ι} {a : PoolAct w ι}

theorem ample_of_reach (h : (pool w ι).Reach Roomy s) : s.Ample :=
  h.invariant Pool.ample_init fun _ _ _ ih hg hs => ih.step hg hs

/-- No `steque_pop` meets an empty queue, and the process does not end, in a run in which the
    workers pass the test only while there are more requests than workers between the test
    and `steque_pop`. -/
theorem pool_never_underflows (w : ℕ) (ι : Type) (s : Pool w ι) (h : (pool w ι).Reach Roomy s) :
    ¬ s.Underflow ∧ s.halted = none := by
  have hample := ample_of_reach h
  obtain ⟨l, hsound, -⟩ := id hample
  exact ⟨hample.not_underflow, hsound.running⟩

/-- Two workers and one request that the first of them has popped. -/
theorem pool_never_underflows_two : ∃ s : Pool 2 ℕ,
    (pool 2 ℕ).run [.enqueue 0 7, .worker 0, .worker 0, .worker 0, .worker 1] (pool 2 ℕ).init =
      some s ∧ ¬ s.Underflow ∧ s.halted = none := by
  have hroomy : ∀ {s : Pool 2 ℕ}, s.pcs 0 ≠ .test → Roomy (.worker 0) s := by
    intro s hne i hi hpc
    cases hi
    exact absurd hpc hne
  have h₁ : (pool 2 ℕ).Reach Roomy _ := .step .init (a := .enqueue 0 7) (by exact nofun) rfl
  have h₂ : (pool 2 ℕ).Reach Roomy _ := .step h₁ (a := .worker 0) (by
    intro i hi _ _
    cases hi
    decide) rfl
  have h₃ : (pool 2 ℕ).Reach Roomy _ := .step h₂ (a := .worker 0) (hroomy (by exact nofun)) rfl
  have h₄ : (pool 2 ℕ).Reach Roomy _ := .step h₃ (a := .worker 0) (hroomy (by exact nofun)) rfl
  have h₅ : (pool 2 ℕ).Reach Roomy _ := .step h₄ (a := .worker 1) (by
    intro i hi _ hempty
    cases hi
    cases hempty) rfl
  exact ⟨_, rfl, pool_never_underflows 2 ℕ _ h₅⟩

/-- Two workers see the same request: the second one pops the empty queue. -/
theorem pool_underflows :
    ¬ ∀ (w : ℕ) (ι : Type), 1 ≤ w → ∀ s : Pool w ι, (pool w ι).Reach System.anyStep s →
      ¬ s.Underflow ∧ s.halted = none := by
  intro h
  have hreach : (pool 2 ℕ).Reach System.anyStep _ := @System.reach_of_run _ _ _
    [.enqueue 0 7, .worker 0, .worker 1, .worker 0, .worker 0, .worker 0, .worker 1] _ rfl
  exact (h 2 ℕ (by decide) _ hreach).1 ⟨1, rfl, rfl⟩

/-- A worker that passes the test when the requests do not outnumber the workers behind it
    can be led into a `steque_pop` on the empty queue. -/
theorem crowded_underflows (h : (pool w ι).Reach Roomy s) (hcrowded : ¬ Roomy a s)
    (hstep : (pool w ι).step a s = some s') : s'.Leads := by
  obtain ⟨l, hsound, -⟩ := ample_of_reach h
  unfold Roomy at hcrowded
  push Not at hcrowded
  obtain ⟨i, rfl, hpc, hempty, hle⟩ := hcrowded
  have hs' : some s' = some (s.goto i .lock) := by
    rw [← hstep]
    refine hsound.step_worker.trans ((Pool.workerStep_test hpc).trans ?_)
    rw [hempty]
    rfl
  cases hs'
  have hpending := s.pending_goto i .lock
  rw [hpc] at hpending
  have hin : (WorkerPc.lock : WorkerPc ι).InLock ↔ (s.pcs i).InLock := by rw [hpc]; exact Iff.rfl
  apply (hsound.goto hin).leads
  rw [hsound.repr.count] at hle
  change (s.goto i .lock).pending = s.pending + 1 at hpending
  omega

theorem roomy_of_single {s : Pool 1 ι} {a : PoolAct 1 ι} (h : s.Ample) : Roomy a s := by
  intro i _ hpc hempty
  obtain ⟨l, hsound, -⟩ := h
  have hpending : s.pending = 0 := by
    rw [Pool.pending, Fin.sum_univ_one, ← Subsingleton.elim i 0, hpc]
    rfl
  have hne : l ≠ [] := fun hnil => by
    rw [hsound.repr.isempty.mpr hnil] at hempty
    cases hempty
  rw [hpending, hsound.repr.count, Nat.cast_zero, Nat.cast_pos]
  exact List.length_pos_of_ne_nil hne

/-- One worker alone never pops an empty queue. -/
theorem single_worker_never_underflows {s : Pool 1 ι}
    (h : (pool 1 ι).Reach System.anyStep s) : ¬ s.Underflow ∧ s.halted = none := by
  have hample : s.Ample := h.invariant Pool.ample_init fun _ _ _ ih _ hs =>
    ih.step (roomy_of_single ih) hs
  obtain ⟨l, hsound, -⟩ := id hample
  exact ⟨hample.not_underflow, hsound.running⟩

end Runs

end IntroOS.Mtgf
