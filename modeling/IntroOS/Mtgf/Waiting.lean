import IntroOS.Mtgf.Pool

/-!
# How long a request waits

The worker pool of `pr1/mtgf/handler.c`, for as long as the process runs. While a request is in the
queue, no worker polls in vain: every step of a worker brings it closer to its next `steque_pop`.

* As in `Pool`, each queue operation is one step, and so is serving a request, which is always
  possible. In the process a client that stops reading can hold up the worker that has `filelock`,
  and the others behind it; such a worker takes no steps, and nothing is said about when it does.

Main results:

* `Pool.serves_of_lt`: what every step takes from the work in front of a request.
* `pool_serves`: the request is handed to a worker within a number of steps of the workers that is
  given by its position in the queue, whatever the schedule, and some worker can always go on.
-/

namespace IntroOS.Mtgf

open Concurrency

/-- The steps of a worker to its next `steque_pop`, when the queue is not empty. -/
def WorkerPc.toPop {ι : Type} : WorkerPc ι → ℕ
  | .unlock _ => 4
  | .serve _ => 3
  | .test => 2
  | .lock => 1
  | .pop => 0

def PoolAct.isWorker {w : ℕ} {ι : Type} : PoolAct w ι → Bool
  | .enqueue _ _ => false
  | .worker _ => true

namespace Pool

variable {w : ℕ} {ι : Type} {s s' : Pool w ι} {i : Fin w} {l : List (ℕ × ι)}

/-- The steps of all workers to their next `steque_pop`. -/
def toPop (s : Pool w ι) : ℕ := ∑ i, (s.pcs i).toPop

theorem toPop_le (s : Pool w ι) : s.toPop ≤ 4 * w := by
  have hsum : ∑ i, (s.pcs i).toPop ≤ ∑ _i : Fin w, 4 :=
    Finset.sum_le_sum fun i _ => by cases s.pcs i <;> simp [WorkerPc.toPop]
  rw [Finset.sum_const, Finset.card_univ, Fintype.card_fin, smul_eq_mul, Nat.mul_comm] at hsum
  exact hsum

theorem toPop_update {pc : WorkerPc ι} (hpcs : s'.pcs = Function.update s.pcs i pc) :
    s'.toPop + (s.pcs i).toPop = s.toPop + pc.toPop := by
  unfold toPop
  rw [hpcs]
  exact sum_update_add WorkerPc.toPop s.pcs i pc

/-- A step of a worker that is no `steque_pop`: while there is a request, the worker comes closer
    to its next one. -/
theorem Sound.toward_pop (h : s.Sound l) (hpop : s.pcs i ≠ .pop) (hs : s.workerStep i = some s') :
    s'.Sound l ∧ (l ≠ [] → s'.toPop + 1 = s.toPop) := by
  have hnext : ∀ pc : WorkerPc ι, s'.pcs = Function.update s.pcs i pc →
      pc.toPop + 1 = (s.pcs i).toPop → s'.toPop + 1 = s.toPop := by
    intro pc hpcs hlt
    have hupdate := toPop_update hpcs
    omega
  cases hpc : s.pcs i with
  | pop => exact absurd hpc hpop
  | test =>
    rw [workerStep_test hpc] at hs
    cases hs
    refine ⟨h.goto (by rw [hpc]; split <;> exact Iff.rfl), fun hne => ?_⟩
    have hempty : s.requeue.isempty = false := by
      rw [Bool.eq_false_iff, ne_eq, h.repr.isempty]
      exact hne
    exact hnext .lock (by rw [hempty]; rfl) (by rw [hpc]; rfl)
  | lock =>
    have hfree : s.reqlock = none := by
      by_contra hheld
      rw [workerStep_blocked hpc hheld] at hs
      cases hs
    rw [workerStep_lock hpc hfree] at hs
    cases hs
    exact ⟨h.acquire hfree, fun _ => hnext .pop rfl (by rw [hpc]; rfl)⟩
  | unlock ctx =>
    rw [workerStep_unlock hpc] at hs
    cases hs
    exact ⟨h.release (by rw [hpc]; trivial) ctx, fun _ => hnext (.serve ctx) rfl (by rw [hpc]; rfl)⟩
  | serve ctx =>
    rw [workerStep_serve hpc] at hs
    cases hs
    exact ⟨h.goto (by rw [hpc]; exact Iff.rfl), fun _ => hnext .test rfl (by rw [hpc]; rfl)⟩

/-- A `steque_pop` sends the worker round its loop. -/
theorem Sound.pop_toPop {c : ℕ × ι} (h : s.Sound (c :: l)) (hpc : s.pcs i = .pop)
    (hs : s.workerStep i = some s') :
    s'.Sound l ∧ s'.toPop = s.toPop + 4 ∧ s'.pcs i = .unlock c.2 := by
  obtain ⟨q, hq, -⟩ := h.repr.pop
  obtain ⟨t, ht, hsound, -, -, hunlock⟩ := h.pop hpc
  rw [hs] at ht
  cases ht
  rw [workerStep_pop hpc hq] at hs
  cases hs
  have hupdate := @toPop_update w ι s { s.goto i (.unlock c.2) with requeue := q } i (.unlock c.2) rfl
  rw [hpc] at hupdate
  exact ⟨hsound, hupdate, hunlock⟩

/-- The boss does not stand in the way. -/
theorem Sound.enqueue_behind {node : ℕ} {req_ctx : ι} (h : s.Sound l)
    (hs : s.enqueueStep node req_ctx = some s') :
    s'.Sound (l ++ [(node, req_ctx)]) ∧ s'.toPop = s.toPop := by
  obtain ⟨hfree, hs⟩ := Option.ite_none_right_eq_some.mp hs
  obtain ⟨q, hq, hrepr⟩ := h.repr.enqueue (Option.isNone_iff_eq_none.mp hfree) req_ctx
  rw [hq] at hs
  cases hs
  exact ⟨⟨hrepr, h.running, h.owner⟩, rfl⟩

/-- Worker `i` is handed the request `ctx` by the next step. -/
structure HandsOver (i : Fin w) (ctx : ι) (s s' : Pool w ι) : Prop where
  step : (pool w ι).step (.worker i) s = some s'
  pop : s.pcs i = .pop
  ctx : s'.pcs i = .unlock ctx

/-- The request behind those of `l₁` is handed over as soon as the workers have taken more steps
    than are left for the requests in front of it. -/
theorem serves_of_lt {l₁ l₂ : List (ℕ × ι)} {c : ℕ × ι} {as : List (PoolAct w ι)}
    (h : s.Sound (l₁ ++ c :: l₂)) (hr : (pool w ι).run as s = some s')
    (hlt : 5 * l₁.length + s.toPop < as.countP PoolAct.isWorker) :
    ∃ as₁ i as₂ u v, as = as₁ ++ .worker i :: as₂ ∧ (pool w ι).run as₁ s = some u ∧
      HandsOver i c.2 u v := by
  induction as generalizing s l₁ l₂ with
  | nil => exact absurd hlt (Nat.not_lt_zero _)
  | cons a as ih =>
    obtain ⟨t, ht, hrest⟩ := Option.bind_eq_some_iff.mp hr
    have hlater : (∃ as₁ i as₂ u v, as = as₁ ++ .worker i :: as₂ ∧
        (pool w ι).run as₁ t = some u ∧ HandsOver i c.2 u v) →
        ∃ as₁ i as₂ u v, a :: as = as₁ ++ .worker i :: as₂ ∧
          (pool w ι).run as₁ s = some u ∧ HandsOver i c.2 u v := by
      rintro ⟨as₁, i, as₂, u, v, rfl, hu, hv⟩
      exact ⟨a :: as₁, i, as₂, u, v, rfl, by rw [System.run, ht, Option.bind_some, hu], hv⟩
    have hstep : Pool.step a s = some t := ht
    cases a with
    | enqueue node req_ctx =>
      rw [h.step_enqueue] at hstep
      obtain ⟨hsound, hpay⟩ := h.enqueue_behind hstep
      rw [List.append_assoc, List.cons_append] at hsound
      rw [List.countP_cons_of_neg Bool.false_ne_true] at hlt
      exact hlater (ih hsound hrest (by omega))
    | worker i =>
      rw [List.countP_cons_of_pos rfl] at hlt
      rw [h.step_worker] at hstep
      by_cases hpc : s.pcs i = .pop
      · cases l₁ with
        | nil =>
          obtain ⟨-, -, hunlock⟩ := h.pop_toPop hpc hstep
          exact ⟨[], i, as, s, t, rfl, rfl, ht, hpc, hunlock⟩
        | cons d l₁ =>
          obtain ⟨hsound, hpay, -⟩ := h.pop_toPop hpc hstep
          rw [List.length_cons] at hlt
          exact hlater (ih hsound hrest (by omega))
      · obtain ⟨hsound, hcloser⟩ := h.toward_pop hpc hstep
        have hpay := hcloser (by simp)
        exact hlater (ih hsound hrest (by omega))

theorem Sound.step {a : PoolAct w ι} (h : s.Sound l) (hs : Pool.step a s = some s') :
    s'.halted ≠ none ∨ ∃ l', s'.Sound l' := by
  cases a with
  | enqueue node req_ctx =>
    rw [h.step_enqueue] at hs
    exact .inr ⟨_, (h.enqueue_behind hs).1⟩
  | worker i =>
    rw [h.step_worker] at hs
    by_cases hpc : s.pcs i = .pop
    · cases l with
      | nil =>
        rw [Pool.workerStep, hpc, h.repr.pop_nil] at hs
        cases hs
        exact .inl (Option.some_ne_none _)
      | cons c l => exact .inr ⟨l, (h.pop_toPop hpc hs).1⟩
    · exact .inr ⟨l, (h.toward_pop hpc hs).1⟩

/-- A process that has not ended has a sound queue, even if the workers are crowded. -/
theorem sound_of_reach (h : (pool w ι).Reach System.anyStep s) :
    s.halted ≠ none ∨ ∃ l, s.Sound l := by
  refine h.invariant (I := fun s => s.halted ≠ none ∨ ∃ l, s.Sound l) ?_ ?_
  · obtain ⟨l, hsound, -⟩ := @ample_init w ι
    exact .inr ⟨l, hsound⟩
  · rintro a s s' (hhalted | ⟨l, hsound⟩) - hs
    · exfalso
      cases hend : s.halted with
      | none => exact hhalted hend
      | some e =>
        have hs : Pool.step a s = some s' := hs
        unfold Pool.step at hs
        rw [hend] at hs
        cases hs
    · exact hsound.step hs

/-- The worker that holds `reqlock` goes on, or any one if nobody holds it. -/
theorem Sound.progress (h : s.Sound l) (hw : 1 ≤ w) :
    ∃ i t, (pool w ι).step (.worker i) s = some t := by
  have hstep : ∀ i, (pool w ι).step (.worker i) s = s.workerStep i := fun i => h.step_worker
  have hgo : ∀ i, (s.pcs i = .lock → s.reqlock = none) → ∃ t, s.workerStep i = some t := by
    intro i hfree
    cases hpc : s.pcs i with
    | test => exact ⟨_, workerStep_test hpc⟩
    | lock => exact ⟨_, workerStep_lock hpc (hfree hpc)⟩
    | pop =>
      unfold Pool.workerStep
      rw [hpc]
      dsimp only
      cases s.requeue.pop <;> exact ⟨_, rfl⟩
    | unlock ctx => exact ⟨_, workerStep_unlock hpc⟩
    | serve ctx => exact ⟨_, workerStep_serve hpc⟩
  cases hlock : s.reqlock with
  | none =>
    obtain ⟨t, ht⟩ := hgo ⟨0, hw⟩ fun _ => hlock
    exact ⟨⟨0, hw⟩, t, (hstep _).trans ht⟩
  | some i =>
    have hin := (h.owner i).mp hlock
    obtain ⟨t, ht⟩ := hgo i fun hpc => by
      rw [hpc] at hin
      exact hin.elim
    exact ⟨i, t, (hstep i).trans ht⟩

end Pool

/-- From every state of a process that has not ended, whatever the schedule of the steps of the pool:
    a request with `l₁` in front of it in the queue is handed to a worker before the workers have
    taken `5 * l₁.length + 4 * w + 1` steps; and as long as the process has not ended, some worker
    can go on, if serving a request cannot block. -/
theorem pool_serves (w : ℕ) (ι : Type) (s s' : Pool w ι) (l₁ l₂ : List (ℕ × ι)) (c : ℕ × ι)
    (as : List (PoolAct w ι)) (h : (pool w ι).Reach System.anyStep s) (hruns : s.halted = none)
    (hqueue : s.requeue.Repr (l₁ ++ c :: l₂)) (hr : (pool w ι).run as s = some s') :
    (5 * l₁.length + 4 * w < as.countP PoolAct.isWorker →
        ∃ as₁ i as₂ u v, as = as₁ ++ .worker i :: as₂ ∧ (pool w ι).run as₁ s = some u ∧
          Pool.HandsOver i c.2 u v) ∧
      (1 ≤ w → s'.halted = none → ∃ i t, (pool w ι).step (.worker i) s' = some t) := by
  constructor
  · intro hlt
    obtain hhalted | ⟨l, hsound⟩ := Pool.sound_of_reach h
    · exact absurd hruns hhalted
    have hsound' : s.Sound (l₁ ++ c :: l₂) := ⟨hqueue, hruns, hsound.owner⟩
    have htoPop := s.toPop_le
    exact Pool.serves_of_lt hsound' hr (by omega)
  · intro hw hruns'
    obtain hhalted | ⟨l, hsound⟩ :=
      Pool.sound_of_reach (h.run (System.meets_anyStep as s) hr)
    · exact absurd hruns' hhalted
    · exact hsound.progress hw

/-- One worker takes the only request, and stops behind its `pthread_mutex_unlock`. -/
theorem pool_serves_one :
    ∃ s s' : Pool 1 ℕ, (pool 1 ℕ).run [.enqueue 0 7] (pool 1 ℕ).init = some s ∧
      (pool 1 ℕ).run (List.replicate 5 (.worker 0)) s = some s' ∧
        ∃ as₁ i as₂ u v, List.replicate 5 (.worker 0) = as₁ ++ .worker i :: as₂ ∧
          (pool 1 ℕ).run as₁ s = some u ∧ Pool.HandsOver i 7 u v := by
  have hreach := @System.reach_of_run _ _ (pool 1 ℕ) [.enqueue 0 7] _ rfl
  obtain ⟨q, hq, hrepr⟩ := (@Steque.Repr.init ℕ).enqueue (a := 0) rfl 7
  cases hq
  exact ⟨_, _, rfl, rfl, (pool_serves 1 ℕ _ _ [] [] (0, 7) _ hreach rfl hrepr rfl).1 (by decide)⟩

end IntroOS.Mtgf
