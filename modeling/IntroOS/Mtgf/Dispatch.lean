import IntroOS.Concurrency.Refinement
import IntroOS.Mtgf.StequeDestroy
import IntroOS.Mtgf.Waiting

/-!
# The worker pool is a queue

The threads of `pr1/mtgf/handler.c`, seen at the requests that `handler_get` appends and that
`steque_pop` hands to the workers, also in the runs in which some worker meets the empty queue in
the end.

Main results:

* `Pool.simulation`: the requests in the linked list are those of a queue, and the steps on the lock
  and the tests of its size do nothing to it.
* `pool_traces_iff`: the pool hands out the requests in their order, to any worker, and nothing else
  restricts which worker gets which request, and when.
-/

namespace IntroOS.Mtgf

open Concurrency

/-! ## Specification -/

/-- The boss appends a request, or a worker takes one. -/
inductive Dispatch (w : ℕ) (ι : Type)
  | append (req_ctx : ι)
  | take (i : Fin w) (ctx : ι)
  deriving DecidableEq, Repr

/-- A queue without a bound. Any worker may take the oldest request. -/
def dispatcher (w : ℕ) (ι : Type) [DecidableEq ι] : System (List ι) (Dispatch w ι) where
  init := []
  step
    | .append req_ctx, l => some (l ++ [req_ctx])
    | .take _ ctx, l => if l.head? = some ctx then some l.tail else none

/-! ## The requests in the queue -/

open Classical in
/-- The items of a well-formed steque, from `front`. -/
noncomputable def Steque.contents {ι : Type} (q : Steque ι) : List ι :=
  if h : ∃ l, q.Repr l then h.choose.map Prod.snd else []

theorem Steque.Repr.contents {ι : Type} {q : Steque ι} {l : List (ℕ × ι)} (h : q.Repr l) :
    q.contents = l.map Prod.snd := by
  have hex : ∃ l, q.Repr l := ⟨l, h⟩
  rw [Steque.contents, dif_pos hex, hex.choose_spec.chain.unique h.chain]

namespace Pool

variable {w : ℕ} {ι : Type} {s s' : Pool w ι} {a : PoolAct w ι} {i : Fin w} {l : List (ℕ × ι)}

/-- What a step does to the requests: a `steque_pop` takes one unless it meets the empty queue. -/
def operation (a : PoolAct w ι) (s : Pool w ι) : Option (Dispatch w ι) :=
  match a with
  | .enqueue _ req_ctx => some (.append req_ctx)
  | .worker i =>
    match s.pcs i with
    | .pop =>
      match s.requeue.pop with
      | .ok (ctx, _) => some (.take i ctx)
      | .error _ => none
    | _ => none

theorem operation_pop {ctx : ι} {q : Steque ι} (hpc : s.pcs i = .pop)
    (hq : s.requeue.pop = .ok (ctx, q)) : operation (.worker i) s = some (.take i ctx) := by
  rw [operation, hpc, hq]

theorem operation_of_ne (hpc : s.pcs i ≠ .pop) : operation (.worker i) s = none := by
  cases hpci : s.pcs i with
  | pop => exact absurd hpci hpc
  | test => rw [operation, hpci]
  | lock => rw [operation, hpci]
  | unlock ctx => rw [operation, hpci]
  | serve ctx => rw [operation, hpci]

theorem workerStep_requeue (hpc : s.pcs i ≠ .pop) (hs : s.workerStep i = some s') :
    s'.requeue = s.requeue := by
  cases hpci : s.pcs i with
  | pop => exact absurd hpci hpc
  | test =>
    rw [workerStep_test hpci] at hs
    cases hs
    rfl
  | lock =>
    rw [workerStep, hpci] at hs
    obtain ⟨-, hs⟩ := Option.ite_none_right_eq_some.mp hs
    cases hs
    rfl
  | unlock ctx =>
    rw [workerStep_unlock hpci] at hs
    cases hs
    rfl
  | serve ctx =>
    rw [workerStep_serve hpci] at hs
    cases hs
    rfl

/-- The process is sound, and the nodes of its queue are the only ones in use. -/
structure Orderly (s : Pool w ι) (l : List (ℕ × ι)) : Prop extends s.Sound l where
  holds : s.requeue.Holds l

theorem Orderly.contents (h : s.Orderly l) : s.requeue.contents = l.map Prod.snd := h.repr.contents

theorem orderly_init : (pool w ι).init.Orderly [] where
  repr := Steque.Repr.init
  running := rfl
  owner j := by simp [pool, WorkerPc.InLock]
  holds := Steque.Holds.init

/-- What a step of the process can be. -/
inductive Moves (s : Pool w ι) (l : List (ℕ × ι)) : PoolAct w ι → Pool w ι → Prop
  | append {s' : Pool w ι} (node : ℕ) (req_ctx : ι) (h : s'.Orderly (l ++ [(node, req_ctx)])) :
    Moves s l (.enqueue node req_ctx) s'
  | take {s' : Pool w ι} (i : Fin w) (c : ℕ × ι) (l' : List (ℕ × ι)) (hl : l = c :: l')
    (hop : operation (.worker i) s = some (.take i c.2)) (h : s'.Orderly l') :
    Moves s l (.worker i) s'
  | other {s' : Pool w ι} (i : Fin w) (hop : operation (.worker i) s = none)
    (hqueue : s'.requeue = s.requeue) (h : s'.halted ≠ none ∨ s'.Orderly l) :
    Moves s l (.worker i) s'

theorem Orderly.moves (h : s.Orderly l) (hs : Pool.step a s = some s') : Moves s l a s' := by
  cases a with
  | enqueue node req_ctx =>
    rw [h.step_enqueue] at hs
    have hsound := (h.enqueue_behind hs).1
    obtain ⟨hfree, hs⟩ := Option.ite_none_right_eq_some.mp hs
    obtain ⟨q, hq, -⟩ := h.repr.enqueue (Option.isNone_iff_eq_none.mp hfree) req_ctx
    rw [hq] at hs
    cases hs
    exact .append node req_ctx
      ⟨hsound, h.holds.enqueue (Option.isNone_iff_eq_none.mp hfree) hq⟩
  | worker i =>
    rw [h.step_worker] at hs
    by_cases hpc : s.pcs i = .pop
    · cases l with
      | nil =>
        have hnone : operation (.worker i) s = none := by rw [operation, hpc, h.repr.pop_nil]
        rw [Pool.workerStep, hpc, h.repr.pop_nil] at hs
        cases hs
        exact .other i hnone rfl (.inl (Option.some_ne_none _))
      | cons c l =>
        obtain ⟨q, hq, -⟩ := h.repr.pop
        have hsound := (h.pop_toPop hpc hs).1
        rw [workerStep_pop hpc hq] at hs
        cases hs
        exact .take i c l rfl (operation_pop hpc hq) ⟨hsound, (h.holds.pop hq).2⟩
    · have hqueue := workerStep_requeue hpc hs
      refine .other i (operation_of_ne hpc) hqueue (.inr ⟨(h.toward_pop hpc hs).1, ?_⟩)
      rw [hqueue]
      exact h.holds

/-- The process has ended, or it is orderly. -/
def Inv (s : Pool w ι) : Prop := s.halted ≠ none ∨ ∃ l, s.Orderly l

/-- A process that makes a step has not ended. -/
theorem Inv.orderly (h : s.Inv) (hs : Pool.step a s = some s') : ∃ l, s.Orderly l := by
  refine h.resolve_left fun hhalted => ?_
  obtain ⟨e, he⟩ := Option.ne_none_iff_exists'.mp hhalted
  unfold Pool.step at hs
  rw [he] at hs
  cases hs

theorem Inv.step (h : s.Inv) (hs : Pool.step a s = some s') : s'.Inv := by
  obtain ⟨l, hl⟩ := h.orderly hs
  cases hl.moves hs with
  | append node req_ctx h => exact .inr ⟨_, h⟩
  | take i c l' _ _ h => exact .inr ⟨_, h⟩
  | other i _ _ h => exact h.imp_right fun h => ⟨l, h⟩

theorem simulation [DecidableEq ι] :
    System.Simulation (pool w ι) (dispatcher w ι) operation Inv fun s => s.requeue.contents where
  init := ⟨.inr ⟨[], orderly_init⟩, orderly_init.contents⟩
  inv _ _ _ h hs := h.step hs
  seen := by
    intro a s s' b h hs hb
    obtain ⟨l, hl⟩ := h.orderly hs
    cases hl.moves hs with
    | append node req_ctx h =>
      cases hb
      rw [hl.contents, h.contents, List.map_append]
      rfl
    | take i c l' hcons hop h =>
      rw [hop] at hb
      cases hb
      rw [hl.contents, h.contents, hcons]
      exact if_pos rfl
    | other i hop _ _ =>
      rw [hop] at hb
      cases hb
  unseen := by
    intro a s s' h hs hb
    obtain ⟨l, hl⟩ := h.orderly hs
    cases hl.moves hs with
    | append node req_ctx h => cases hb
    | take i c l' _ hop h =>
      rw [hop] at hb
      cases hb
    | other i _ hqueue _ => exact congrArg Steque.contents hqueue

/-! ## Every order -/

/-- The process runs, and no worker is between its test and the next one. -/
structure Rests (s : Pool w ι) : Prop where
  running : s.halted = none
  free : s.reqlock = none
  test : ∀ i, s.pcs i = .test

/-- Worker `i` is at `pc`, and the others rest. -/
structure Alone (i : Fin w) (owner : Option (Fin w)) (pc : WorkerPc ι) (s : Pool w ι) : Prop where
  running : s.halted = none
  owner : s.reqlock = owner
  self : s.pcs i = pc
  others : ∀ j, j ≠ i → s.pcs j = .test

section Offers

variable {owner owner' : Option (Fin w)} {pc pc' : WorkerPc ι} {ctx : ι}
  {ops : List (Dispatch w ι)}

theorem Rests.alone (h : s.Rests) (i : Fin w) : s.Alone i none .test :=
  ⟨h.running, h.free, h.test i, fun j _ => h.test j⟩

theorem Alone.move (h : s.Alone i owner pc) (hrun : s'.halted = s.halted)
    (howner : s'.reqlock = owner') (hpcs : s'.pcs = Function.update s.pcs i pc') :
    s'.Alone i owner' pc' where
  running := hrun.trans h.running
  owner := howner
  self := by rw [hpcs, Function.update_self]
  others j hj := by rw [hpcs, Function.update_of_ne hj, h.others j hj]

theorem Alone.rests (h : s.Alone i none .test) : s.Rests where
  running := h.running
  free := h.owner
  test j := by
    by_cases hj : j = i
    · rw [hj, h.self]
    · exact h.others j hj

theorem Alone.step_eq (h : s.Alone i owner pc) :
    (pool w ι).step (.worker i) s = s.workerStep i := by
  show Pool.step (.worker i) s = s.workerStep i
  simp only [Pool.step, h.running]

/-- A step of `i` that takes no request. -/
theorem Alone.silent (h : s.Alone i owner pc) (hpc : pc ≠ .pop) (hs : s.workerStep i = some s')
    (hrest : (pool w ι).Shows operation ops Rests s') : (pool w ι).Shows operation ops Rests s := by
  apply System.Shows.silent (h.step_eq.trans hs) (operation_of_ne ?_) hrest
  rw [h.self]
  exact hpc

theorem Alone.serve (h : s.Alone i none (.serve ctx)) :
    (pool w ι).Shows operation [] Rests s := by
  have hback : (s.goto i .test).Alone i none .test := h.move rfl h.owner rfl
  apply h.silent (fun hpop => by cases hpop) (workerStep_serve h.self)
  exact .stop hback.rests

theorem Alone.unlock (h : s.Alone i (some i) (.unlock ctx)) :
    (pool w ι).Shows operation [] Rests s := by
  apply h.silent (fun hpop => by cases hpop) (workerStep_unlock h.self)
  exact Alone.serve (h.move rfl rfl rfl)

theorem Alone.pop {q : Steque ι} (h : s.Alone i (some i) .pop)
    (hq : s.requeue.pop = .ok (ctx, q)) :
    (pool w ι).Shows operation [.take i ctx] Rests s := by
  apply System.Shows.seen (h.step_eq.trans (workerStep_pop h.self hq)) (operation_pop h.self hq)
  exact Alone.unlock (h.move rfl h.owner rfl)

theorem Alone.lock {q : Steque ι} (h : s.Alone i none .lock)
    (hq : s.requeue.pop = .ok (ctx, q)) :
    (pool w ι).Shows operation [.take i ctx] Rests s := by
  apply h.silent (fun hpop => by cases hpop) (workerStep_lock h.self h.owner)
  exact Alone.pop (h.move rfl rfl rfl) hq

theorem Alone.test {q : Steque ι} (h : s.Alone i none .test)
    (hempty : s.requeue.isempty = false) (hq : s.requeue.pop = .ok (ctx, q)) :
    (pool w ι).Shows operation [.take i ctx] Rests s := by
  have hs := workerStep_test h.self
  rw [hempty] at hs
  apply h.silent (fun hpop => by cases hpop) hs
  exact Alone.lock (h.move rfl h.owner rfl) hq

end Offers

/-- `malloc` finds a free node. -/
theorem Orderly.exists_free (h : s.Orderly l) : ∃ node, s.requeue.heap node = none := by
  obtain ⟨node, hnode⟩ := Infinite.exists_notMem_finset (l.map Prod.fst).toFinset
  refine ⟨node, not_not.mp fun hused => hnode ?_⟩
  rw [List.mem_toFinset]
  exact (h.holds.inUse node).mp hused

theorem offers [DecidableEq ι] : System.Offers (pool w ι) (dispatcher w ι) operation Inv
    (fun s => s.requeue.contents) Rests := by
  intro s b t h hrests ht
  obtain ⟨l, hl⟩ := h.resolve_left fun hhalted => hhalted hrests.running
  dsimp only at ht
  rw [hl.contents] at ht
  cases b with
  | append req_ctx =>
    obtain ⟨node, hfree⟩ := hl.exists_free
    obtain ⟨q, hq, -⟩ := hl.repr.enqueue hfree req_ctx
    have hs : (pool w ι).step (.enqueue node req_ctx) s = some { s with requeue := q } := by
      show Pool.step (.enqueue node req_ctx) s = _
      rw [hl.step_enqueue, enqueueStep, hfree, Option.isNone_none, if_pos rfl, hq]
    exact .seen hs rfl (.stop ⟨hrests.running, hrests.free, hrests.test⟩)
  | take i ctx =>
    obtain ⟨hhead, -⟩ := Option.ite_none_right_eq_some.mp ht
    cases l with
    | nil => cases hhead
    | cons c l =>
      cases hhead
      obtain ⟨q, hq, -⟩ := hl.repr.pop
      refine (hrests.alone i).test ?_ hq
      rw [Bool.eq_false_iff, ne_eq, hl.repr.isempty]
      exact List.cons_ne_nil c l

end Pool

/-- What the boss appends and what the workers take, in the order of the schedule, are the
    operations of a queue; and whatever the queue allows is that of some schedule, with any choice
    of the worker that takes each request. -/
theorem pool_traces_iff (w : ℕ) (ι : Type) [DecidableEq ι] (ops : List (Dispatch w ι)) :
    (∃ as s, (pool w ι).run as (pool w ι).init = some s ∧
      (pool w ι).trace Pool.operation as (pool w ι).init = ops) ↔
      ∃ l, (dispatcher w ι).run ops [] = some l :=
  System.traces_iff Pool.simulation Pool.offers (.stop ⟨rfl, rfl, fun _ => rfl⟩) ops

/-- The second worker takes both requests. -/
example : (dispatcher 2 ℕ).run [.append 7, .append 8, .take 1 7, .take 1 8] [] = some [] := rfl

end IntroOS.Mtgf
