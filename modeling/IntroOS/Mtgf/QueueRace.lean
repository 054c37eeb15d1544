import IntroOS.Concurrency.System
import IntroOS.Mtgf.Steque

/-!
# The request queue under interleaving

The boss runs `steque_enqueue` without `reqlock` while a worker that holds `reqlock` runs
`steque_pop`. Each test, each assignment and each call in the two functions is one step, and
so are the test of the queue, taking and releasing the mutex, and serving a request. Fewer than
2^31 requests are queued, so that `N` is a number without a bound.

Main results:

* `run_enqueue`, `run_pop`: alone, the statements make the functions of `Mtgf/Steque.lean`.
* `Intact.enqueue` to `Intact.decN`: what each statement does to the queue, as long as it keeps
  apart from the statements of the other side that it would collide with.
* `queue_intact`: in every run whose steps keep apart, the queue is well formed whenever
  nobody works on it, and no request is lost, duplicated or reordered.
-/

namespace IntroOS.Mtgf

open Concurrency LinkedList

/-! ## The model -/

/-- What the boss does next in `steque_enqueue` (`steque.c`, lines 11–25). -/
inductive EnqueuePc (ι : Type)
  | idle
  /-- `this->back == NULL` (line 18) -/
  | testBack (node : ℕ) (item : ι)
  /-- `this->front = node` (line 19) -/
  | setFront (node : ℕ) (item : ι)
  /-- `this->back->next = node` (line 21) -/
  | linkNext (node : ℕ) (item : ι)
  /-- `this->back = node` (line 23) -/
  | setBack (node : ℕ) (item : ι)
  /-- `this->N++` (line 24) -/
  | incN

/-- What the worker that holds `reqlock` does next in `steque_pop` (`steque.c`, lines 49–69). -/
inductive PopPc (ι : Type)
  /-- `this->front == NULL` (line 53) -/
  | testFront
  /-- `node = this->front` (line 59) -/
  | setNode
  /-- `ans = node->item` (line 60) -/
  | getAns (node : Option ℕ)
  /-- `this->front = this->front->next` (line 62) -/
  | advance (node : Option ℕ) (ans : ι)
  /-- `this->front == NULL` (line 63) -/
  | testEmpty (node : Option ℕ) (ans : ι)
  /-- `this->back = NULL` (line 63) -/
  | clearBack (node : Option ℕ) (ans : ι)
  /-- `free(node)` (line 64) -/
  | free (node : Option ℕ) (ans : ι)
  /-- `this->N--` (line 66) -/
  | decN (ans : ι)
  /-- `pthread_mutex_unlock(&reqlock)` (`handler.c`, line 86) -/
  | unlock (ans : ι)

/-- Where a worker is in `thd_callback` (`handler.c`, lines 81–127). -/
inductive CallbackPc (ι : Type)
  | test
  | lock
  /-- it holds `reqlock` -/
  | inLock
  | serve (ctx : ι)

/-- The state of the process with `w` workers. The requests of all calls of `steque_enqueue`
    and of all calls of `steque_pop` that have come to their end are recorded in order. -/
structure Race (w : ℕ) (ι : Type) where
  requeue : Steque ι
  boss : EnqueuePc ι
  reqlock : Option (Fin w × PopPc ι)
  workers : Fin w → CallbackPc ι
  enqueued : List ι
  popped : List ι
  halted : Option Halt

/-- A step: the boss calls `steque_enqueue`, or goes on in it, or a worker goes on. -/
inductive RaceAct (w : ℕ) (ι : Type)
  | enqueue (node : ℕ) (item : ι)
  | boss
  | worker (i : Fin w)

namespace Race

variable {w : ℕ} {ι : Type}

/-- The next statement of the boss. -/
def bossStep (s : Race w ι) : Option (Race w ι) :=
  match s.boss with
  | .idle => none
  | .testBack node item =>
    some { s with boss := if s.requeue.back.isNone then .setFront node item
                          else .linkNext node item }
  | .setFront node item =>
    some { s with requeue := { s.requeue with front := some node }, boss := .setBack node item }
  | .linkNext node item =>
    match s.requeue.linkBack node with
    | .ok q => some { s with requeue := q, boss := .setBack node item }
    | .error e => some { s with halted := some e }
  | .setBack node _ =>
    some { s with requeue := { s.requeue with back := some node }, boss := .incN }
  | .incN => some { s with requeue := { s.requeue with N := s.requeue.N + 1 }, boss := .idle }

/-- The next statement of worker `i`, which holds `reqlock` and has come to `pc`. -/
def popStep (i : Fin w) (pc : PopPc ι) (s : Race w ι) : Race w ι :=
  match pc with
  | .testFront =>
    if s.requeue.front.isNone then { s with halted := some .underflow }
    else { s with reqlock := some (i, .setNode) }
  | .setNode => { s with reqlock := some (i, .getAns s.requeue.front) }
  | .getAns node =>
    match s.requeue.nodeItem node with
    | .ok ans => { s with reqlock := some (i, .advance node ans) }
    | .error e => { s with halted := some e }
  | .advance node ans =>
    match s.requeue.advance with
    | .ok q => { s with requeue := q, reqlock := some (i, .testEmpty node ans) }
    | .error e => { s with halted := some e }
  | .testEmpty node ans =>
    { s with reqlock := some (i, if s.requeue.front.isNone then .clearBack node ans
                                 else .free node ans) }
  | .clearBack node ans =>
    { s with requeue := { s.requeue with back := none }, reqlock := some (i, .free node ans) }
  | .free node ans =>
    match s.requeue.free node with
    | .ok q => { s with requeue := q, reqlock := some (i, .decN ans) }
    | .error e => { s with halted := some e }
  | .decN ans =>
    { s with requeue := { s.requeue with N := s.requeue.N - 1 }, reqlock := some (i, .unlock ans),
             popped := s.popped ++ [ans] }
  | .unlock ans =>
    { s with reqlock := none, workers := Function.update s.workers i (.serve ans) }

/-- The next step of worker `i`. -/
def workerStep (i : Fin w) (s : Race w ι) : Option (Race w ι) :=
  match s.workers i, s.reqlock with
  | .test, _ =>
    some { s with workers := Function.update s.workers i
                    (if s.requeue.isempty then .test else .lock) }
  | .lock, none =>
    some { s with reqlock := some (i, .testFront),
                  workers := Function.update s.workers i .inLock }
  | .inLock, some (j, pc) => if j = i then some (s.popStep i pc) else none
  | .serve _, _ => some { s with workers := Function.update s.workers i .test }
  | _, _ => none

/-- `steque_enqueue(requeue, item)` begins: `malloc` returns a free address. -/
def enqueueStep (node : ℕ) (item : ι) (s : Race w ι) : Option (Race w ι) :=
  match s.boss with
  | .idle =>
    if (s.requeue.heap node).isNone then
      some { s with requeue := s.requeue.newNode node item, boss := .testBack node item,
                    enqueued := s.enqueued ++ [item] }
    else none
  | _ => none

def step (a : RaceAct w ι) (s : Race w ι) : Option (Race w ι) :=
  match s.halted, a with
  | some _, _ => none
  | none, .enqueue node item => s.enqueueStep node item
  | none, .boss => s.bossStep
  | none, .worker i => s.workerStep i

end Race

/-- The process with `w` workers. -/
def queueRace (w : ℕ) (ι : Type) : System (Race w ι) (RaceAct w ι) where
  init := ⟨Steque.init, .idle, none, fun _ => .test, [], [], none⟩
  step := Race.step

/-- A `steque_pop` is at work. -/
def PopPc.working {ι : Type} : PopPc ι → Bool
  | unlock _ => false
  | _ => true

/-- No queue operation is in progress. -/
def Race.quiet {w : ℕ} {ι : Type} (s : Race w ι) : Bool :=
  match s.boss, s.reqlock with
  | .idle, none => true
  | .idle, some (_, pc) => !pc.working
  | _, _ => false

/-- The first node is the only one. -/
def Steque.single {ι : Type} (q : Steque ι) : Bool :=
  match q.front.bind q.heap with
  | some c => c.next.isNone
  | none => false

/-- The step keeps apart from the other side:
    * the boss does not test `back` between the assignment to `front` that has emptied the
      queue and `this->back = NULL`;
    * a worker does not take the only node while the boss is about to link behind it;
    * a worker does not execute `this->back = NULL` while the boss is about to assign
      `this->back`. -/
def Race.apart {w : ℕ} {ι : Type} (a : RaceAct w ι) (s : Race w ι) : Bool :=
  match a, s.boss, s.reqlock with
  | .boss, .testBack _ _, _ => s.requeue.front.isSome || s.requeue.back.isNone
  | .worker i, .linkNext _ _, some (j, .advance _ _) => j ≠ i || !s.requeue.single
  | .worker i, .setBack _ _, some (j, .clearBack _ _) => j ≠ i
  | _, _, _ => true

/-! ## One side alone

Without the other side, the statements come to what `Steque.enqueue` and `Steque.pop` say. -/

namespace Race

section Alone

variable {w : ℕ} {ι : Type} {s : Race w ι} {i : Fin w} {q : Steque ι} {item : ι}

theorem run_enqueue {node : ℕ} (hboss : s.boss = .idle) (hrun : s.halted = none)
    (hfree : s.requeue.heap node = none) (hq : s.requeue.enqueue node item = .ok q) :
    (queueRace w ι).run [.enqueue node item, .boss, .boss, .boss, .boss] s =
      some { s with requeue := q, enqueued := s.enqueued ++ [item] } := by
  obtain ⟨⟨heap, front, back, N⟩, boss, reqlock, workers, enqueued, popped, halted⟩ := s
  dsimp only at hboss hrun hfree hq
  subst hboss hrun
  cases back with
  | none =>
    cases hq
    simp [System.run, queueRace, Race.step, enqueueStep, bossStep, hfree, Steque.newNode]
  | some b =>
    simp only [Steque.enqueue, Steque.newNode, reduceCtorEq, if_false] at hq
    cases hlink : (Steque.newNode ⟨heap, front, some b, N⟩ node item).linkBack node with
    | error e =>
      rw [Steque.newNode] at hlink
      rw [hlink] at hq
      cases hq
    | ok q' =>
      rw [Steque.newNode] at hlink
      rw [hlink] at hq
      cases hq
      simp [System.run, queueRace, Race.step, enqueueStep, bossStep, hfree, Steque.newNode, hlink]

/-- The worker inside the lock goes on with `steque_pop`. -/
theorem run_worker {pc : PopPc ι} (hlock : s.reqlock = some (i, pc)) (hrun : s.halted = none)
    (hin : s.workers i = .inLock) (n : ℕ) :
    (queueRace w ι).run (List.replicate (n + 1) (.worker i)) s =
      (queueRace w ι).run (List.replicate n (.worker i)) (s.popStep i pc) := by
  have hstep : (queueRace w ι).step (.worker i) s = some (s.popStep i pc) := by
    simp only [queueRace, Race.step, hrun, workerStep, hin, hlock, if_true]
  rw [List.replicate_succ, System.run, hstep, Option.bind_some]

theorem run_pop (hlock : s.reqlock = some (i, .testFront)) (hrun : s.halted = none)
    (hin : s.workers i = .inLock) (hq : s.requeue.pop = .ok (item, q)) :
    ∃ n, (queueRace w ι).run (List.replicate n (.worker i)) s =
      some { s with requeue := q, reqlock := some (i, .unlock item),
                    popped := s.popped ++ [item] } := by
  obtain ⟨⟨heap, front, back, N⟩, boss, reqlock, workers, enqueued, popped, halted⟩ := s
  dsimp only at hlock hrun hin hq
  subst hlock hrun
  cases front with
  | none => cases hq
  | some a =>
    cases hcell : heap a with
    | none =>
      simp [Steque.pop, Steque.nodeItem, Steque.deref, hcell, bind, Except.bind, Except.map] at hq
    | some c =>
      obtain ⟨x, next⟩ := c
      simp only [Steque.pop, Steque.nodeItem, Steque.deref, Steque.advance, Steque.free, hcell,
        bind, Except.bind, Except.map, pure, Except.pure, reduceCtorEq, if_false] at hq
      have hitem : (⟨heap, some a, back, N⟩ : Steque ι).nodeItem (some a) = .ok x :=
        Steque.nodeItem_of_cell hcell
      have hadvance : (⟨heap, some a, back, N⟩ : Steque ι).advance = .ok ⟨heap, next, back, N⟩ :=
        Steque.advance_of_cell rfl hcell
      have hfree : ∀ back, (⟨heap, next, back, N⟩ : Steque ι).free (some a) =
          .ok ⟨Function.update heap a none, next, back, N⟩ :=
        fun back => @Steque.free_of_cell ι ⟨heap, next, back, N⟩ a x next hcell
      -- up to the test whether the queue is empty now
      have hstart : ∀ n, (queueRace w ι).run (List.replicate (n + 4) (.worker i))
          ⟨⟨heap, some a, back, N⟩, boss, some (i, .testFront), workers, enqueued, popped, none⟩ =
          (queueRace w ι).run (List.replicate n (.worker i)) ⟨⟨heap, next, back, N⟩, boss,
            some (i, .testEmpty (some a) x), workers, enqueued, popped, none⟩ := by
        intro n
        rw [run_worker rfl rfl hin, run_worker rfl rfl hin, run_worker rfl rfl hin]
        simp only [popStep, hitem, Option.isNone_some, Bool.false_eq_true, if_false]
        rw [run_worker rfl rfl hin]
        simp only [popStep, hadvance]
      cases next with
      | none =>
        -- the queue is empty now: one statement more
        simp only [if_true, hcell] at hq
        cases hq
        refine ⟨4 + 4, ?_⟩
        rw [hstart, run_worker rfl rfl hin, run_worker rfl rfl hin, run_worker rfl rfl hin]
        simp only [popStep, hfree, Option.isNone_none, if_true]
        rw [run_worker rfl rfl hin]
        rfl
      | some b =>
        simp only [reduceCtorEq, if_false, hcell] at hq
        cases hq
        refine ⟨3 + 4, ?_⟩
        rw [hstart, run_worker rfl rfl hin, run_worker rfl rfl hin]
        simp only [popStep, hfree, Option.isNone_some, Bool.false_eq_true, if_false]
        rw [run_worker rfl rfl hin]
        rfl

end Alone

end Race

/-! ## The invariant -/

section Parts

variable {ι : Type}

/-- The new node, as long as it is not in the queue. -/
def EnqueuePc.fresh : EnqueuePc ι → Option (ℕ × ι)
  | testBack node item | setFront node item | linkNext node item => some (node, item)
  | _ => none

/-- One if the new node is in the queue and `N` does not count it yet. -/
def EnqueuePc.uncounted : EnqueuePc ι → ℕ
  | setBack _ _ | incN => 1
  | _ => 0

/-- The request that has left the queue and is not popped yet. -/
def inHand : Option (PopPc ι) → Option ι
  | some (.testEmpty _ ans) | some (.clearBack _ ans) | some (.free _ ans) | some (.decN ans) =>
    some ans
  | _ => none

/-- The node that has left the queue and is not freed yet. -/
def taken : Option (PopPc ι) → Option ℕ
  | some (.testEmpty node _) | some (.clearBack node _) | some (.free node _) => node
  | _ => none

/-- `front` has moved on and `back` has not been considered yet. -/
def behind : Option (PopPc ι) → Prop
  | some (.testEmpty _ _) | some (.clearBack _ _) => True
  | _ => False

/-- Where `back` points: to the last node `l`, or else it is the turn of the worker or of the
    boss to assign it. -/
def BackOk (back : Option ℕ) (boss : EnqueuePc ι) (pop : Option (PopPc ι)) (l : List (ℕ × ι)) :
    Prop :=
  match boss with
  | .idle | .testBack _ _ | .incN =>
    (l = [] ∧ behind pop → back ≠ none) ∧ (¬ (l = [] ∧ behind pop) → back = last l)
  | .setFront _ _ => l = [] ∧ ¬ behind pop ∧ back = none
  | .linkNext _ _ => l ≠ [] ∧ back = last l
  | .setBack node _ => last l = some node ∨ (l = [] ∧ behind pop)

/-- `node` points to a node in use that is not in the queue. -/
def Detached (q : Steque ι) (l : List (ℕ × ι)) (node : Option ℕ) : Prop :=
  ∃ a c, node = some a ∧ q.heap a = some c ∧ a ∉ l.map Prod.fst

/-- The local variables of `steque_pop`. -/
def PopOk (q : Steque ι) (pop : Option (PopPc ι)) (l : List (ℕ × ι)) : Prop :=
  match pop with
  | some .setNode => l ≠ []
  | some (.getAns node) => l ≠ [] ∧ node = q.front
  | some (.advance node ans) => ∃ a m, node = some a ∧ l = (a, ans) :: m
  | some (.testEmpty node _) | some (.free node _) => Detached q l node
  | some (.clearBack node _) => l = [] ∧ Detached q l node
  | _ => True

/-- The queue has the nodes `l`, and nothing is lost. -/
structure Intact (q : Steque ι) (boss : EnqueuePc ι) (pop : Option (PopPc ι))
    (enqueued popped : List ι) (l : List (ℕ × ι)) : Prop where
  chain : Chain q.heap q.front l
  back : BackOk q.back boss pop l
  node : PopOk q pop l
  fresh : ∀ a x, boss.fresh = some (a, x) →
    q.heap a = some ⟨x, none⟩ ∧ a ∉ l.map Prod.fst ∧ taken pop ≠ some a
  count : q.N + boss.uncounted = l.length + (inHand pop).toList.length
  history : enqueued =
    popped ++ (inHand pop).toList ++ l.map Prod.snd ++ (boss.fresh.map Prod.snd).toList

end Parts

/-- The local variables of `steque_pop` fit the queue after a statement of `steque_enqueue`. -/
theorem PopOk.grow {ι : Type} {q q' : Steque ι} {pop : Option (PopPc ι)} {l l' : List (ℕ × ι)}
    (h : PopOk q pop l) (hpre : l <+: l') (hfront : l ≠ [] → q'.front = q.front)
    (hempty : l = [] → behind pop → l' = [])
    (htaken : ∀ a c, taken pop = some a → q.heap a = some c →
      (∃ c', q'.heap a = some c') ∧ (a ∉ l.map Prod.fst → a ∉ l'.map Prod.fst)) :
    PopOk q' pop l' := by
  have hnil : l ≠ [] → l' ≠ [] := fun hne hnil => hne (List.prefix_nil.mp (hnil ▸ hpre))
  have hoff : ∀ node, taken pop = node → Detached q l node → Detached q' l' node := by
    rintro _ rfl ⟨a, c, hnode, hcell, hmem⟩
    obtain ⟨⟨c', hc'⟩, hout⟩ := htaken a c hnode hcell
    exact ⟨a, c', hnode, hc', hout hmem⟩
  cases pop with
  | none => trivial
  | some pc =>
    cases pc with
    | testFront | decN ans | unlock ans => trivial
    | setNode => exact hnil h
    | getAns node => exact ⟨hnil h.1, h.2.trans (hfront h.1).symm⟩
    | advance node ans =>
      obtain ⟨a, m, rfl, rfl⟩ := h
      obtain ⟨m', rfl⟩ := hpre
      exact ⟨a, m ++ m', rfl, rfl⟩
    | testEmpty node ans => exact hoff node rfl h
    | clearBack node ans => exact ⟨hempty h.1 trivial, hoff node rfl h.2⟩
    | free node ans => exact hoff node rfl h

theorem PopOk.taken {ι : Type} {q : Steque ι} {pop : Option (PopPc ι)} {l : List (ℕ × ι)} {a : ℕ}
    (h : PopOk q pop l) (ha : taken pop = some a) :
    ∃ c, q.heap a = some c ∧ a ∉ l.map Prod.fst := by
  have hoff : ∀ {node : Option ℕ}, node = some a → Detached q l node →
      ∃ c, q.heap a = some c ∧ a ∉ l.map Prod.fst := by
    rintro _ rfl ⟨b, c, hb, hcell⟩
    cases hb
    exact ⟨c, hcell⟩
  cases pop with
  | none => cases ha
  | some pc =>
    cases pc with
    | testEmpty node ans => exact hoff ha h
    | clearBack node ans => exact hoff ha h.2
    | free node ans => exact hoff ha h
    | testFront | setNode | getAns | advance | decN | unlock => cases ha

namespace Intact

/-! ## The statements of `steque_enqueue` -/

section Boss

variable {ι : Type} {q : Steque ι} {pop : Option (PopPc ι)} {enqueued popped : List ι}
  {l : List (ℕ × ι)} {node : ℕ} {item : ι}

theorem enqueue (h : Intact q .idle pop enqueued popped l) (hfree : q.heap node = none)
    (item : ι) : Intact (q.newNode node item) (.testBack node item) pop (enqueued ++ [item])
      popped l := by
  have hmem := h.chain.not_mem_of_free hfree
  have hkeep : ∀ a c, q.heap a = some c → (q.newNode node item).heap a = some c := by
    intro a c hcell
    have hne : a ≠ node := fun heq => by rw [heq, hfree] at hcell; cases hcell
    exact (Function.update_of_ne hne ..).trans hcell
  refine ⟨h.chain.update_of_not_mem hmem _, h.back, ?_, ?_, h.count, ?_⟩
  · exact h.node.grow List.prefix_rfl (fun _ => rfl) (fun hnil _ => hnil)
      fun a c _ hcell => ⟨⟨c, hkeep a c hcell⟩, id⟩
  · rintro a x hfresh
    cases hfresh
    refine ⟨Function.update_self .., hmem, fun htaken => ?_⟩
    obtain ⟨c, hcell, -⟩ := h.node.taken htaken
    rw [hfree] at hcell
    cases hcell
  · rw [h.history]
    simp [EnqueuePc.fresh]

theorem testBack (h : Intact q (.testBack node item) pop enqueued popped l)
    (hapart : q.front ≠ none ∨ q.back = none) :
    Intact q (if q.back.isNone then .setFront node item else .linkNext node item) pop enqueued
      popped l := by
  obtain ⟨hchain, ⟨hdangling, hlast⟩, hnode, hfresh, hcount, hhistory⟩ := h
  cases hb : q.back with
  | none =>
    -- nobody is about to clear `back`, so the queue is empty
    have hnot : ¬ (l = [] ∧ behind pop) := fun hempty => hdangling hempty hb
    have hnil : l = [] := last_eq_none.mp ((hlast hnot).symm.trans hb)
    exact ⟨hchain, ⟨hnil, fun hbehind => hnot ⟨hnil, hbehind⟩, hb⟩, hnode, hfresh, hcount, hhistory⟩
  | some b =>
    have hfront : q.front ≠ none := hapart.resolve_right (by rw [hb]; exact nofun)
    have hne : l ≠ [] := fun hnil => hfront (hchain.eq_nil_iff.mp hnil)
    exact ⟨hchain, ⟨hne, hlast fun hempty => hne hempty.1⟩, hnode, hfresh, hcount, hhistory⟩

theorem setFront (h : Intact q (.setFront node item) pop enqueued popped l) :
    Intact { q with front := some node } (.setBack node item) pop enqueued popped
      [(node, item)] := by
  obtain ⟨hchain, ⟨rfl, hbehind, hback⟩, hnode, hfresh, hcount, hhistory⟩ := h
  obtain ⟨hcell, -, htaken⟩ := hfresh node item rfl
  refine ⟨⟨rfl, none, hcell, rfl⟩, Or.inl rfl, ?_, fun _ _ => nofun, ?_, ?_⟩
  · refine hnode.grow List.nil_prefix (fun hne => absurd rfl hne)
      (fun _ hbehind' => absurd hbehind' hbehind) fun a c ha hc => ⟨⟨c, hc⟩, fun _ hmem => ?_⟩
    obtain rfl : a = node := by simpa using hmem
    exact htaken ha
  · simp only [EnqueuePc.uncounted, List.length_nil, List.length_singleton] at hcount ⊢
    omega
  · simpa [EnqueuePc.fresh] using hhistory

theorem linkNext (h : Intact q (.linkNext node item) pop enqueued popped l) :
    ∃ q', q.linkBack node = .ok q' ∧
      Intact q' (.setBack node item) pop enqueued popped (l ++ [(node, item)]) := by
  obtain ⟨hchain, ⟨hne, hback⟩, hnode, hfresh, hcount, hhistory⟩ := h
  obtain ⟨hcell, hmem, htaken⟩ := hfresh node item rfl
  obtain ⟨m, c, rfl⟩ := (List.eq_nil_or_concat l).resolve_left hne
  rw [List.concat_eq_append] at *
  obtain ⟨b, y⟩ := c
  rw [last_concat] at hback
  refine ⟨_, Steque.linkBack_of_cell hback hchain.last_cell, hchain.link hcell hmem,
    Or.inl (last_concat _ _), ?_, fun _ _ => nofun, ?_, ?_⟩
  · refine hnode.grow (List.prefix_append _ _) (fun _ => rfl) (fun hnil => absurd hnil hne)
      fun a c ha hc => ⟨?_, fun hout hin => ?_⟩
    · by_cases hab : a = b
      · exact ⟨_, by rw [hab]; exact Function.update_self ..⟩
      · exact ⟨c, (Function.update_of_ne hab ..).trans hc⟩
    · rw [List.map_append, List.mem_append] at hin
      have han : a = node := by simpa using hin.resolve_left hout
      exact htaken (han ▸ ha)
  · simp only [EnqueuePc.uncounted, List.length_append, List.length_singleton] at hcount ⊢
    omega
  · simpa [EnqueuePc.fresh] using hhistory

theorem setBack (h : Intact q (.setBack node item) pop enqueued popped l) :
    Intact { q with back := some node } .incN pop enqueued popped l := by
  obtain ⟨hchain, hback, hnode, hfresh, hcount, hhistory⟩ := h
  refine ⟨hchain, ⟨fun _ => nofun, fun hnot => ?_⟩, ?_, fun _ _ => nofun, hcount, hhistory⟩
  · exact (hback.resolve_right hnot).symm
  · exact hnode.grow List.prefix_rfl (fun _ => rfl) (fun hnil _ => hnil)
      fun a c _ hcell => ⟨⟨c, hcell⟩, id⟩

theorem incN (h : Intact q .incN pop enqueued popped l) :
    Intact { q with N := q.N + 1 } .idle pop enqueued popped l := by
  obtain ⟨hchain, hback, hnode, hfresh, hcount, hhistory⟩ := h
  refine ⟨hchain, hback, ?_, fun _ _ => nofun, by simpa [EnqueuePc.uncounted] using hcount, hhistory⟩
  exact hnode.grow List.prefix_rfl (fun _ => rfl) (fun hnil _ => hnil)
    fun a c _ hcell => ⟨⟨c, hcell⟩, id⟩

end Boss

/-! ## The statements of `steque_pop` -/

section Pop

variable {ι : Type} {q : Steque ι} {boss : EnqueuePc ι} {pop pop' : Option (PopPc ι)}
  {enqueued popped : List ι} {l : List (ℕ × ι)} {node : Option ℕ} {ans : ι}

/-- The worker goes on and only its own variables change. -/
theorem goOn (h : Intact q boss pop enqueued popped l) (hnode : PopOk q pop' l)
    (htaken : taken pop' = taken pop) (hhand : inHand pop' = inHand pop)
    (hbehind : behind pop' ↔ behind pop) : Intact q boss pop' enqueued popped l := by
  obtain ⟨hchain, hback, -, hfresh, hcount, hhistory⟩ := h
  refine ⟨hchain, ?_, hnode, by rwa [htaken], by rwa [hhand], by rwa [hhand]⟩
  cases boss <;> simpa only [BackOk, hbehind] using hback

theorem testFront (h : Intact q boss (some .testFront) enqueued popped l)
    (hfront : q.front ≠ none) : Intact q boss (some .setNode) enqueued popped l :=
  h.goOn (fun hnil => hfront (h.chain.eq_nil_iff.mp hnil)) rfl rfl Iff.rfl

theorem setNode (h : Intact q boss (some .setNode) enqueued popped l) :
    Intact q boss (some (.getAns q.front)) enqueued popped l :=
  h.goOn ⟨h.node, rfl⟩ rfl rfl Iff.rfl

theorem getAns (h : Intact q boss (some (.getAns node)) enqueued popped l) :
    ∃ ans, q.nodeItem node = .ok ans ∧
      Intact q boss (some (.advance node ans)) enqueued popped l := by
  obtain ⟨hne, rfl⟩ := h.node
  obtain ⟨⟨a, x⟩, m, rfl⟩ := List.exists_cons_of_ne_nil hne
  obtain ⟨hfront, next, hcell, -⟩ := h.chain
  rw [hfront] at h ⊢
  exact ⟨x, Steque.nodeItem_of_cell hcell, h.goOn ⟨a, m, rfl, rfl⟩ rfl rfl Iff.rfl⟩

theorem advance (h : Intact q boss (some (.advance node ans)) enqueued popped l)
    (hapart : ∀ new item, boss = .linkNext new item → q.single = false) :
    ∃ q' m, q.advance = .ok q' ∧
      Intact q' boss (some (.testEmpty node ans)) enqueued popped m := by
  obtain ⟨hchain, hback, ⟨a, m, rfl, rfl⟩, hfresh, hcount, hhistory⟩ := h
  obtain ⟨hfront, next, hcell, hrest⟩ := id hchain
  have hnotin := (List.nodup_cons.mp hchain.nodup).1
  have hlast : m ≠ [] → last ((a, ans) :: m) = last m := last_cons _
  refine ⟨_, m, Steque.advance_of_cell hfront hcell, hrest, ?_, ⟨a, _, rfl, hcell, hnotin⟩, ?_, ?_,
    ?_⟩
  · cases boss with
    | idle | testBack new item | incN =>
      have hold : q.back = last ((a, ans) :: m) := hback.2 (by simp)
      refine ⟨fun hempty => ?_, fun hnot => ?_⟩
      · rw [hold, hempty.1]
        exact nofun
      · exact hold.trans (hlast fun hnil => hnot ⟨hnil, trivial⟩)
    | setFront new item => cases hback.1
    | linkNext new item =>
      have hne : m ≠ [] := by
        rintro rfl
        obtain rfl : next = none := hrest
        have hsingle := hapart new item rfl
        simp [Steque.single, hfront, hcell] at hsingle
      exact ⟨hne, hback.2.trans (hlast hne)⟩
    | setBack new item =>
      have hold : last ((a, ans) :: m) = some new := hback.resolve_right (by simp)
      rcases eq_or_ne m [] with hnil | hne
      · exact Or.inr ⟨hnil, trivial⟩
      · exact Or.inl ((hlast hne).symm.trans hold)
  · intro b x hb
    obtain ⟨hnew, hmem, -⟩ := hfresh b x hb
    rw [List.map_cons, List.mem_cons, not_or] at hmem
    exact ⟨hnew, hmem.2, fun heq => hmem.1 (Option.some.inj heq).symm⟩
  · simp only [List.length_cons, inHand, Option.toList] at hcount ⊢
    push_cast at hcount ⊢
    simpa using hcount
  · simpa [inHand] using hhistory

theorem testEmpty (h : Intact q boss (some (.testEmpty node ans)) enqueued popped l) :
    Intact q boss (some (if q.front.isNone then .clearBack node ans else .free node ans)) enqueued
      popped l := by
  by_cases hfront : q.front = none
  · rw [hfront]
    exact h.goOn ⟨h.chain.eq_nil_iff.mpr hfront, h.node⟩ rfl rfl Iff.rfl
  · have hne : l ≠ [] := fun hnil => hfront (h.chain.eq_nil_iff.mp hnil)
    have hback := h.back
    rw [if_neg (mt Option.isNone_iff_eq_none.mp hfront)]
    refine ⟨h.chain, ?_, h.node, h.fresh, h.count, h.history⟩
    cases boss with
    | idle | testBack new item | incN =>
      exact ⟨fun hempty => absurd hempty.1 hne, fun _ => hback.2 fun hempty => hne hempty.1⟩
    | setFront new item => exact absurd hback.1 hne
    | linkNext new item => exact hback
    | setBack new item => exact Or.inl (hback.resolve_right fun hempty => hne hempty.1)

theorem clearBack (h : Intact q boss (some (.clearBack node ans)) enqueued popped l)
    (hapart : ∀ new item, boss ≠ .setBack new item) :
    Intact { q with back := none } boss (some (.free node ans)) enqueued popped l := by
  obtain ⟨hchain, hback, ⟨rfl, hnode⟩, hfresh, hcount, hhistory⟩ := h
  refine ⟨hchain, ?_, hnode, hfresh, hcount, hhistory⟩
  cases boss with
  | idle | testBack new item | incN => exact ⟨fun hempty => absurd hempty.2 id, fun _ => rfl⟩
  | setFront new item => exact absurd trivial hback.2.1
  | linkNext new item => exact absurd rfl hback.1
  | setBack new item => exact absurd rfl (hapart new item)

theorem free (h : Intact q boss (some (.free node ans)) enqueued popped l) :
    ∃ q', q.free node = .ok q' ∧ Intact q' boss (some (.decN ans)) enqueued popped l := by
  obtain ⟨hchain, hback, ⟨a, c, rfl, hcell, hmem⟩, hfresh, hcount, hhistory⟩ := h
  refine ⟨_, Steque.free_of_cell hcell, hchain.update_of_not_mem hmem _, ?_, trivial, ?_, hcount,
    hhistory⟩
  · cases boss <;> exact hback
  · intro b x hb
    obtain ⟨hnew, hout, htaken⟩ := hfresh b x hb
    have hne : b ≠ a := fun heq => htaken (by rw [heq]; rfl)
    exact ⟨(Function.update_of_ne hne ..).trans hnew, hout, nofun⟩

theorem decN (h : Intact q boss (some (.decN ans)) enqueued popped l) :
    Intact { q with N := q.N - 1 } boss (some (.unlock ans)) enqueued (popped ++ [ans]) l := by
  obtain ⟨hchain, hback, -, hfresh, hcount, hhistory⟩ := h
  refine ⟨hchain, ?_, trivial, hfresh, ?_, ?_⟩
  · cases boss <;> exact hback
  · simp only [inHand, Option.toList, List.length_cons, List.length_nil] at hcount ⊢
    push_cast at hcount ⊢
    omega
  · simpa [inHand] using hhistory

end Pop

end Intact

/-! ## Runs -/

namespace Race

section Step

variable {w : ℕ} {ι : Type} {s s' : Race w ι} {i : Fin w} {pc : PopPc ι} {l : List (ℕ × ι)}
  {a : RaceAct w ι}

/-- The queue of a state is intact, with the nodes `l`. -/
def IntactWith (s : Race w ι) (l : List (ℕ × ι)) : Prop :=
  Intact s.requeue s.boss (s.reqlock.map Prod.snd) s.enqueued s.popped l

/-- The queue is intact, and no step has accessed a null pointer or a freed node. -/
def Safe (s : Race w ι) : Prop := s.halted ≠ some .badAccess ∧ ∃ l, s.IntactWith l

theorem IntactWith.bossStep (h : s.IntactWith l) (hrun : s.halted = none)
    (hapart : apart .boss s = true) (hstep : s.bossStep = some s') : s'.Safe := by
  obtain ⟨q, boss, reqlock, workers, enqueued, popped, halted⟩ := s
  dsimp only [IntactWith] at h hrun
  subst hrun
  cases boss with
  | idle => cases hstep
  | testBack node item =>
    cases hstep
    refine ⟨nofun, l, h.testBack ?_⟩
    simpa [apart, Option.isSome_iff_ne_none] using hapart
  | setFront node item =>
    cases hstep
    exact ⟨nofun, _, h.setFront⟩
  | linkNext node item =>
    obtain ⟨q', hq', hintact⟩ := h.linkNext
    simp only [Race.bossStep, hq'] at hstep
    cases hstep
    exact ⟨nofun, _, hintact⟩
  | setBack node item =>
    cases hstep
    exact ⟨nofun, _, h.setBack⟩
  | incN =>
    cases hstep
    exact ⟨nofun, _, h.incN⟩

theorem IntactWith.popStep (h : s.IntactWith l) (hrun : s.halted = none)
    (hlock : s.reqlock = some (i, pc)) (hapart : apart (.worker i) s = true) :
    (s.popStep i pc).Safe := by
  obtain ⟨q, boss, reqlock, workers, enqueued, popped, halted⟩ := s
  dsimp only [IntactWith] at h hrun hlock
  subst hrun hlock
  rw [Option.map_some] at h
  cases pc with
  | testFront =>
    by_cases hfront : q.front = none
    · simp only [Race.popStep, hfront, Option.isNone_none, if_true]
      exact ⟨nofun, l, h⟩
    · rw [Race.popStep, if_neg (by simpa using hfront)]
      exact ⟨nofun, l, h.testFront hfront⟩
  | setNode => exact ⟨nofun, l, h.setNode⟩
  | getAns node =>
    obtain ⟨ans, hans, hintact⟩ := h.getAns
    simp only [Race.popStep, hans]
    exact ⟨nofun, l, hintact⟩
  | advance node ans =>
    obtain ⟨q', m, hq', hintact⟩ := h.advance fun new item hboss => by
      subst hboss
      simpa [apart] using hapart
    simp only [Race.popStep, hq']
    exact ⟨nofun, m, hintact⟩
  | testEmpty node ans => exact ⟨nofun, l, h.testEmpty⟩
  | clearBack node ans =>
    refine ⟨nofun, l, h.clearBack fun new item hboss => ?_⟩
    subst hboss
    simp [apart] at hapart
  | free node ans =>
    obtain ⟨q', hq', hintact⟩ := h.free
    simp only [Race.popStep, hq']
    exact ⟨nofun, l, hintact⟩
  | decN ans => exact ⟨nofun, l, h.decN⟩
  | unlock ans => exact ⟨nofun, l, h.goOn trivial rfl rfl Iff.rfl⟩

theorem IntactWith.workerStep (h : s.IntactWith l) (hrun : s.halted = none)
    (hapart : apart (.worker i) s = true) (hstep : s.workerStep i = some s') : s'.Safe := by
  have hok : s.halted ≠ some .badAccess := by rw [hrun]; exact nofun
  unfold Race.workerStep at hstep
  split at hstep
  · cases hstep
    exact ⟨hok, l, h⟩
  · next hlock =>
    cases hstep
    unfold IntactWith at h
    rw [hlock] at h
    exact ⟨hok, l, h.goOn trivial rfl rfl Iff.rfl⟩
  · next j pc _ hlock =>
    by_cases hj : j = i
    · rw [if_pos hj] at hstep
      cases hstep
      exact h.popStep hrun (hj ▸ hlock) hapart
    · rw [if_neg hj] at hstep
      cases hstep
  · cases hstep
    exact ⟨hok, l, h⟩
  · cases hstep

theorem IntactWith.enqueueStep {node : ℕ} {item : ι} (h : s.IntactWith l) (hrun : s.halted = none)
    (hstep : s.enqueueStep node item = some s') : s'.Safe := by
  obtain ⟨q, boss, reqlock, workers, enqueued, popped, halted⟩ := s
  dsimp only [IntactWith] at h hrun
  subst hrun
  cases boss with
  | idle =>
    simp only [Race.enqueueStep, Option.ite_none_right_eq_some, Option.isNone_iff_eq_none] at hstep
    obtain ⟨hfree, hstep⟩ := hstep
    cases hstep
    exact ⟨nofun, l, h.enqueue hfree item⟩
  | testBack | setFront | linkNext | setBack | incN => cases hstep

theorem Safe.step (h : s.Safe) (hapart : apart a s = true) (hstep : Race.step a s = some s') :
    s'.Safe := by
  obtain ⟨-, l, hintact⟩ := h
  unfold Race.step at hstep
  cases hrun : s.halted with
  | some e => rw [hrun] at hstep; cases hstep
  | none =>
    rw [hrun] at hstep
    cases a with
    | enqueue node item => exact hintact.enqueueStep hrun hstep
    | boss => exact hintact.bossStep hrun hapart hstep
    | worker i => exact hintact.workerStep hrun hapart hstep

theorem safe_init : (queueRace w ι).init.Safe := by
  refine ⟨nofun, [], rfl, ⟨fun hempty => absurd hempty.2 id, fun _ => rfl⟩, trivial, fun _ _ => nofun,
    rfl, rfl⟩

/-- Nobody works on the queue: it is well formed. -/
theorem IntactWith.repr_of_quiet (h : s.IntactWith l) (hquiet : s.quiet = true) :
    s.requeue.Repr l ∧ s.enqueued = s.popped ++ l.map Prod.snd := by
  obtain ⟨q, boss, reqlock, workers, enqueued, popped, halted⟩ := s
  have hidle : ∀ {pop : Option (PopPc ι)}, ¬ behind pop → inHand pop = none →
      Intact q .idle pop enqueued popped l →
      q.Repr l ∧ enqueued = popped ++ l.map Prod.snd := by
    rintro pop hbehind hhand ⟨hchain, hback, -, -, hcount, hhistory⟩
    rw [hhand] at hcount hhistory
    refine ⟨⟨hchain, hback.2 fun hempty => hbehind hempty.2, ?_⟩, ?_⟩
    · simpa [EnqueuePc.uncounted] using hcount
    · simpa [EnqueuePc.fresh] using hhistory
  cases boss with
  | idle =>
    cases reqlock with
    | none => exact hidle id rfl h
    | some holder =>
      obtain ⟨i, pc⟩ := holder
      cases pc with
      | unlock ans => exact hidle id rfl h
      | testFront | setNode | getAns | advance | testEmpty | clearBack | free | decN =>
        cases hquiet
  | testBack | setFront | linkNext | setBack | incN => cases reqlock <;> cases hquiet

end Step

end Race

/-- In a run whose steps keep apart, no access goes wrong, and whenever nobody works on the
    queue, it is well formed and has the requests that have been enqueued and not popped, in
    their order. -/
theorem queue_intact (w : ℕ) (ι : Type) (s : Race w ι)
    (h : (queueRace w ι).Reach (fun a s => Race.apart a s = true) s) :
    s.halted ≠ some .badAccess ∧
      (s.quiet = true → ∃ l, s.requeue.Repr l ∧ s.popped ++ l.map Prod.snd = s.enqueued) := by
  obtain ⟨hok, l, hintact⟩ : s.Safe :=
    h.invariant Race.safe_init fun _ _ _ ih hapart hstep => ih.step hapart hstep
  refine ⟨hok, fun hquiet => ⟨l, ?_⟩⟩
  obtain ⟨hrepr, hhistory⟩ := hintact.repr_of_quiet hquiet
  exact ⟨hrepr, hhistory.symm⟩

/-- A schedule in which the boss appends a request while a worker pops the one before it. -/
def overlap : List (RaceAct 2 ℕ) :=
  [.enqueue 0 7, .boss, .boss, .boss, .boss, .worker 0, .worker 0, .worker 0, .worker 0,
    .worker 0, .enqueue 1 8, .boss, .boss, .worker 0, .worker 0, .boss, .worker 0, .boss,
    .worker 0, .worker 0]

theorem queue_intact_overlap : ∃ s : Race 2 ℕ,
    (queueRace 2 ℕ).runWith Race.apart overlap (queueRace 2 ℕ).init = some s ∧ s.quiet = true ∧
      ∃ l, s.requeue.Repr l ∧ s.popped ++ l.map Prod.snd = s.enqueued := by
  obtain ⟨s, hrun, hquiet⟩ : ∃ s : Race 2 ℕ,
      (queueRace 2 ℕ).runWith Race.apart overlap (queueRace 2 ℕ).init = some s ∧ s.quiet = true :=
    ⟨_, rfl, rfl⟩
  exact ⟨s, hrun, hquiet, (queue_intact 2 ℕ s (System.Reach.runWith .init hrun)).2 hquiet⟩

/-- The boss links its node to the node that a worker has just taken: the request is lost. -/
theorem queue_loses_request :
    ¬ ∀ (w : ℕ) (ι : Type) (s : Race w ι), (queueRace w ι).Reach System.anyStep s →
      s.quiet = true → ∃ l, s.requeue.Repr l ∧ s.popped ++ l.map Prod.snd = s.enqueued := by
  intro h
  have hreach : (queueRace 1 ℕ).Reach System.anyStep _ := @System.reach_of_run _ _ _
    [.enqueue 0 7, .boss, .boss, .boss, .boss, .worker 0, .worker 0, .worker 0, .worker 0,
      .worker 0, .worker 0, .enqueue 1 8, .boss, .boss, .boss, .boss, .worker 0, .worker 0,
      .worker 0, .worker 0, .worker 0] _ rfl
  obtain ⟨l, hrepr, hhistory⟩ := h 1 ℕ _ hreach rfl
  obtain rfl := hrepr.front_eq_none.mp rfl
  exact absurd hhistory (by decide)

end IntroOS.Mtgf
