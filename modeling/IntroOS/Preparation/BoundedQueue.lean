import IntroOS.Concurrency.Refinement
import IntroOS.Preparation.Throughput

/-!
# What the producers and consumers are for

The buffers of `Preparation/` as bounded queues: the operations of the two sides, in the order in
which they take effect, are those of a queue with `N` places, and every order that such a queue
allows is the order of some schedule.

Main results:

* `Monitor.monitor_traces_iff`: the monitor of `PriducerConsumer.java`.
* `Mailboxes.mailboxes_traces_iff`: the messages of `information.c` give the queue two places more.
* `Semaphores.semaphores_traces_iff`: the semaphores of `mutex-pro-con.c` make the calls of any
  buffer atomic, and keep it within its bounds.
-/

namespace IntroOS.Preparation

open Concurrency

/-! ## Specification -/

/-- An operation, with the value that is put or taken. -/
inductive QueueOp
  | put (v : ℤ)
  | take (v : ℤ)
  deriving DecidableEq, Repr

/-- A queue with `N` places. -/
def boundedQueue (N : ℕ) : System (List ℤ) QueueOp where
  init := []
  step
    | .put v, l => if l.length < N then some (l ++ [v]) else none
    | .take v, l => if l.head? = some v then some l.tail else none

/-- The values that are put. -/
def puts : Option QueueOp → List ℤ
  | some (.put v) => [v]
  | some (.take _) | none => []

/-- The values that are taken. -/
def takes : Option QueueOp → List ℤ
  | some (.take v) => [v]
  | some (.put _) | none => []

/-- The rule for a program that records the values that have been put and those that have been
    taken: it is enough that there is a place for each value that is put. -/
theorem boundedQueue_simulation {σ Act : Type*} {S : System σ Act} {N : ℕ}
    {event : Act → σ → Option QueueOp} {I : σ → Prop} {inside put taken : σ → List ℤ}
    (hinit : I S.init ∧ inside S.init = [])
    (hinv : ∀ a s s', I s → S.step a s = some s' → I s')
    (hinside : ∀ s, I s → put s = taken s ++ inside s)
    (hrecord : ∀ a s s', I s → S.step a s = some s' →
      put s' = put s ++ puts (event a s) ∧ taken s' = taken s ++ takes (event a s))
    (hroom : ∀ a s v, I s → event a s = some (.put v) → (inside s).length < N) :
    System.Simulation S (boundedQueue N) event I inside := by
  have hmove : ∀ a s s', I s → S.step a s = some s' →
      inside s ++ puts (event a s) = takes (event a s) ++ inside s' := by
    intro a s s' h hs
    obtain ⟨hput, htaken⟩ := hrecord a s s' h hs
    have hafter := hinside s' (hinv a s s' h hs)
    rw [hput, htaken, hinside s h, List.append_assoc, List.append_assoc] at hafter
    exact List.append_cancel_left hafter
  refine ⟨hinit, hinv, ?_, ?_⟩
  · intro a s s' b h hs hb
    have hstep := hmove a s s' h hs
    rw [hb] at hstep
    cases b with
    | put v =>
      have hput : inside s ++ [v] = inside s' := hstep
      rw [← hput]
      exact if_pos (hroom a s v h hb)
    | take v =>
      have htake : inside s = v :: inside s' := (List.append_nil _).symm.trans hstep
      rw [htake]
      exact if_pos rfl
  · intro a s s' h hs hb
    have hstep := hmove a s s' h hs
    rw [hb] at hstep
    exact hstep.symm.trans (List.append_nil _)

/-- The calls of `insert_item` with a free slot and of `remove_item` with an item, one at a time. -/
def guardedBuffer {N : ℕ} {β : Type*} (B : Buffer N β) : System β QueueOp where
  init := B.new
  step
    | .put v, b => if B.items b < N then some (B.insert_item v b) else none
    | .take v, b =>
      if 0 < B.items b ∧ (B.remove_item b).1 = v then some (B.remove_item b).2 else none

/-! ## The monitor -/

namespace Monitor

variable {N : ℕ} {s s' : Monitor} {a : MonitorAct} {r : Role}

/-- The assignments of a method are its operation. -/
def operation (a : MonitorAct) (s : Monitor) : Option QueueOp :=
  if s.pc a.r = .body then
    match a.r with
    | .producer => some (.put (s.threads .producer).val)
    | .consumer => some (.take (s.buffer s.lo))
  else none

/-- Both threads are outside of the monitor. -/
def Rests (s : Monitor) : Prop := s.owner = none ∧ ∀ r, s.pc r = .call

theorem Queue.window_eq {l : List ℤ} (hl : s.Queue N l) : s.window N = l := by
  rw [Monitor.window, hl.count, Int.toNat_natCast, hl.ring.window_eq]

theorem Inv.window (h : s.Inv N) :
    s.inserted = s.removed ++ s.window N ∧ s.count = (s.window N).length := by
  obtain ⟨l, hl⟩ := h.queue
  rw [hl.window_eq]
  exact ⟨hl.order, hl.count⟩

theorem simulation (hN : 1 ≤ N) :
    System.Simulation (monitor N) (boundedQueue N) operation (Inv N) (Monitor.window N) := by
  refine boundedQueue_simulation ⟨Inv.init hN, rfl⟩ (fun _ _ _ h hs => h.step hs)
    (fun _ h => h.window.1) ?_ ?_
  · intro a s s' h hs
    have hs : Monitor.step N a s = some s' := hs
    by_cases hpc : s.pc a.r = .body
    · have hs' : s' = s.body N a.r := by
        rw [Monitor.step, hpc] at hs
        exact (Option.some.inj hs).symm
      rw [operation, if_pos hpc, hs']
      cases a.r with
      | producer => exact ⟨rfl, (List.append_nil _).symm⟩
      | consumer => exact ⟨(List.append_nil _).symm, rfl⟩
    · obtain ⟨-, hspec⟩ := step_spec hs
      rw [if_neg hpc] at hspec
      rw [operation, if_neg hpc]
      exact ⟨(hspec.2.2 .producer).trans (List.append_nil _).symm,
        (hspec.2.2 .consumer).trans (List.append_nil _).symm⟩
  · rintro ⟨r, x⟩ s v h hb
    unfold operation at hb
    split_ifs at hb with hpc
    have hknows := h.knows r
    have hcount := h.window.2
    have hle := h.count_le
    cases r with
    | producer =>
      rw [hpc] at hknows
      have hroom : s.count ≠ N := by simpa [Role.KnowsCount, Role.method, insertBody] using hknows
      omega
    | consumer => cases hb

/-- Thread `r` is at `pc`, and the other one is outside of the monitor. -/
structure Alone (r : Role) (owner : Option Role) (pc : MonitorPc) (s : Monitor) : Prop where
  owner : s.owner = owner
  self : s.pc r = pc
  other : s.pc r.other = .call

theorem Alone.goto {owner owner' : Option Role} {pc : MonitorPc} (h : s.Alone r owner pc)
    (th : MonitorThread) : Alone r owner' th.pc { s.goto r th with owner := owner' } where
  owner := rfl
  self := by
    show (s.goto r th).pc r = th.pc
    rw [pc_goto, Function.update_self]
  other := by
    show (s.goto r th).pc r.other = .call
    rw [pc_goto, Function.update_of_ne r.other_ne, h.other]

/-- A step of `r` that is no assignment and leaves the other thread outside. -/
theorem Alone.silent {owner : Option Role} {pc : MonitorPc} {ops : List QueueOp}
    (h : s.Alone r owner pc) (v : ℤ) (th : MonitorThread) (owner' : Option Role) (hpc : pc ≠ .body)
    (hs : Monitor.step N ⟨r, v⟩ s = some { s.goto r th with owner := owner' })
    (hnext : ∀ u : Monitor, u.Alone r owner' th.pc → u.threads r = th → u.count = s.count →
      u.buffer u.lo = s.buffer s.lo → (monitor N).Shows operation ops Rests u) :
    (monitor N).Shows operation ops Rests s := by
  have hs : (monitor N).step ⟨r, v⟩ s = some { s.goto r th with owner := owner' } := hs
  refine .silent hs (if_neg ?_) (hnext _ (h.goto th) ?_ rfl rfl)
  · rw [h.self]
    exact hpc
  · exact Function.update_self ..

theorem Alone.leave (h : s.Alone r (some r) .leave) : (monitor N).Shows operation [] Rests s := by
  apply h.silent 0 ⟨.call, (s.threads r).val⟩ none nofun
  · rw [Monitor.step, h.self]
  · intro u hu _ _ _
    exact .stop ⟨hu.owner, (Role.forall_iff r).mpr ⟨hu.self, hu.other⟩⟩

theorem Alone.notify (h : s.Alone r (some r) .notify) : (monitor N).Shows operation [] Rests s := by
  apply h.silent 0 ⟨.leave, (s.threads r).val⟩ (some r) nofun
  · have hout : s.pc r.other ≠ .waiting := by
      rw [h.other]
      exact nofun
    rw [Monitor.step, h.self]
    dsimp only
    rw [wake_of_ne _ hout, ite_self, ← h.owner]
    rfl
  · intro u hu _ _ _
    exact hu.leave

/-- The operation of `r` when it has the variable `val`. -/
def operationOf (r : Role) (s : Monitor) (val : ℤ) : QueueOp :=
  match r with
  | .producer => .put val
  | .consumer => .take (s.buffer s.lo)

theorem Alone.body (h : s.Alone r (some r) .body) :
    (monitor N).Shows operation [operationOf r s (s.threads r).val] Rests s := by
  have hs : (monitor N).step ⟨r, 0⟩ s = some (s.body N r) := by
    show Monitor.step N ⟨r, 0⟩ s = _
    rw [Monitor.step, h.self]
  refine .seen hs ?_ (@Alone.notify N _ r ⟨?_, ?_, ?_⟩)
  · rw [operation, if_pos h.self]
    cases r <;> rfl
  · rw [← h.owner]
    cases r <;> rfl
  · rw [body_pc, Function.update_self]
  · rw [body_pc, Function.update_of_ne r.other_ne, h.other]

theorem operationOf_congr {u : Monitor} {val val' : ℤ} (hval : val' = val)
    (hbuffer : u.buffer u.lo = s.buffer s.lo) : operationOf r u val' = operationOf r s val := by
  unfold operationOf
  rw [hval, hbuffer]

theorem Alone.test (h : s.Alone r (some r) .test)
    (hawake : (r.method N).mustSleep s.count = false) :
    (monitor N).Shows operation [operationOf r s (s.threads r).val] Rests s := by
  apply h.silent 0 ⟨.body, (s.threads r).val⟩ (some r) nofun
  · rw [Monitor.step, h.self]
    dsimp only
    rw [hawake, ← h.owner]
    rfl
  · intro u hu hthreads _ hbuffer
    rw [← operationOf_congr (congrArg MonitorThread.val hthreads) hbuffer]
    exact hu.body

theorem Alone.enter (h : s.Alone r none .enter)
    (hawake : (r.method N).mustSleep s.count = false) :
    (monitor N).Shows operation [operationOf r s (s.threads r).val] Rests s := by
  apply h.silent 0 ⟨.test, (s.threads r).val⟩ (some r) nofun
  · rw [Monitor.step, h.self]
    dsimp only
    rw [h.owner, Option.isNone_none, if_pos rfl]
  · intro u hu hthreads hcount hbuffer
    rw [← operationOf_congr (congrArg MonitorThread.val hthreads) hbuffer]
    exact hu.test (by rwa [hcount])

/-- A thread that does not have to sleep does its operation, when it is alone. -/
theorem Rests.shows (h : s.Rests) (hawake : (r.method N).mustSleep s.count = false) (v : ℤ) :
    (monitor N).Shows operation [operationOf r s v] Rests s := by
  have hcall : s.Alone r none .call := ⟨h.1, h.2 r, h.2 r.other⟩
  obtain ⟨val, hs, hval⟩ : ∃ val, Monitor.step N ⟨r, v⟩ s =
      some { s.goto r ⟨.enter, val⟩ with owner := none } ∧ operationOf r s val = operationOf r s v := by
    rw [Monitor.step, hcall.self, ← hcall.owner]
    cases r <;> exact ⟨_, rfl, rfl⟩
  apply hcall.silent v _ none nofun hs
  intro u hu hthreads hcount hbuffer
  rw [← hval, ← operationOf_congr (congrArg MonitorThread.val hthreads) hbuffer]
  exact hu.enter (by rwa [hcount])

theorem offers : System.Offers (monitor N) (boundedQueue N) operation (Inv N) (Monitor.window N)
    Rests := by
  intro s b t h hrests ht
  obtain ⟨l, hl⟩ := h.queue
  have hcount := hl.count
  change (boundedQueue N).step b (s.window N) = some t at ht
  rw [hl.window_eq] at ht
  cases b with
  | put v =>
    obtain ⟨hlt, -⟩ := Option.ite_none_right_eq_some.mp ht
    refine hrests.shows (r := .producer) ?_ v
    show (s.count == (N : ℤ)) = false
    rw [hcount, beq_eq_false_iff_ne]
    omega
  | take v =>
    obtain ⟨hhead, -⟩ := Option.ite_none_right_eq_some.mp ht
    obtain ⟨l', rfl⟩ := List.head?_eq_some_iff.mp hhead
    have hshows : (monitor N).Shows operation [.take (s.buffer s.lo)] Rests s := by
      refine hrests.shows (r := .consumer) ?_ 0
      show (s.count == 0) = false
      rw [hcount, List.length_cons, beq_eq_false_iff_ne]
      omega
    rwa [hl.ring.head] at hshows

/-- The assignments of `insert` and `remove`, in the order of the schedule, are the operations of a
    queue with `N` places, and every order that the queue allows is that of some schedule. -/
theorem monitor_traces_iff (N : ℕ) (hN : 1 ≤ N) (ops : List QueueOp) :
    (∃ as s, (monitor N).run as (monitor N).init = some s ∧
      (monitor N).trace operation as (monitor N).init = ops) ↔
      ∃ l, (boundedQueue N).run ops [] = some l :=
  System.traces_iff (simulation hN) offers (.stop ⟨rfl, fun _ => rfl⟩) ops

/-- Put, put and take, with two places. -/
theorem monitor_traces_iff_two :
    (∃ as s, (monitor 2).run as (monitor 2).init = some s ∧
      (monitor 2).trace operation as (monitor 2).init = [.put 7, .put 8, .take 7]) ↔
      ∃ l, (boundedQueue 2).run [.put 7, .put 8, .take 7] [] = some l :=
  monitor_traces_iff 2 (by decide) [.put 7, .put 8, .take 7]

end Monitor

/-! ## The messages -/

theorem MailConsumer.pending_length {μ : Type*} (fmt : Format μ) (c : MailConsumer μ) :
    (c.pending fmt).length ≤ 1 := by
  unfold MailConsumer.pending
  cases c.pc <;> exact Nat.le_of_ble_eq_true rfl

namespace Mailboxes

variable {μ : Type*} {N : ℕ} {fmt : Format μ} {m₀ m₁ : μ} {s s' : Mailboxes μ}

/-- What `produce_item` returns and what `consume_item` is called with. -/
def operation (a : MailAct) (s : Mailboxes μ) : Option QueueOp :=
  match a with
  | .producer produced => if s.producer.pc = .produce then some (.put produced) else none
  | .consumer => if s.consumer.pc = .consume then some (.take s.consumer.item) else none

/-- The items that have been produced and not yet consumed. -/
def pending (fmt : Format μ) (s : Mailboxes μ) : List ℤ :=
  s.consumer.pending fmt ++ s.toConsumer.map fmt.extract_item ++ s.producer.pending

theorem Inv.produced_eq (h : s.Inv N fmt) : s.produced = s.consumed ++ s.pending fmt := by
  rw [h.items, pending, List.append_assoc, List.append_assoc, List.append_assoc]

theorem record_step {a : MailAct} (hs : Mailboxes.step N fmt a s = some s') :
    s'.produced = s.produced ++ puts (operation a s) ∧
      s'.consumed = s.consumed ++ takes (operation a s) := by
  obtain ⟨toProducer, toConsumer, ⟨pc, item, m⟩, ⟨pc', item', i, m'⟩, produced, consumed⟩ := s
  cases a with
  | producer x =>
    simp only [Mailboxes.step, producerStep] at hs
    cases pc <;> cases toProducer <;> cases hs <;> simp [operation, puts, takes]
  | consumer =>
    simp only [Mailboxes.step, consumerStep] at hs
    cases pc' <;> cases toConsumer <;> (try split_ifs at hs) <;> cases hs <;>
      simp [operation, puts, takes]

theorem simulation (N : ℕ) (fmt : Format μ) (m₀ m₁ : μ) :
    System.Simulation (mailboxes N fmt m₀ m₁) (boundedQueue (N + 2)) operation (Inv N fmt)
      (pending fmt) := by
  refine boundedQueue_simulation ⟨Inv.init N fmt m₀ m₁, rfl⟩ (fun _ _ _ h hs => h.step hs)
    (fun _ h => h.produced_eq) ?_ ?_
  · intro a s s' h hs
    exact record_step hs
  · intro a s v h hb
    have hmessages := h.messages
    unfold Mailboxes.messages at hmessages
    have hconsumer := MailConsumer.pending_length fmt s.consumer
    cases a with
    | producer x =>
      obtain ⟨hpc, -⟩ := Option.ite_none_right_eq_some.mp hb
      have hproducer : s.producer.pending = [] := by rw [MailProducer.pending, hpc]
      rw [pending, hproducer, List.append_nil, List.length_append, List.length_map]
      omega
    | consumer =>
      obtain ⟨-, hb⟩ := Option.ite_none_right_eq_some.mp hb
      cases hb

/-- The producer sends its item. -/
theorem shows_deliver {ops : List QueueOp} {P : Mailboxes μ → Prop} {m : μ} {rest : List μ}
    (hpc : s.producer.pc = .receive) (hmail : s.toProducer = m :: rest)
    (hnext : (mailboxes N fmt m₀ m₁).Shows operation ops P
      { s with
        producer := ⟨.produce, s.producer.item, fmt.build_message m s.producer.item⟩
        toProducer := rest
        toConsumer := s.toConsumer ++ [fmt.build_message m s.producer.item] }) :
    (mailboxes N fmt m₀ m₁).Shows operation ops P s := by
  obtain ⟨toProducer, toConsumer, ⟨pc, item, m'⟩, c, produced, consumed⟩ := s
  cases hpc
  cases hmail
  exact .silent (a := .producer 0) rfl rfl
    (.silent (a := .producer 0) rfl rfl (.silent (a := .producer 0) rfl rfl hnext))

/-- The consumer receives its next item. -/
theorem shows_fetch {ops : List QueueOp} {P : Mailboxes μ → Prop} {m : μ} {rest : List μ}
    (hpc : s.consumer.pc = .receive) (hmail : s.toConsumer = m :: rest)
    (hnext : (mailboxes N fmt m₀ m₁).Shows operation ops P
      { s with
        consumer := ⟨.consume, fmt.extract_item m, s.consumer.i, m⟩
        toConsumer := rest
        toProducer := s.toProducer ++ [m] }) :
    (mailboxes N fmt m₀ m₁).Shows operation ops P s := by
  obtain ⟨toProducer, toConsumer, p, ⟨pc, item, i, m'⟩, produced, consumed⟩ := s
  cases hpc
  cases hmail
  exact .silent (a := .consumer) rfl rfl
    (.silent (a := .consumer) rfl rfl (.silent (a := .consumer) rfl rfl hnext))

/-- All items are as far on their way as they can be. -/
structure Rests (s : Mailboxes μ) : Prop where
  producer : s.producer.pc = .produce ∨ s.producer.pc = .receive ∧ s.toProducer = []
  consumer : s.consumer.pc = .consume ∨ s.consumer.pc = .receive ∧ s.toConsumer = []

/-- After an operation the other items move up. -/
theorem shows_settle (hN : 1 ≤ N) (hmessages : s.messages N = N)
    (hproducer : s.producer.pc = .produce ∨ s.producer.pc = .receive)
    (hconsumer : s.consumer.pc = .consume ∨ s.consumer.pc = .receive) :
    (mailboxes N fmt m₀ m₁).Shows operation [] Rests s := by
  obtain ⟨toProducer, toConsumer, ⟨pc, item, m⟩, ⟨pc', item', i, m'⟩, produced, consumed⟩ := s
  dsimp only at hproducer hconsumer
  obtain rfl | rfl := hconsumer
  · obtain rfl | rfl := hproducer
    · exact .stop ⟨.inl rfl, .inl rfl⟩
    · cases toProducer with
      | nil => exact .stop ⟨.inr ⟨rfl, rfl⟩, .inl rfl⟩
      | cons _ _ => exact shows_deliver rfl rfl (.stop ⟨.inl rfl, .inl rfl⟩)
  · cases toConsumer with
    | cons _ _ =>
      refine shows_fetch rfl rfl ?_
      obtain rfl | rfl := hproducer
      · exact .stop ⟨.inl rfl, .inl rfl⟩
      · cases toProducer with
        | nil => exact shows_deliver rfl rfl (.stop ⟨.inl rfl, .inl rfl⟩)
        | cons _ _ => exact shows_deliver rfl rfl (.stop ⟨.inl rfl, .inl rfl⟩)
    | nil =>
      obtain rfl | rfl := hproducer
      · exact .stop ⟨.inl rfl, .inr ⟨rfl, rfl⟩⟩
      · cases toProducer with
        | nil =>
          have hzero : 0 = N := hmessages
          omega
        | cons _ _ =>
          exact shows_deliver rfl rfl (shows_fetch rfl rfl (.stop ⟨.inl rfl, .inl rfl⟩))

theorem offers (hN : 1 ≤ N) :
    System.Offers (mailboxes N fmt m₀ m₁) (boundedQueue (N + 2)) operation (Inv N fmt)
      (pending fmt) Rests := by
  intro s b t h hrests ht
  have hmessages := h.messages
  obtain ⟨toProducer, toConsumer, ⟨pc, item, m⟩, ⟨pc', item', i, m'⟩, produced, consumed⟩ := s
  obtain ⟨hproducer, hconsumer⟩ := hrests
  dsimp only at hproducer hconsumer
  cases b with
  | put v =>
    obtain ⟨hlt, -⟩ := Option.ite_none_right_eq_some.mp ht
    obtain rfl | ⟨rfl, rfl⟩ := hproducer
    · refine .seen (a := .producer v) rfl rfl ?_
      exact shows_settle hN hmessages (.inr rfl) (hconsumer.imp_right And.left)
    · -- the producer waits for a message: all of them are on their way to the consumer
      obtain rfl | ⟨rfl, rfl⟩ := hconsumer
      · have hall : 0 + toConsumer.length + 0 + 0 + 0 = N := hmessages
        change ([item'] ++ toConsumer.map fmt.extract_item ++ [item]).length < N + 2 at hlt
        rw [List.length_append, List.length_append, List.length_map] at hlt
        simp only [List.length_singleton] at hlt
        omega
      · have hzero : 0 = N := hmessages
        omega
  | take v =>
    obtain ⟨hhead, -⟩ := Option.ite_none_right_eq_some.mp ht
    obtain rfl | ⟨rfl, rfl⟩ := hconsumer
    · cases hhead
      refine .seen (a := .consumer) rfl rfl ?_
      exact shows_settle hN hmessages (hproducer.imp_right And.left) (.inr rfl)
    · obtain rfl | ⟨rfl, rfl⟩ := hproducer
      · cases hhead
      · have hzero : 0 = N := hmessages
        omega

/-- The consumer sends its first messages. -/
theorem shows_prime {n : ℕ} (hpc : s.consumer.pc = .prime) (hn : s.consumer.i + n = N)
    (hproducer : s.producer.pc = .produce) (hmail : s.toConsumer = []) :
    (mailboxes N fmt m₀ m₁).Shows operation [] Rests s := by
  induction n generalizing s with
  | zero =>
    have hs : (mailboxes N fmt m₀ m₁).step .consumer s =
        some { s with consumer := { s.consumer with pc := .receive } } := by
      show consumerStep N fmt s = _
      rw [consumerStep, hpc]
      exact if_neg (Nat.not_lt.mpr hn.ge)
    refine .silent hs ?_ (.stop ⟨.inl hproducer, .inr ⟨rfl, hmail⟩⟩)
    rw [operation, hpc]
    rfl
  | succ n ih =>
    have hs : (mailboxes N fmt m₀ m₁).step .consumer s =
        some { s with
          consumer := ⟨.prime, s.consumer.item, s.consumer.i + 1, s.consumer.m⟩
          toProducer := s.toProducer ++ [s.consumer.m] } := by
      show consumerStep N fmt s = _
      rw [consumerStep, hpc]
      exact if_pos (show s.consumer.i < N by omega)
    refine .silent hs ?_ (ih rfl ?_ hproducer hmail)
    · rw [operation, hpc]
      rfl
    · show s.consumer.i + 1 + n = N
      omega

/-- What `produce_item` returns and what `consume_item` gets are the operations of a queue with
    `N + 2` places, two more than there are messages, and every order that the queue allows is that
    of some schedule. -/
theorem mailboxes_traces_iff (N : ℕ) (hN : 1 ≤ N) (fmt : Format μ) (m₀ m₁ : μ)
    (ops : List QueueOp) :
    (∃ as s, (mailboxes N fmt m₀ m₁).run as (mailboxes N fmt m₀ m₁).init = some s ∧
      (mailboxes N fmt m₀ m₁).trace operation as (mailboxes N fmt m₀ m₁).init = ops) ↔
      ∃ l, (boundedQueue (N + 2)).run ops [] = some l :=
  System.traces_iff (simulation N fmt m₀ m₁) (offers hN)
    (shows_prime rfl (Nat.zero_add N) rfl rfl) ops

/-- Three items with one message. -/
theorem mailboxes_traces_iff_three :
    (∃ as s, (mailboxes 1 intFormat 0 0).run as (mailboxes 1 intFormat 0 0).init = some s ∧
      (mailboxes 1 intFormat 0 0).trace operation as (mailboxes 1 intFormat 0 0).init =
        [.put 7, .put 8, .put 9]) ↔
      ∃ l, (boundedQueue 3).run [.put 7, .put 8, .put 9] [] = some l :=
  mailboxes_traces_iff 1 (Nat.le_refl 1) intFormat 0 0 [.put 7, .put 8, .put 9]

end Mailboxes

/-! ## The semaphores -/

/-- The place after `pc` in the loop. -/
def SemPc.next : SemPc → SemPc
  | .own => .down
  | .down => .downMutex
  | .downMutex => .call
  | .call => .upMutex
  | .upMutex => .up
  | .up => .own

namespace Semaphores

variable {β ι : Type*} {s s' : Semaphores β ι} {N : ℕ} {B : Buffer N β} {role : ι → Role}
  {a : SemAct ι} {i : ι}

/-- The call of `insert_item` or of `remove_item`, with the item that it returns. -/
def operation (B : Buffer N β) (a : SemAct ι) (s : Semaphores β ι) : Option QueueOp :=
  if (s.processes a.i).pc = .call then
    match (s.processes a.i).role with
    | .producer => some (.put (s.processes a.i).item)
    | .consumer => some (.take (B.remove_item s.buffer).1)
  else none

/-- All processes are where they start. -/
def Rests (role : ι → Role) (s : Semaphores β ι) : Prop :=
  ∀ i, (s.processes i).pc = (SemProcess.start (role i)).pc

variable [Fintype ι] [DecidableEq ι]

theorem simulation (B : Buffer N β) (role : ι → Role) :
    System.Simulation (semaphores B role) (guardedBuffer B) (operation B) (Inv B role)
      Semaphores.buffer where
  init := ⟨Inv.init B role, rfl⟩
  inv _ _ _ h hs := h.step hs
  seen := by
    intro a s s' b h hs hb
    obtain ⟨p, -, hp⟩ := step_spec hs
    unfold operation at hb
    split_ifs at hb with hpc
    rw [if_pos hpc] at hp
    obtain ⟨-, hbuffer⟩ := hp
    rw [hbuffer]
    generalize hrole : (s.processes a.i).role = r at *
    cases r with
    | producer =>
      cases hb
      exact if_pos (h.insert hrole hpc)
    | consumer =>
      cases hb
      exact if_pos ⟨h.remove hrole hpc, rfl⟩
  unseen := by
    intro a s s' h hs hb
    obtain ⟨p, -, hp⟩ := step_spec hs
    have hpc : (s.processes a.i).pc ≠ .call := by
      intro hpc
      rw [operation, if_pos hpc] at hb
      cases hrole : (s.processes a.i).role <;> rw [hrole] at hb <;> cases hb
    rw [if_neg hpc] at hp
    exact hp.2

/-- Process `i` is `q`, and the others are where they start. -/
structure Only (B : Buffer N β) (role : ι → Role) (i : ι) (q : SemProcess) (s : Semaphores β ι) :
    Prop where
  inv : s.Inv B role
  process : s.processes i = q
  others : ∀ j, j ≠ i → (s.processes j).pc = (SemProcess.start (role j)).pc

variable {q : SemProcess}

theorem Only.move {p : SemProcess} (h : s.Only B role i q) (hinv : s'.Inv B role)
    (hs : s'.processes = Function.update s.processes i p) : s'.Only B role i p where
  inv := hinv
  process := by rw [hs, Function.update_self]
  others := fun j hj => by rw [hs, Function.update_of_ne hj, h.others j hj]

omit [DecidableEq ι] in
/-- `mutex` is free, or `i` holds it. -/
theorem Only.mutex (h : s.Only B role i q) :
    0 < (s.processes i).critical ∨ 0 < s.value .mutex := by
  by_contra! hnot
  obtain ⟨j, hj⟩ := h.inv.mutex.exists_holds (by omega)
  have hji : j ≠ i := by
    rintro rfl
    omega
  rw [SemProcess.critical, h.others j hji] at hj
  generalize role j = r at hj
  cases r <;> exact Nat.lt_irrefl 0 hj

omit [Fintype ι] in
theorem step_next (hs : Semaphores.step B a s = some s') (hown : (s.processes a.i).pc ≠ .own)
    (hcall : (s.processes a.i).pc ≠ .call) :
    s'.buffer = s.buffer ∧ s'.processes = Function.update s.processes a.i
      { s.processes a.i with pc := (s.processes a.i).pc.next } := by
  unfold Semaphores.step at hs
  generalize s.processes a.i = p at *
  obtain ⟨r, pc, item⟩ := p
  cases pc with
  | own => exact absurd rfl hown
  | call => exact absurd rfl hcall
  | upMutex | up =>
    cases hs
    exact ⟨rfl, rfl⟩
  | down | downMutex =>
    obtain ⟨-, -, hbuffer, hprocesses⟩ := down_spec hs
    exact ⟨hbuffer, hprocesses⟩

theorem Only.silent {ops : List QueueOp} (h : s.Only B role i q) (hown : q.pc ≠ .own)
    (hcall : q.pc ≠ .call) (hroom : q.pc = .down → 0 < s.value q.role.sems.first)
    (hnext : ∀ u : Semaphores β ι, u.Only B role i { q with pc := q.pc.next } →
      u.buffer = s.buffer → (semaphores B role).Shows (operation B) ops (Rests role) u) :
    (semaphores B role).Shows (operation B) ops (Rests role) s := by
  obtain ⟨u, hu⟩ : ∃ u, Semaphores.step B ⟨i, 0⟩ s = some u := by
    by_cases hpc : q.pc = .down
    · apply step_down_of_pos B <;> rw [h.process]
      · exact hpc
      · exact hroom hpc
    · apply step_of_ne_down B _ h.mutex
      rwa [h.process]
  have hprocess := h.process
  obtain ⟨hbuffer, hprocesses⟩ := step_next hu (by rwa [hprocess]) (by rwa [hprocess])
  rw [hprocess] at hprocesses
  have hevent : operation B ⟨i, 0⟩ s = none := if_neg (by rwa [hprocess])
  exact .silent hu hevent (hnext u (h.move (h.inv.step hu) hprocesses) hbuffer)

/-- The call of a process with the variable `item`. -/
def operationOf (B : Buffer N β) (r : Role) (item : ℤ) (b : β) : QueueOp :=
  match r with
  | .producer => .put item
  | .consumer => .take (B.remove_item b).1

variable {r : Role} {item : ℤ}

theorem Only.call (h : s.Only B role i ⟨r, .call, item⟩)
    (hnext : ∀ (u : Semaphores β ι) item', u.Only B role i ⟨r, .own, item'⟩ →
      (semaphores B role).Shows (operation B) [] (Rests role) u) :
    (semaphores B role).Shows (operation B) [operationOf B r item s.buffer] (Rests role) s := by
  have hs : (semaphores B role).step ⟨i, 0⟩ s = some (s.call B i ⟨r, .call, item⟩) := by
    show Semaphores.step B ⟨i, 0⟩ s = _
    rw [Semaphores.step, h.process]
  have hevent : operation B ⟨i, 0⟩ s = some (operationOf B r item s.buffer) := by
    unfold operation operationOf
    rw [h.process, if_pos rfl]
    cases r <;> rfl
  obtain ⟨item', hcalled⟩ : ∃ item', (s.call B i ⟨r, .call, item⟩).Only B role i
      ⟨r, .upMutex, item'⟩ := by
    have hinv := h.inv.step hs
    cases r <;> exact ⟨_, h.move hinv rfl⟩
  refine .seen hs hevent (hcalled.silent nofun nofun nofun ?_)
  intro u hu _
  refine hu.silent nofun nofun nofun ?_
  intro u' hu' _
  exact hnext u' item' hu'

theorem Only.down (h : s.Only B role i ⟨r, .down, item⟩) (hroom : 0 < s.value r.sems.first)
    (hnext : ∀ (u : Semaphores β ι) item', u.Only B role i ⟨r, .own, item'⟩ →
      (semaphores B role).Shows (operation B) [] (Rests role) u) :
    (semaphores B role).Shows (operation B) [operationOf B r item s.buffer] (Rests role) s := by
  refine h.silent nofun nofun (fun _ => hroom) ?_
  intro u hu hbuffer
  refine hu.silent nofun nofun nofun ?_
  intro u' hu' hbuffer'
  rw [← hbuffer, ← hbuffer']
  exact hu'.call hnext

theorem Only.own {ops : List QueueOp} (h : s.Only B role i ⟨r, .own, item⟩) (v : ℤ)
    (hnext : ∀ (u : Semaphores β ι) item', u.Only B role i ⟨r, .down, item'⟩ →
      u.value = s.value → u.buffer = s.buffer → (r = .producer → item' = v) →
      (semaphores B role).Shows (operation B) ops (Rests role) u) :
    (semaphores B role).Shows (operation B) ops (Rests role) s := by
  obtain ⟨item', hs, hitem⟩ : ∃ item', (semaphores B role).step ⟨i, v⟩ s =
      some (s.goto i ⟨r, .down, item'⟩) ∧ (r = .producer → item' = v) := by
    show ∃ item', Semaphores.step B ⟨i, v⟩ s = _ ∧ _
    rw [Semaphores.step, h.process]
    cases r with
    | producer => exact ⟨v, rfl, fun _ => rfl⟩
    | consumer => exact ⟨item, rfl, nofun⟩
  have hevent : operation B ⟨i, v⟩ s = none := by
    apply if_neg
    rw [h.process]
    exact nofun
  exact .silent hs hevent (hnext _ item' (h.move (h.inv.step hs) rfl) rfl rfl hitem)

omit [DecidableEq ι] in
theorem Only.rests (h : s.Only B role i q) (hpc : q.pc = (SemProcess.start (role i)).pc) :
    s.Rests role := by
  intro j
  by_cases hj : j = i
  · rw [hj, h.process, hpc]
  · exact h.others j hj

omit [DecidableEq ι] in
theorem Rests.only (hrests : s.Rests role) (h : s.Inv B role) (hi : role i = r) :
    ∃ item, s.Only B role i ⟨r, (SemProcess.start r).pc, item⟩ := by
  refine ⟨(s.processes i).item, h, ?_, fun j _ => hrests j⟩
  rw [← hi, ← hrests i, ← h.role i]

omit [DecidableEq ι] in
/-- The semaphores of the two functions count the free slots and the items. -/
theorem Rests.value (hrests : s.Rests role) (h : s.Inv B role) :
    s.value .empty + B.items s.buffer = N ∧ s.value .full = B.items s.buffer := by
  constructor
  · refine h.slots.eq_of_forall fun j => ?_
    rw [SemProcess.slots, hrests j, h.role j]
    cases role j <;> rfl
  · refine h.held.eq_of_forall fun j => ?_
    rw [SemProcess.held, hrests j, h.role j]
    cases role j <;> rfl

theorem offers (hp : ∃ i, role i = .producer) (hc : ∃ i, role i = .consumer) :
    System.Offers (semaphores B role) (guardedBuffer B) (operation B) (Inv B role)
      Semaphores.buffer (Rests role) := by
  intro s b t h hrests ht
  obtain ⟨hempty, hfull⟩ := hrests.value h
  cases b with
  | put v =>
    obtain ⟨hlt, -⟩ := Option.ite_none_right_eq_some.mp ht
    obtain ⟨i, hi⟩ := hp
    obtain ⟨item, hown⟩ := hrests.only h hi
    refine hown.own v ?_
    intro u item' hdown hvalue hbuffer hitem
    have hroom : 0 < u.value .empty := by
      rw [hvalue]
      omega
    have hshows : (semaphores B role).Shows (operation B) [.put item'] (Rests role) u := by
      refine hdown.down hroom ?_
      intro u' item'' hu'
      exact .stop (hu'.rests (by rw [hi]; rfl))
    rwa [hitem rfl] at hshows
  | take v =>
    obtain ⟨⟨hpos, hv⟩, -⟩ := Option.ite_none_right_eq_some.mp ht
    obtain ⟨i, hi⟩ := hc
    obtain ⟨item, hdown⟩ := hrests.only h hi
    have hroom : 0 < s.value .full := by rwa [hfull]
    have hshows : (semaphores B role).Shows (operation B) [.take (B.remove_item s.buffer).1]
        (Rests role) s := by
      refine hdown.down hroom ?_
      intro u item' hown
      refine hown.own 0 ?_
      intro u' item'' hu' _ _ _
      exact .stop (hu'.rests (by rw [hi]; rfl))
    rwa [hv] at hshows

/-- Whatever the buffer is, the calls of the processes, in the order of the schedule, are calls one
    after the other that never insert without a free slot or remove without an item, and every such
    order is that of some schedule. -/
theorem semaphores_traces_iff (B : Buffer N β) (role : ι → Role) (hp : ∃ i, role i = .producer)
    (hc : ∃ i, role i = .consumer) (ops : List QueueOp) :
    (∃ as s, (semaphores B role).run as (semaphores B role).init = some s ∧
      (semaphores B role).trace (operation B) as (semaphores B role).init = ops) ↔
      ∃ b, (guardedBuffer B).run ops B.new = some b :=
  System.traces_iff (simulation B role) (offers hp hc) (.stop fun _ => rfl) ops

/-- One item goes through the list with one slot. -/
theorem semaphores_traces_iff_one :
    (∃ as s, (semaphores listBuffer twoRoles).run as (semaphores listBuffer twoRoles).init =
        some s ∧
      (semaphores listBuffer twoRoles).trace (operation listBuffer) as
        (semaphores listBuffer twoRoles).init = [.put 7, .take 7]) ↔
      ∃ b, (guardedBuffer listBuffer).run [.put 7, .take 7] [] = some b :=
  semaphores_traces_iff listBuffer twoRoles ⟨0, rfl⟩ ⟨1, rfl⟩ [.put 7, .take 7]

end Semaphores

end IntroOS.Preparation
