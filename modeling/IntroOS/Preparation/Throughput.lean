import IntroOS.Concurrency.Potential
import IntroOS.Preparation.Mailboxes
import IntroOS.Preparation.Monitor
import IntroOS.Preparation.OneSlot
import IntroOS.Preparation.Semaphores

/-!
# Throughput of the producers and consumers

The programs of `Preparation/` that block instead of polling: every step of every schedule brings
some process closer to its next item. There is a bound on the steps between two items, without any
assumption about the scheduler.

Main results:

* `semaphores_steps_le`: `mutex-pro-con.c`, for any number of processes.
* `mailboxes_steps_le`: `information.c`.
* `monitor_steps_le`: `PriducerConsumer.java`.
* `one_slot_terminates`: the two threads of `buffer-mutex.c` come to their ends.
-/

namespace IntroOS.Preparation

open Concurrency

/-! ## Semaphores -/

/-- The steps of a process before it calls `insert_item` or `remove_item`. -/
def SemPc.toCall : SemPc → ℕ
  | .upMutex => 5
  | .up => 4
  | .own => 3
  | .down => 2
  | .downMutex => 1
  | .call => 0

namespace Semaphores

variable {β ι : Type*} {s s' : Semaphores β ι} {N : ℕ} {B : Buffer N β} {role : ι → Role}
  {a : SemAct ι} {r : Role}

/-- A process that runs the function of `r` calls `insert_item` or `remove_item`. -/
def calls (r : Role) (a : SemAct ι) (s : Semaphores β ι) : Bool :=
  (s.processes a.i).role = r ∧ (s.processes a.i).pc = .call

/-- The calls of the other processes that the buffer has room for. -/
def room (B : Buffer N β) (r : Role) (s : Semaphores β ι) : ℕ :=
  match r with
  | .producer => B.items s.buffer
  | .consumer => N - B.items s.buffer

/-- What a step does to process `a.i` and to the buffer. -/
theorem step_spec [DecidableEq ι] (hs : Semaphores.step B a s = some s') :
    ∃ p, s'.processes = Function.update s.processes a.i p ∧
      if (s.processes a.i).pc = .call then
        p.pc = .upMutex ∧ s'.buffer = match (s.processes a.i).role with
          | .producer => B.insert_item (s.processes a.i).item s.buffer
          | .consumer => (B.remove_item s.buffer).2
      else p.pc.toCall + 1 = (s.processes a.i).pc.toCall ∧ s'.buffer = s.buffer := by
  unfold Semaphores.step at hs
  generalize s.processes a.i = p at *
  obtain ⟨role, pc, item⟩ := p
  cases pc with
  | own | upMutex | up =>
    cases hs
    exact ⟨_, rfl, rfl, rfl⟩
  | down | downMutex =>
    obtain ⟨-, -, hbuffer, hprocesses⟩ := down_spec hs
    exact ⟨_, hprocesses, rfl, hbuffer⟩
  | call =>
    cases hs
    cases role <;> exact ⟨_, rfl, rfl, rfl⟩

variable [Fintype ι] [DecidableEq ι]

/-- What is left to do before the buffer keeps all processes from going on, unless one that runs the
    function of `r` calls. -/
def left (B : Buffer N β) (r : Role) (s : Semaphores β ι) : ℕ :=
  6 * room B r s + ∑ i, (s.processes i).pc.toCall

theorem left_step (h : s.Inv B role) (hs : Semaphores.step B a s = some s') :
    left B r s' + 1 ≤ left B r s + 12 * (calls r a s).toNat := by
  obtain ⟨p, hprocesses, hp⟩ := step_spec hs
  have hsum := sum_update_add (fun p : SemProcess => p.pc.toCall) s.processes a.i p
  have hinsert := @Inv.insert β ι s _ N B role a.i h
  have hremove := @Inv.remove β ι s _ N B role a.i h
  unfold left room calls
  rw [hprocesses]
  split_ifs at hp with hpc
  · obtain ⟨hpc', hbuffer⟩ := hp
    rw [hpc, hpc'] at hsum
    have hpay : ∑ i, (Function.update s.processes a.i p i).pc.toCall =
        ∑ i, (s.processes i).pc.toCall + 5 := hsum
    rw [hpay, hbuffer]
    generalize hrole : (s.processes a.i).role = role' at *
    cases role' with
    | producer =>
      have hlt := hinsert rfl hpc
      have hitems := B.items_insert (s.processes a.i).item s.buffer hlt
      cases r with
      | producer => simp [hpc, hitems, Nat.mul_add]; omega
      | consumer => simp [hitems]; omega
    | consumer =>
      have hpos := hremove rfl hpc
      have hitems := B.items_remove s.buffer hpos
      have hle : B.items s.buffer ≤ N := by
        have hslots := h.slots
        unfold Conserved at hslots
        omega
      cases r with
      | producer => simp; omega
      | consumer => simp [hpc]; omega
  · obtain ⟨hpc', hbuffer⟩ := hp
    have hpay : ∑ i, (Function.update s.processes a.i p i).pc.toCall + 1 =
        ∑ i, (s.processes i).pc.toCall := by
      omega
    rw [hbuffer]
    cases r <;> omega

omit [DecidableEq ι] in
theorem left_le (h : s.Inv B role) (r : Role) : left B r s ≤ 6 * N + 5 * Fintype.card ι := by
  have hsum : ∑ i, (s.processes i).pc.toCall ≤ ∑ _i : ι, 5 :=
    Finset.sum_le_sum fun i _ => by cases (s.processes i).pc <;> decide
  have hroom : room B r s ≤ N := by
    have hslots := h.slots
    unfold Conserved at hslots
    unfold room
    cases r <;> dsimp only <;> omega
  rw [Finset.sum_const, Finset.card_univ, smul_eq_mul] at hsum
  unfold left
  omega

/-- From every state that is reached, whatever the schedule: a run of the processes is not longer
    than 12 steps for each item that is inserted in it, or for each that is removed, and
    `6 * N + 5` steps for each process. -/
theorem semaphores_steps_le (B : Buffer N β) (role : ι → Role) (r : Role) (s s' : Semaphores β ι)
    (as : List (SemAct ι)) (h : (semaphores B role).Reach System.anyStep s)
    (hr : (semaphores B role).run as s = some s') :
    as.length ≤ 12 * (semaphores B role).count (calls r) as s + 6 * N + 5 * Fintype.card ι := by
  have hinv := inv_of_reach h
  have hlen : left B r s' + as.length ≤
      left B r s + 12 * (semaphores B role).count (calls r) as s :=
    System.length_le_of_count (fun _ _ _ hinv hs => Inv.step hinv hs)
      (fun _ _ _ hinv hs => left_step hinv hs) hinv hr
  have hleft := left_le hinv r
  omega

/-- The producer inserts an item and waits, and the consumer is about to remove it. -/
theorem semaphores_steps_le_run :
    oneItem.length ≤
      12 * (semaphores listBuffer twoRoles).count (calls .producer) oneItem
        (semaphores listBuffer twoRoles).init + 6 * 1 + 5 * Fintype.card (Fin 2) :=
  semaphores_steps_le listBuffer twoRoles .producer (semaphores listBuffer twoRoles).init _ oneItem .init rfl

end Semaphores

/-! ## Messages -/

section Distance

variable {μ : Type*}

/-- The steps of the producer to its next item. -/
def MailProducer.toItem (p : MailProducer μ) : ℕ :=
  match p.pc with
  | .receive => 7
  | .build => 6
  | .send => 5
  | .produce => 0

/-- The steps of the producer before it waits for a message. -/
def MailProducer.toWait (p : MailProducer μ) : ℕ :=
  match p.pc with
  | .build => 3
  | .send => 2
  | .produce => 1
  | .receive => 0

/-- The steps of the consumer to its next item; a message that it sends counts for four. -/
def MailConsumer.toItem (N : ℕ) (c : MailConsumer μ) : ℕ :=
  match c.pc with
  | .prime => 5 * (N - c.i) + 8
  | .receive => 7
  | .extract => 6
  | .send => 5
  | .consume => 0

/-- The steps of the consumer before it waits for a message. -/
def MailConsumer.toWait (N : ℕ) (c : MailConsumer μ) : ℕ :=
  match c.pc with
  | .prime => N - c.i + 1
  | .extract => 3
  | .send => 2
  | .consume => 1
  | .receive => 0

end Distance

namespace Mailboxes

variable {μ : Type*} {N : ℕ} {fmt : Format μ} {m₀ m₁ : μ} {s s' : Mailboxes μ} {a : MailAct}
  {r : Role}

/-- `produce_item` returns an item, or `consume_item` takes one. -/
def acts (r : Role) (a : MailAct) (s : Mailboxes μ) : Bool :=
  match r, a with
  | .producer, .producer _ => s.producer.pc = .produce
  | .consumer, .consumer => s.consumer.pc = .consume
  | _, _ => false

/-- The items that have gone through the hands of `r`. -/
def items (r : Role) (s : Mailboxes μ) : List ℤ :=
  match r with
  | .producer => s.produced
  | .consumer => s.consumed

/-- What is left to do before `r` produces or consumes its next item, or waits for the other
    process: its own steps, and those that the messages in the mailbox of the other one allow it. -/
def left (N : ℕ) (r : Role) (s : Mailboxes μ) : ℕ :=
  match r with
  | .producer =>
    4 * s.toConsumer.length + s.producer.toItem + s.consumer.toWait N
  | .consumer =>
    4 * s.toProducer.length + s.producer.toWait + s.consumer.toItem N

theorem left_producerStep {x : ℤ} (hs : s.producerStep fmt x = some s') :
    left N r s' + 1 ≤ left N r s + 8 * (acts r (.producer x) s).toNat := by
  obtain ⟨toProducer, toConsumer, ⟨pc, item, m⟩, c, produced, consumed⟩ := s
  unfold Mailboxes.producerStep at hs
  cases pc with
  | receive =>
    cases toProducer with
    | nil => cases hs
    | cons m' rest =>
      cases hs
      cases r <;> simp +arith [left, acts, MailProducer.toItem, MailProducer.toWait]
  | produce | build | send =>
    cases hs
    cases r <;> simp +arith [left, acts, MailProducer.toItem, MailProducer.toWait]

theorem left_consumerStep (hs : s.consumerStep N fmt = some s') :
    left N r s' + 1 ≤ left N r s + 8 * (acts r .consumer s).toNat := by
  obtain ⟨toProducer, toConsumer, p, ⟨pc, item, i, m⟩, produced, consumed⟩ := s
  unfold Mailboxes.consumerStep at hs
  cases pc with
  | prime =>
    dsimp only at hs
    split_ifs at hs with hi
    · have hnext : N - i = N - (i + 1) + 1 := by omega
      cases hs
      cases r <;> simp +arith [left, acts, MailConsumer.toItem, MailConsumer.toWait, hnext]
    · cases hs
      cases r <;> simp +arith [left, acts, MailConsumer.toItem, MailConsumer.toWait]
  | receive =>
    cases toConsumer with
    | nil => cases hs
    | cons m' rest =>
      cases hs
      cases r <;> simp +arith [left, acts, MailConsumer.toItem, MailConsumer.toWait]
  | extract | send | consume =>
    cases hs
    cases r <;> simp +arith [left, acts, MailConsumer.toItem, MailConsumer.toWait]

theorem left_step (hs : Mailboxes.step N fmt a s = some s') :
    left N r s' + 1 ≤ left N r s + 8 * (acts r a s).toNat := by
  cases a with
  | producer x => exact left_producerStep hs
  | consumer => exact left_consumerStep hs

theorem Inv.left_le (h : s.Inv N fmt) (r : Role) : left N r s ≤ 5 * N + 11 := by
  have hmessages := h.messages
  unfold Mailboxes.messages MailConsumer.unsent at hmessages
  have hproducer : s.producer.toItem ≤ 7 ∧ s.producer.toWait ≤ 3 := by
    unfold MailProducer.toItem MailProducer.toWait
    cases s.producer.pc <;> decide
  have hconsumer : s.consumer.toWait N ≤ N + 3 := by
    unfold MailConsumer.toWait
    cases s.consumer.pc <;> dsimp only <;> omega
  unfold left
  cases r with
  | producer => dsimp only; omega
  | consumer =>
    unfold MailConsumer.toItem
    cases hpc : s.consumer.pc <;> simp only [hpc] at hmessages ⊢ <;> omega

theorem items_step (hs : Mailboxes.step N fmt a s = some s') :
    (items r s').length = (items r s).length + (acts r a s).toNat := by
  obtain ⟨toProducer, toConsumer, ⟨pc, item, m⟩, ⟨pc', item', i, m'⟩, produced, consumed⟩ := s
  cases a with
  | producer x =>
    simp only [Mailboxes.step, producerStep] at hs
    cases pc <;> cases toProducer <;> cases hs <;> cases r <;> simp [items, acts]
  | consumer =>
    simp only [Mailboxes.step, consumerStep] at hs
    cases pc' <;> cases toConsumer <;> (try split_ifs at hs) <;> cases hs <;> cases r <;>
      simp [items, acts]

/-- From every state that is reached, whatever the schedule: in a run of more than `5 * N + 11`
    steps an item is produced and one is consumed, and another one of each for every eight steps
    more. -/
theorem mailboxes_steps_le (N : ℕ) (fmt : Format μ) (m₀ m₁ : μ) (r : Role) (s s' : Mailboxes μ)
    (as : List MailAct) (h : (mailboxes N fmt m₀ m₁).Reach System.anyStep s)
    (hr : (mailboxes N fmt m₀ m₁).run as s = some s') :
    as.length + 8 * (items r s).length ≤ 8 * (items r s').length + 5 * N + 11 := by
  have hinv := inv_of_reach h
  have hlen : left N r s' + as.length ≤
      left N r s + 8 * (mailboxes N fmt m₀ m₁).count (acts r) as s :=
    System.length_le_of_count (fun _ _ _ hinv hs => Inv.step hinv hs)
      (fun _ _ _ _ hs => left_step hs) hinv hr
  have hcount : (items r s').length =
      (items r s).length + (mailboxes N fmt m₀ m₁).count (acts r) as s :=
    System.eq_add_count (fun _ _ _ hs => items_step hs) hr
  have hleft := hinv.left_le r
  omega

/-- The consumer sends its first message, and consumes the first of two items. -/
theorem mailboxes_steps_le_run : ∃ s,
    (mailboxes 1 intFormat 0 0).run oneMessage (mailboxes 1 intFormat 0 0).init = some s ∧
      oneMessage.length + 8 * 0 ≤ 8 * (items .consumer s).length + 5 * 1 + 11 :=
  ⟨_, rfl, mailboxes_steps_le 1 intFormat 0 0 .consumer (mailboxes 1 intFormat 0 0).init _ oneMessage .init rfl⟩

end Mailboxes

theorem Role.add_other (f : Role → ℕ) (r t : Role) : f r + f r.other = f t + f t.other := by
  cases r <;> cases t <;> simp [Role.other, Nat.add_comm]

/-! ## The monitor -/

/-- The steps of a thread to the assignments of its method. -/
def MonitorPc.toBody : MonitorPc → ℕ
  | .notify => 8
  | .leave => 7
  | .call => 6
  | .enter => 5
  | .test => 4
  | .sleep => 3
  | .waiting => 2
  | .notified => 1
  | .body => 0

namespace Monitor

variable {N : ℕ} {s s' : Monitor} {a : MonitorAct} {r : Role}

/-- Thread `r` makes the assignments of its method. -/
def assigns (r : Role) (a : MonitorAct) (s : Monitor) : Bool := a.r = r ∧ s.pc r = .body

/-- The values that `r` has inserted or removed. -/
def values (r : Role) (s : Monitor) : List ℤ :=
  match r with
  | .producer => s.inserted
  | .consumer => s.removed

/-- The assignments of the other thread that the ring has room for. -/
def room (N : ℕ) (r : Role) (s : Monitor) : ℕ :=
  match r with
  | .producer => s.count.toNat
  | .consumer => N - s.count.toNat

/-- What is left to do before `r` makes its next assignments, or both threads wait. -/
def left (N : ℕ) (r : Role) (s : Monitor) : ℕ :=
  9 * room N r s + ((s.pc r).toBody + (s.pc r.other).toBody)

/-- A notification does not take the other thread away from its assignments. -/
theorem wake_toBody (s : Monitor) (r : Role) (th : MonitorThread) :
    (((s.goto r th).wake r.other).pc r = th.pc) ∧
      (((s.goto r th).wake r.other).pc r.other).toBody ≤ (s.pc r.other).toBody := by
  by_cases hw : s.pc r.other = .waiting
  · rw [wake_of_waiting _ hw, pc_goto, pc_goto, Function.update_self,
      Function.update_of_ne r.other_ne, Function.update_self, hw]
    exact ⟨rfl, Nat.le_succ 1⟩
  · rw [wake_of_ne _ hw, pc_goto, Function.update_self, Function.update_of_ne r.other_ne]
    exact ⟨rfl, Nat.le_refl _⟩

theorem body_pc (N : ℕ) (r : Role) (s : Monitor) :
    (s.body N r).pc = Function.update s.pc r .notify := by
  cases r <;> exact pc_goto ..

/-- What a step of `a.r` does to the two threads and to the ring. -/
theorem step_spec (hs : Monitor.step N a s = some s') :
    (s'.pc a.r.other).toBody ≤ (s.pc a.r.other).toBody ∧
      if s.pc a.r = .body then
        s'.pc a.r = .notify ∧ s'.count = (s.body N a.r).count ∧
          ∀ r, (values r s').length = (values r s).length + (assigns r a s).toNat
      else (s'.pc a.r).toBody + 1 ≤ (s.pc a.r).toBody ∧ s'.count = s.count ∧
        ∀ r, values r s' = values r s := by
  unfold Monitor.step at hs
  have hself : ∀ th, (s.goto a.r th).pc a.r = th.pc := fun th => by
    rw [pc_goto, Function.update_self]
  have hother : ∀ th, (s.goto a.r th).pc a.r.other = s.pc a.r.other := fun th => by
    rw [pc_goto, Function.update_of_ne a.r.other_ne]
  cases hpc : s.pc a.r with
  | call =>
    simp only [hpc, Option.some.injEq] at hs
    subst hs
    exact ⟨(congrArg _ (hother _)).le, (congrArg (·.toBody + 1) (hself _)).le, rfl,
      fun _ => rfl⟩
  | enter | notified =>
    simp only [hpc, Option.isNone_iff_eq_none, Option.ite_none_right_eq_some,
      Option.some.injEq] at hs
    obtain ⟨-, rfl⟩ := hs
    exact ⟨(congrArg _ (hother _)).le, (congrArg (·.toBody + 1) (hself _)).le, rfl, fun _ => rfl⟩
  | test =>
    simp only [hpc, Option.some.injEq] at hs
    subst hs
    refine ⟨(congrArg _ (hother _)).le, ?_, rfl, fun _ => rfl⟩
    rw [hself]
    split_ifs
    · exact Nat.le_refl 4
    · exact Nat.one_le_ofNat
  | sleep | leave =>
    simp only [hpc, Option.some.injEq] at hs
    subst hs
    exact ⟨(congrArg _ (hother _)).le, (congrArg (·.toBody + 1) (hself _)).le, rfl, fun _ => rfl⟩
  | waiting => simp only [hpc, reduceCtorEq] at hs
  | body =>
    simp only [hpc, Option.some.injEq] at hs
    subst hs
    rw [if_pos rfl]
    refine ⟨(congrArg MonitorPc.toBody ?_).le, ?_, rfl, fun r => ?_⟩
    · rw [body_pc, Function.update_of_ne a.r.other_ne]
    · rw [body_pc, Function.update_self]
    · unfold Monitor.body assigns values
      cases hr : a.r <;> cases r <;> simp_all [goto]
  | notify =>
    simp only [hpc, Option.some.injEq] at hs
    subst hs
    have hwake := wake_toBody s a.r ⟨.leave, (s.threads a.r).val⟩
    have hfields : ∀ t : Monitor, ∀ r, (t.wake r).count = t.count ∧
        ∀ u, values u (t.wake r) = values u t := by
      intro t r
      unfold wake
      split_ifs
      · exact ⟨rfl, fun u => by cases u <;> rfl⟩
      · exact ⟨rfl, fun u => rfl⟩
    rw [if_neg (by decide : ¬ MonitorPc.notify = .body)]
    split_ifs
    · exact ⟨hwake.2, by rw [hwake.1]; exact Nat.le_refl 8, (hfields _ _).1, (hfields _ _).2⟩
    · exact ⟨(congrArg _ (hother _)).le, (congrArg (·.toBody + 1) (hself _)).le, rfl, fun _ => rfl⟩

theorem Inv.count_le (h : s.Inv N) : 0 ≤ s.count ∧ s.count ≤ N := by
  obtain ⟨l, hl⟩ := h.queue
  exact hl.consistent.count

theorem left_step (h : s.Inv N) (hs : Monitor.step N a s = some s') :
    left N r s' + 1 ≤ left N r s + 18 * (assigns r a s).toNat := by
  obtain ⟨hother, hspec⟩ := step_spec hs
  have hcount := h.count_le
  have hknows := h.knows a.r
  unfold left
  rw [Role.add_other (fun t => (s'.pc t).toBody) r a.r,
    Role.add_other (fun t => (s.pc t).toBody) r a.r]
  split_ifs at hspec with hpc
  · obtain ⟨hpc', hcount', -⟩ := hspec
    rw [hpc] at hknows
    rw [hpc, hpc']
    have hnotify : MonitorPc.notify.toBody = 8 := rfl
    have hbody : MonitorPc.body.toBody = 0 := rfl
    unfold assigns room
    rw [hcount']
    cases hr : a.r with
    | producer =>
      have hlt : s.count ≠ N := by simpa [hr, Role.KnowsCount, Role.method, insertBody] using hknows
      rw [hr] at hother hpc
      cases r <;> simp [Monitor.body, hnotify, hbody, hpc] <;> omega
    | consumer =>
      have hpos : s.count ≠ 0 := by simpa [hr, Role.KnowsCount, Role.method, removeBody] using hknows
      rw [hr] at hother hpc
      cases r <;> simp [Monitor.body, hnotify, hbody, hpc] <;> omega
  · obtain ⟨hpc', hcount', -⟩ := hspec
    unfold room
    rw [hcount']
    omega

theorem Inv.left_le (h : s.Inv N) (r : Role) : left N r s ≤ 9 * N + 16 := by
  have hcount := h.count_le
  have hpc : ∀ t, (s.pc t).toBody ≤ 8 := fun t => by cases s.pc t <;> decide
  have hr := hpc r
  have hother := hpc r.other
  have hroom : room N r s ≤ N := by
    unfold room
    cases r <;> dsimp only <;> omega
  unfold left
  omega

theorem values_step (hs : Monitor.step N a s = some s') :
    (values r s').length = (values r s).length + (assigns r a s).toNat := by
  obtain ⟨-, hspec⟩ := step_spec hs
  split_ifs at hspec with hpc
  · exact hspec.2.2 r
  · rw [hspec.2.2 r]
    have hno : assigns r a s = false := by
      unfold assigns
      rw [decide_eq_false_iff_not]
      rintro ⟨rfl, hbody⟩
      exact hpc hbody
    rw [hno]
    rfl

/-- From every state that is reached, whatever the schedule: in a run of more than `9 * N + 16`
    steps a value is inserted and one is removed, and another one of each for every 18 steps more. -/
theorem monitor_steps_le (N : ℕ) (hN : 1 ≤ N) (r : Role) (s s' : Monitor) (as : List MonitorAct)
    (h : (monitor N).Reach System.anyStep s) (hr : (monitor N).run as s = some s') :
    as.length + 18 * (values r s).length ≤ 18 * (values r s').length + 9 * N + 16 := by
  have hinv := inv_of_reach hN h
  have hlen : left N r s' + as.length ≤ left N r s + 18 * (monitor N).count (assigns r) as s :=
    System.length_le_of_count (fun _ _ _ hinv hs => Inv.step hinv hs)
      (fun _ _ _ hinv hs => left_step hinv hs) hinv hr
  have hcount : (values r s').length = (values r s).length + (monitor N).count (assigns r) as s :=
    System.eq_add_count (fun _ _ _ hs => values_step hs) hr
  have hleft := hinv.left_le r
  omega

/-- The consumer waits, is notified after the first of two inserts and removes the first value. -/
theorem monitor_steps_le_run : ∃ s, (monitor 2).run twoInserts (monitor 2).init = some s ∧
    twoInserts.length + 18 * 0 ≤ 18 * (values .consumer s).length + 9 * 2 + 16 :=
  ⟨_, rfl, monitor_steps_le 2 (by decide) .consumer (monitor 2).init _ twoInserts .init rfl⟩

end Monitor

/-! ## The slot -/

/-- The steps of a thread to the end of its iteration, while it has to wait or not. A thread that
    does not has none in the wait set before it. -/
def SlotPc.toEnd (mustWait : Bool) : SlotPc → ℕ
  | .loop => if mustWait then 12 else 6
  | .lock | .relock => if mustWait then 11 else 5
  | .test => if mustWait then 10 else 4
  | .wait => 9
  | .waiting => 8
  | .access => 3
  | .signal => 2
  | .unlock => 1
  | .done => 0

theorem SlotPc.toEnd_mono (pc : SlotPc) (mustWait : Bool) : pc.toEnd false ≤ pc.toEnd mustWait := by
  cases pc <;> cases mustWait <;> decide

/-- A spurious wakeup. -/
def SlotAct.isWakeup : SlotAct → Bool
  | .wakeup _ => true
  | .thread _ => false

namespace Slot

variable {MAX : ℕ} {s s' : Slot} {a : SlotAct} {r : Role}

/-- The steps of thread `r` before it is done. -/
def toDone (MAX : ℕ) (s : Slot) (r : Role) : ℕ :=
  13 * (MAX + 1 - (s.threads r).i) + (s.pc r).toEnd (r.body.mustWait s.buffer)

theorem toDone_eq {pc : SlotPc} (hpc : s.pc r = pc) : toDone MAX s r =
    13 * (MAX + 1 - (s.threads r).i) + pc.toEnd (r.body.mustWait s.buffer) := by
  rw [toDone, hpc]

/-- A step of `r` that leaves the buffer alone. -/
theorem toDone_goto (s : Slot) (r : Role) (i : ℕ) (pc : SlotPc) (owner : Option Role) :
    toDone MAX { s.goto r ⟨i, pc⟩ with the_mutex := owner } r =
        13 * (MAX + 1 - i) + pc.toEnd (r.body.mustWait s.buffer) ∧
      toDone MAX { s.goto r ⟨i, pc⟩ with the_mutex := owner } r.other = toDone MAX s r.other := by
  have hself : (s.goto r ⟨i, pc⟩).threads r = ⟨i, pc⟩ := by rw [goto_threads, if_pos rfl]
  have hother : (s.goto r ⟨i, pc⟩).threads r.other = s.threads r.other := by
    rw [goto_threads, if_neg r.other_ne]
  unfold toDone Slot.pc
  dsimp only
  rw [hself, hother]
  exact ⟨rfl, rfl⟩

/-- The rule for a step of `r` to another place of the same iteration. -/
theorem toDone_move (pc : SlotPc) (owner : Option Role)
    (hpay : pc.toEnd (r.body.mustWait s.buffer) + 1 ≤ (s.pc r).toEnd (r.body.mustWait s.buffer)) :
    toDone MAX { s.goto r ⟨(s.threads r).i, pc⟩ with the_mutex := owner } r +
        toDone MAX { s.goto r ⟨(s.threads r).i, pc⟩ with the_mutex := owner } r.other + 1 ≤
      toDone MAX s r + toDone MAX s r.other := by
  obtain ⟨hself, hother⟩ := @toDone_goto MAX s r (s.threads r).i pc owner
  rw [hself, hother, @toDone_eq MAX s r _ rfl]
  omega

/-- The assignment of `r`: the other thread does not have to wait any more. -/
theorem toDone_access {b : ℕ} {t l : List ℕ} (hpc : s.pc r = .access)
    (hb : r.other.body.mustWait b = false) :
    toDone MAX { s.goto r ⟨(s.threads r).i, .signal⟩ with buffer := b, taken := t, lost := l } r +
        toDone MAX { s.goto r ⟨(s.threads r).i, .signal⟩ with buffer := b, taken := t, lost := l }
          r.other + 1 ≤
      toDone MAX s r + toDone MAX s r.other := by
  have hself : (s.goto r ⟨(s.threads r).i, .signal⟩).threads r = ⟨(s.threads r).i, .signal⟩ := by
    rw [goto_threads, if_pos rfl]
  have hother : (s.goto r ⟨(s.threads r).i, .signal⟩).threads r.other = s.threads r.other := by
    rw [goto_threads, if_neg r.other_ne]
  have hmono := (s.pc r.other).toEnd_mono (r.other.body.mustWait s.buffer)
  rw [toDone_eq hpc, @toDone_eq MAX s r.other _ rfl]
  unfold toDone pc
  dsimp only
  rw [hself, hother, hb]
  show 13 * (MAX + 1 - (s.threads r).i) + 2 + (_ + (s.pc r.other).toEnd false) + 1 ≤
    _ + 3 + (_ + (s.pc r.other).toEnd _)
  omega

/-- The signal of `r`: the other thread does not have to wait. -/
theorem toDone_signal (hawake : r.other.body.mustWait s.buffer = false) :
    toDone MAX (s.signal r.other) r = toDone MAX s r ∧
      toDone MAX (s.signal r.other) r.other ≤ toDone MAX s r.other := by
  unfold Slot.signal
  split_ifs with hpc
  · obtain ⟨hself, hother⟩ :=
      @toDone_goto MAX s r.other (s.threads r.other).i .relock s.the_mutex
    rw [Role.other_other] at hother
    refine ⟨hother, hself.le.trans ?_⟩
    rw [toDone_eq hpc, hawake]
    exact Nat.add_le_add_left (by decide) _
  · exact ⟨rfl, Nat.le_refl _⟩

theorem toDone_threadStep (h : s.Inv MAX) (hs : s.threadStep MAX r = some s') :
    toDone MAX s' r + toDone MAX s' r.other + 1 ≤ toDone MAX s r + toDone MAX s r.other := by
  have hknows := h.knows r
  have hloop := h.inLoop r
  unfold Slot.threadStep at hs
  unfold SlotThread.InLoop at hloop
  cases hpc : s.pc r with
  | loop =>
    simp only [hpc, Option.some.injEq] at hs
    subst hs
    apply toDone_move _ s.the_mutex
    rw [hpc]
    split_ifs <;> cases r.body.mustWait s.buffer <;> decide
  | lock | relock =>
    simp only [hpc, Option.ite_none_right_eq_some, Option.some.injEq] at hs
    obtain ⟨-, rfl⟩ := hs
    apply toDone_move
    rw [hpc]
    cases r.body.mustWait s.buffer <;> decide
  | test =>
    simp only [hpc, Option.some.injEq] at hs
    subst hs
    apply toDone_move _ s.the_mutex
    rw [hpc]
    cases r.body.mustWait s.buffer <;> decide
  | wait =>
    simp only [hpc, Option.some.injEq] at hs
    subst hs
    apply toDone_move
    rw [hpc]
    exact Nat.le_refl 9
  | waiting | done => simp only [hpc, reduceCtorEq] at hs
  | access =>
    have hpc' : (s.threads r).pc = .access := hpc
    rw [hpc'] at hloop
    have hawake : r.other.body.mustWait (r.body.access (s.threads r).i) = false := by
      cases r with
      | producer => exact beq_eq_false_iff_ne.mpr (Nat.ne_of_gt hloop.1)
      | consumer => rfl
    simp only [hpc, Option.some.injEq] at hs
    subst hs
    cases r <;> exact toDone_access hpc hawake
  | signal =>
    simp only [hpc, Option.some.injEq] at hs
    rw [hpc] at hknows
    obtain ⟨hself, hother⟩ := @toDone_signal MAX s r hknows
    have hpc' : (s.signal r.other).pc r = .signal :=
      (congrArg SlotThread.pc (signal_threads s r)).trans hpc
    rw [← hs, signal_goto, ← signal_threads s r]
    refine (@toDone_move MAX (s.signal r.other) r .unlock _ ?_).trans ?_
    · rw [hpc']
      exact Nat.le_refl 2
    · omega
  | unlock =>
    have hpc' : (s.threads r).pc = .unlock := hpc
    rw [hpc'] at hloop
    simp only [hpc, Option.some.injEq] at hs
    subst hs
    obtain ⟨hself, hother⟩ := @toDone_goto MAX s r ((s.threads r).i + 1) .loop none
    have hle : SlotPc.loop.toEnd (r.body.mustWait s.buffer) ≤ 12 := by
      cases r.body.mustWait s.buffer <;> decide
    rw [hself, hother, toDone_eq hpc]
    show _ ≤ 13 * (MAX + 1 - (s.threads r).i) + 1 + _
    dsimp only at hloop
    omega

/-- The steps before both threads are done. -/
def left (MAX : ℕ) (s : Slot) : ℕ := toDone MAX s .producer + toDone MAX s .consumer

/-- A step of a thread takes something away; a spurious wakeup costs three steps. -/
theorem left_step (h : s.Inv MAX) (hs : Slot.step MAX a s = some s') :
    left MAX s' + 1 ≤ left MAX s + 4 * a.isWakeup.toNat := by
  unfold left
  cases a with
  | thread r =>
    have hle := toDone_threadStep h hs
    rw [Role.add_other (toDone MAX s') r .producer, Role.add_other (toDone MAX s) r .producer] at hle
    exact hle
  | wakeup r =>
    simp only [Slot.step, wakeupStep, Option.ite_none_right_eq_some, Option.some.injEq] at hs
    obtain ⟨hpc, rfl⟩ := hs
    have hself : toDone MAX (s.goto r ⟨(s.threads r).i, .relock⟩) r = _ :=
      (toDone_goto s r (s.threads r).i .relock s.the_mutex).1
    have hother : toDone MAX (s.goto r ⟨(s.threads r).i, .relock⟩) r.other = _ :=
      (toDone_goto s r (s.threads r).i .relock s.the_mutex).2
    have hle : SlotPc.relock.toEnd (r.body.mustWait s.buffer) ≤ 11 := by
      cases r.body.mustWait s.buffer <;> decide
    have hpay : toDone MAX (s.goto r ⟨(s.threads r).i, .relock⟩) r +
        toDone MAX (s.goto r ⟨(s.threads r).i, .relock⟩) r.other + 1 ≤
          toDone MAX s r + toDone MAX s r.other + 4 := by
      rw [hself, hother, toDone_eq hpc]
      show _ ≤ 13 * (MAX + 1 - (s.threads r).i) + 8 + _ + 4
      omega
    rw [Role.add_other (toDone MAX (s.goto r _)) r .producer,
      Role.add_other (toDone MAX s) r .producer] at hpay
    exact hpay

/-- Whatever the schedule, a run of the two threads has `26 * MAX + 24` steps at most, and four more
    for every spurious wakeup; and when neither of them can go on, both are done and the consumer
    has taken the values up to `MAX`. -/
theorem one_slot_terminates (MAX : ℕ) (s : Slot) (as : List SlotAct)
    (hr : (oneSlot MAX).run as (oneSlot MAX).init = some s) :
    as.length ≤ 26 * MAX + 24 + 4 * as.countP SlotAct.isWakeup ∧
      ((∀ r, (oneSlot MAX).step (.thread r) s = none) →
        (∀ r, s.pc r = .done) ∧ s.taken = List.range' 1 MAX) := by
  have hinv := inv_of_reach (System.reach_of_run hr)
  constructor
  · have hlen : left MAX s + as.length ≤ left MAX (oneSlot MAX).init +
        4 * (oneSlot MAX).count (fun a _ => a.isWakeup) as (oneSlot MAX).init :=
      System.length_le_of_count (fun _ _ _ hinv hs => Inv.step hinv hs)
        (fun _ _ _ hinv hs => left_step hinv hs) (Inv.init MAX) hr
    have hinit : left MAX (oneSlot MAX).init = 13 * (MAX + 1 - 1) + 6 + (13 * (MAX + 1 - 1) + 12) :=
      rfl
    rw [System.count_eq_countP hr] at hlen
    omega
  · intro hstuck
    have hdone : ∀ r, s.pc r = .done := by
      intro r
      by_contra hr
      obtain ⟨t, s', hs⟩ := hinv.progress hr
      exact absurd (hstuck t) (by rw [show (oneSlot MAX).step (.thread t) s = some s' from hs]; exact nofun)
    have hloop := hinv.inLoop .consumer
    have hconsumed := hinv.consumed
    have hpc : (s.threads .consumer).pc = .done := hdone .consumer
    simp only [SlotThread.InLoop, SlotThread.accessed, hpc] at hloop hconsumed
    refine ⟨hdone, ?_⟩
    rw [hinv.taken, ← hconsumed, hloop, Nat.add_sub_cancel]

/-- The consumer waits, wakes up spuriously, waits again and is signalled. -/
theorem one_slot_terminates_run : ∃ s, (oneSlot 1).run oneValue (oneSlot 1).init = some s ∧
    oneValue.length ≤ 26 * 1 + 24 + 4 * oneValue.countP SlotAct.isWakeup :=
  ⟨_, rfl, (one_slot_terminates 1 _ oneValue rfl).1⟩

end Slot

end IntroOS.Preparation
