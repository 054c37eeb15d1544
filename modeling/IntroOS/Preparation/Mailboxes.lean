import IntroOS.Concurrency.System

/-!
# Producer and consumer with messages

Model of `Preparation/information.c`. Each of the two processes has a mailbox of the messages that
the other one has sent and it has not yet received.

* `receive` blocks while the mailbox is empty; each call of a function is one step.
* `build_message` and `extract_item` are not in the source: a `Format` says that an item can be
  extracted from the message that was built with it.
* The messages that the consumer sends first are variables without a value.

Main results:

* `Mailboxes.Inv.step`: what every step keeps.
* `mailboxes_correct`: there are `N` messages, the items arrive in order, and some process can go
  on.
-/

namespace IntroOS.Preparation

open Concurrency

/-! ## The model -/

/-- What messages are. -/
structure Format (μ : Type*) where
  build_message : μ → ℤ → μ
  extract_item : μ → ℤ
  extract_build : ∀ m item, extract_item (build_message m item) = item

/-- What the producer does next. -/
inductive MailProducerPc
  /-- `produce_item()` (line 11) -/
  | produce
  /-- `receive(consumer,&m)` (line 12) -/
  | receive
  /-- `build_message(&m,item)` (line 13) -/
  | build
  /-- `send(consumer,&m)` (line 14) -/
  | send
  deriving DecidableEq, Repr

/-- What the consumer does next. -/
inductive MailConsumerPc
  /-- the test of the first loop, and `send(producer,&m)` (line 23) -/
  | prime
  /-- `receive(producer,&m)` (line 26) -/
  | receive
  /-- `extract_item(&m)` (line 27) -/
  | extract
  /-- `send(producer,&m)` (line 28) -/
  | send
  /-- `consume_item(item)` (line 29) -/
  | consume
  deriving DecidableEq, Repr

/-- The variables of `producer` (lines 4–16). -/
structure MailProducer (μ : Type*) where
  pc : MailProducerPc
  item : ℤ
  m : μ

/-- The variables of `consumer` (lines 18–31). -/
structure MailConsumer (μ : Type*) where
  pc : MailConsumerPc
  item : ℤ
  i : ℕ
  m : μ

/-- The state of the two processes. The items that `produce_item` has returned and those that
    `consume_item` was called with are recorded. -/
structure Mailboxes (μ : Type*) where
  toProducer : List μ
  toConsumer : List μ
  producer : MailProducer μ
  consumer : MailConsumer μ
  produced : List ℤ
  consumed : List ℤ

/-- A step of a process; `produced` is what `produce_item` returns if the step calls it. -/
inductive MailAct
  | producer (produced : ℤ)
  | consumer

namespace Mailboxes

variable {μ : Type*}

def producerStep (fmt : Format μ) (produced : ℤ) (s : Mailboxes μ) : Option (Mailboxes μ) :=
  let p := s.producer
  match p.pc with
  | .produce =>
    some { s with
      producer := { p with pc := .receive, item := produced }
      produced := s.produced ++ [produced] }
  | .receive =>
    match s.toProducer with
    | [] => none
    | m :: rest => some { s with producer := { p with pc := .build, m := m }, toProducer := rest }
  | .build =>
    some { s with producer := { p with pc := .send, m := fmt.build_message p.m p.item } }
  | .send =>
    some { s with producer := { p with pc := .produce }, toConsumer := s.toConsumer ++ [p.m] }

def consumerStep (N : ℕ) (fmt : Format μ) (s : Mailboxes μ) : Option (Mailboxes μ) :=
  let c := s.consumer
  match c.pc with
  | .prime =>
    if c.i < N then
      some { s with consumer := { c with i := c.i + 1 }, toProducer := s.toProducer ++ [c.m] }
    else some { s with consumer := { c with pc := .receive } }
  | .receive =>
    match s.toConsumer with
    | [] => none
    | m :: rest => some { s with consumer := { c with pc := .extract, m := m }, toConsumer := rest }
  | .extract => some { s with consumer := { c with pc := .send, item := fmt.extract_item c.m } }
  | .send =>
    some { s with consumer := { c with pc := .consume }, toProducer := s.toProducer ++ [c.m] }
  | .consume =>
    some { s with consumer := { c with pc := .receive }, consumed := s.consumed ++ [c.item] }

def step (N : ℕ) (fmt : Format μ) : MailAct → Mailboxes μ → Option (Mailboxes μ)
  | .producer produced => producerStep fmt produced
  | .consumer => consumerStep N fmt

end Mailboxes

/-- The two processes, with the values that the variables `m` happen to have. -/
def mailboxes {μ : Type*} (N : ℕ) (fmt : Format μ) (m₀ m₁ : μ) : System (Mailboxes μ) MailAct where
  init := ⟨[], [], ⟨.produce, 0, m₀⟩, ⟨.prime, 0, 0, m₁⟩, [], []⟩
  step := Mailboxes.step N fmt

/-! ## What the processes hold -/

section Held

variable {μ : Type*} (fmt : Format μ)

/-- The messages that the producer has received and not yet sent. -/
def MailProducer.held (p : MailProducer μ) : ℕ :=
  match p.pc with
  | .build | .send => 1
  | _ => 0

/-- The messages that the consumer has received and not yet sent. -/
def MailConsumer.held (c : MailConsumer μ) : ℕ :=
  match c.pc with
  | .extract | .send => 1
  | _ => 0

/-- The messages that the consumer has still to send in its first loop. -/
def MailConsumer.unsent (N : ℕ) (c : MailConsumer μ) : ℕ :=
  match c.pc with
  | .prime => N - c.i
  | _ => 0

/-- The items that the producer has not yet sent. -/
def MailProducer.pending (p : MailProducer μ) : List ℤ :=
  match p.pc with
  | .produce => []
  | _ => [p.item]

/-- The items that the consumer has received and not yet consumed. -/
def MailConsumer.pending (c : MailConsumer μ) : List ℤ :=
  match c.pc with
  | .extract => [fmt.extract_item c.m]
  | .send | .consume => [c.item]
  | _ => []

end Held

/-- The messages in the mailboxes, in the processes and still to be sent. -/
def Mailboxes.messages {μ : Type*} (N : ℕ) (s : Mailboxes μ) : ℕ :=
  s.toProducer.length + s.toConsumer.length + s.producer.held + s.consumer.held +
    s.consumer.unsent N

/-- What holds in a state. -/
structure MailCorrect {μ : Type*} (N : ℕ) (fmt : Format μ) (m₀ m₁ : μ) (s : Mailboxes μ) :
    Prop where
  messages : s.messages N = N
  toProducer : s.toProducer.length ≤ N
  toConsumer : s.toConsumer.length ≤ N
  order : s.consumed <+: s.produced
  progress : ∃ a s', (mailboxes N fmt m₀ m₁).step a s = some s'

namespace Mailboxes

variable {μ : Type*} {N : ℕ} {fmt : Format μ} {m₀ m₁ : μ} {s s' : Mailboxes μ} {a : MailAct}

/-- What every step keeps: the number of messages, and where each item is that has been produced. -/
structure Inv (N : ℕ) (fmt : Format μ) (s : Mailboxes μ) : Prop where
  messages : s.messages N = N
  items : s.produced = s.consumed ++ s.consumer.pending fmt ++
    s.toConsumer.map fmt.extract_item ++ s.producer.pending
  built : s.producer.pc = .send → fmt.extract_item s.producer.m = s.producer.item

theorem Inv.producerStep {x : ℤ} (h : s.Inv N fmt) (hs : s.producerStep fmt x = some s') :
    s'.Inv N fmt := by
  obtain ⟨toProducer, toConsumer, ⟨pc, item, m⟩, c, produced, consumed⟩ := s
  obtain ⟨hmessages, hitems, hbuilt⟩ := h
  unfold Mailboxes.producerStep at hs
  cases pc with
  | produce =>
    cases hs
    refine ⟨hmessages, ?_, nofun⟩
    have hitems' : produced =
        consumed ++ c.pending fmt ++ toConsumer.map fmt.extract_item ++ [] := hitems
    show produced ++ [x] = _ ++ [x]
    rw [hitems', List.append_nil]
  | receive =>
    cases toProducer with
    | nil => cases hs
    | cons m' rest =>
      cases hs
      refine ⟨?_, hitems, nofun⟩
      have hmessages' : rest.length + 1 + toConsumer.length + 0 + c.held + c.unsent N = N :=
        hmessages
      show rest.length + toConsumer.length + 1 + c.held + c.unsent N = N
      omega
  | build =>
    cases hs
    exact ⟨hmessages, hitems, fun _ => fmt.extract_build m item⟩
  | send =>
    cases hs
    refine ⟨?_, ?_, nofun⟩
    · have hmessages' : toProducer.length + toConsumer.length + 1 + c.held + c.unsent N = N :=
        hmessages
      show toProducer.length + (toConsumer ++ [m]).length + 0 + c.held + c.unsent N = N
      rw [List.length_append, List.length_singleton]
      omega
    · have hitems' : produced =
          consumed ++ c.pending fmt ++ toConsumer.map fmt.extract_item ++ [item] := hitems
      have hm : fmt.extract_item m = item := hbuilt rfl
      show produced = consumed ++ c.pending fmt ++ (toConsumer ++ [m]).map fmt.extract_item ++ []
      rw [hitems', List.map_append, List.map_singleton, hm, List.append_nil, List.append_assoc]

theorem Inv.consumerStep (h : s.Inv N fmt) (hs : s.consumerStep N fmt = some s') :
    s'.Inv N fmt := by
  obtain ⟨toProducer, toConsumer, p, ⟨pc, item, i, m⟩, produced, consumed⟩ := s
  obtain ⟨hmessages, hitems, hbuilt⟩ := h
  unfold Mailboxes.consumerStep at hs
  cases pc with
  | prime =>
    have hmessages' : toProducer.length + toConsumer.length + p.held + 0 + (N - i) = N := hmessages
    dsimp only at hs
    split_ifs at hs with hi
    · cases hs
      refine ⟨?_, hitems, hbuilt⟩
      show (toProducer ++ [m]).length + toConsumer.length + p.held + 0 + (N - (i + 1)) = N
      rw [List.length_append, List.length_singleton]
      omega
    · cases hs
      refine ⟨?_, hitems, hbuilt⟩
      show toProducer.length + toConsumer.length + p.held + 0 + 0 = N
      omega
  | receive =>
    cases toConsumer with
    | nil => cases hs
    | cons m' rest =>
      cases hs
      refine ⟨?_, ?_, hbuilt⟩
      · have hmessages' : toProducer.length + (rest.length + 1) + p.held + 0 + 0 = N := hmessages
        show toProducer.length + rest.length + p.held + 1 + 0 = N
        omega
      · have hitems' : produced =
            consumed ++ [] ++ (m' :: rest).map fmt.extract_item ++ p.pending := hitems
        show produced =
          consumed ++ [fmt.extract_item m'] ++ rest.map fmt.extract_item ++ p.pending
        rw [hitems', List.append_nil, List.map_cons, List.append_cons consumed]
  | extract =>
    cases hs
    exact ⟨hmessages, hitems, hbuilt⟩
  | send =>
    cases hs
    refine ⟨?_, hitems, hbuilt⟩
    have hmessages' : toProducer.length + toConsumer.length + p.held + 1 + 0 = N := hmessages
    show (toProducer ++ [m]).length + toConsumer.length + p.held + 0 + 0 = N
    rw [List.length_append, List.length_singleton]
    omega
  | consume =>
    cases hs
    refine ⟨hmessages, ?_, hbuilt⟩
    show produced = consumed ++ [item] ++ [] ++ toConsumer.map fmt.extract_item ++ p.pending
    rw [List.append_nil]
    exact hitems

theorem Inv.step (h : s.Inv N fmt) (hs : Mailboxes.step N fmt a s = some s') : s'.Inv N fmt := by
  cases a with
  | producer x => exact h.producerStep hs
  | consumer => exact h.consumerStep hs

theorem Inv.init (N : ℕ) (fmt : Format μ) (m₀ m₁ : μ) : Inv N fmt (mailboxes N fmt m₀ m₁).init where
  messages := Nat.zero_add N
  items := rfl
  built := nofun

theorem inv_of_reach (h : (mailboxes N fmt m₀ m₁).Reach System.anyStep s) : s.Inv N fmt :=
  System.Reach.invariant (Inv.init N fmt m₀ m₁) (fun _ _ _ hinv _ hs => hinv.step hs) h

/-! ## Some process can go on -/

/-- A blocked producer waits at its empty mailbox. -/
theorem producerStep_or (fmt : Format μ) (x : ℤ) (s : Mailboxes μ) :
    (∃ s', s.producerStep fmt x = some s') ∨ s.producer.held = 0 ∧ s.toProducer = [] := by
  obtain ⟨toProducer, toConsumer, ⟨pc, item, m⟩, c, produced, consumed⟩ := s
  cases pc with
  | receive =>
    cases toProducer with
    | nil => exact .inr ⟨rfl, rfl⟩
    | cons m' rest => exact .inl ⟨_, rfl⟩
  | produce | build | send => exact .inl ⟨_, rfl⟩

/-- A blocked consumer waits at its empty mailbox and has sent all its first messages. -/
theorem consumerStep_or (N : ℕ) (fmt : Format μ) (s : Mailboxes μ) :
    (∃ s', s.consumerStep N fmt = some s') ∨
      s.consumer.held = 0 ∧ s.consumer.unsent N = 0 ∧ s.toConsumer = [] := by
  obtain ⟨toProducer, toConsumer, p, ⟨pc, item, i, m⟩, produced, consumed⟩ := s
  cases pc with
  | prime =>
    by_cases hi : i < N
    · exact .inl ⟨_, if_pos hi⟩
    · exact .inl ⟨_, if_neg hi⟩
  | receive =>
    cases toConsumer with
    | nil => exact .inr ⟨rfl, rfl, rfl⟩
    | cons m' rest => exact .inl ⟨_, rfl⟩
  | extract | send | consume => exact .inl ⟨_, rfl⟩

theorem Inv.progress (h : s.Inv N fmt) (hN : 1 ≤ N) :
    ∃ a s', Mailboxes.step N fmt a s = some s' := by
  obtain ⟨s', hs⟩ | ⟨hp, htoProducer⟩ := producerStep_or fmt 0 s
  · exact ⟨.producer 0, s', hs⟩
  obtain ⟨s', hs⟩ | ⟨hc, hunsent, htoConsumer⟩ := consumerStep_or N fmt s
  · exact ⟨.consumer, s', hs⟩
  -- both mailboxes are empty and nobody has a message
  have hmessages := h.messages
  simp only [Mailboxes.messages, hp, htoProducer, hc, hunsent, htoConsumer, List.length_nil]
    at hmessages
  omega

theorem mailboxes_correct (N : ℕ) (hN : 1 ≤ N) (fmt : Format μ) (m₀ m₁ : μ) (s : Mailboxes μ)
    (h : (mailboxes N fmt m₀ m₁).Reach System.anyStep s) : MailCorrect N fmt m₀ m₁ s where
  messages := (inv_of_reach h).messages
  toProducer := by
    have hmessages := (inv_of_reach h).messages
    unfold messages at hmessages
    omega
  toConsumer := by
    have hmessages := (inv_of_reach h).messages
    unfold messages at hmessages
    omega
  order := by
    rw [(inv_of_reach h).items, List.append_assoc, List.append_assoc]
    exact List.prefix_append ..
  progress := (inv_of_reach h).progress hN

/-- A message is an integer. -/
def intFormat : Format ℤ where
  build_message _ item := item
  extract_item m := m
  extract_build _ _ := rfl

/-- The consumer sends its first message, and consumes the first of two items. -/
def oneMessage : List MailAct :=
  [.producer 7, .consumer, .producer 0, .producer 0, .producer 0, .producer 8,
    .consumer, .consumer, .consumer, .consumer, .consumer]

theorem mailboxes_correct_run :
    ∃ s, (mailboxes 1 intFormat 0 0).run oneMessage (mailboxes 1 intFormat 0 0).init = some s ∧
      s.consumed = [7] ∧ s.produced = [7, 8] ∧ MailCorrect 1 intFormat 0 0 s :=
  ⟨_, rfl, rfl, rfl, mailboxes_correct 1 (Nat.le_refl 1) intFormat 0 0 _
    (@System.reach_of_run _ _ _ oneMessage _ rfl)⟩

end Mailboxes

end IntroOS.Preparation
