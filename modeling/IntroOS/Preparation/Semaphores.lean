import IntroOS.Concurrency.Lock
import IntroOS.Preparation.Role

/-!
# A buffer guarded by semaphores

Model of `Preparation/mutex-pro-con.c`, with any number of processes that run `producer` or
`consumer`.

* `down` blocks while the semaphore is 0; `down`, `up` and each call of another function is one
  step.
* `insert_item` and `remove_item` are not in the source: a `Buffer N` says what they do to the
  number of items, for as long as they are called with a free slot and with an item.

Main results:

* `Semaphores.Inv.step`: what every step keeps.
* `semaphores_correct`: mutual exclusion, the bounds of the buffer, the count of the semaphores,
  and that not all processes are blocked.
-/

namespace IntroOS.Preparation

open Concurrency

/-! ## The model -/

/-- The buffer with `N` slots. -/
structure Buffer (N : ℕ) (β : Type*) where
  new : β
  insert_item : ℤ → β → β
  remove_item : β → ℤ × β
  /-- the number of items -/
  items : β → ℕ
  items_new : items new = 0
  items_insert : ∀ item b, items b < N → items (insert_item item b) = items b + 1
  items_remove : ∀ b, 0 < items b → items (remove_item b).2 + 1 = items b

inductive Semaphore
  | mutex
  | empty
  | full
  deriving DecidableEq, Repr

/-- What the two functions of `mutex-pro-con.c` do differently around the buffer. -/
structure SemBody where
  /-- the semaphore of the first `down` (lines 14 and 28) -/
  first : Semaphore
  /-- the semaphore of the last `up` (lines 18 and 32) -/
  last : Semaphore

/-- `producer` (lines 7–20). -/
def producerSems : SemBody := ⟨.empty, .full⟩

/-- `consumer` (lines 22–35). -/
def consumerSems : SemBody := ⟨.full, .empty⟩

def Role.sems : Role → SemBody
  | .producer => producerSems
  | .consumer => consumerSems

/-- What a process does next. -/
inductive SemPc
  /-- `produce_item()` (line 13) or `consume_item(item)` (line 33) -/
  | own
  /-- `down(&empty)` (line 14) or `down(&full)` (line 28) -/
  | down
  /-- `down(&mutex)` (lines 15 and 29) -/
  | downMutex
  /-- `insert_item(item)` (line 16) or `remove_item()` (line 30) -/
  | call
  /-- `up(&mutex)` (lines 17 and 31) -/
  | upMutex
  /-- `up(&full)` (line 18) or `up(&empty)` (line 32) -/
  | up
  deriving DecidableEq, Repr

/-- A process: the function that it runs and its variable. -/
structure SemProcess where
  role : Role
  pc : SemPc
  item : ℤ

/-- The state of all processes `ι`. -/
structure Semaphores (β ι : Type*) where
  value : Semaphore → ℕ
  buffer : β
  processes : ι → SemProcess

/-- A step of process `i`; `produced` is what `produce_item` returns if the step calls it. -/
structure SemAct (ι : Type*) where
  i : ι
  produced : ℤ

namespace Semaphores

variable {β ι : Type*} [DecidableEq ι] {N : ℕ}

def goto (s : Semaphores β ι) (i : ι) (p : SemProcess) : Semaphores β ι :=
  { s with processes := Function.update s.processes i p }

def down (x : Semaphore) (s : Semaphores β ι) : Option (Semaphores β ι) :=
  if 0 < s.value x then some { s with value := Function.update s.value x (s.value x - 1) }
  else none

def up (x : Semaphore) (s : Semaphores β ι) : Semaphores β ι :=
  { s with value := Function.update s.value x (s.value x + 1) }

/-- `insert_item(item)` or `item = remove_item()`. -/
def call (B : Buffer N β) (i : ι) (p : SemProcess) (s : Semaphores β ι) : Semaphores β ι :=
  match p.role with
  | .producer => { s.goto i { p with pc := .upMutex } with buffer := B.insert_item p.item s.buffer }
  | .consumer =>
    { s.goto i { p with pc := .upMutex, item := (B.remove_item s.buffer).1 } with
      buffer := (B.remove_item s.buffer).2 }

def step (B : Buffer N β) (a : SemAct ι) (s : Semaphores β ι) : Option (Semaphores β ι) :=
  let p := s.processes a.i
  match p.pc with
  | .own =>
    let item := match p.role with
      | .producer => a.produced
      | .consumer => p.item
    some (s.goto a.i { p with pc := .down, item := item })
  | .down => (s.goto a.i { p with pc := .downMutex }).down p.role.sems.first
  | .downMutex => (s.goto a.i { p with pc := .call }).down .mutex
  | .call => some (s.call B a.i p)
  | .upMutex => some ((s.goto a.i { p with pc := .up }).up .mutex)
  | .up => some ((s.goto a.i { p with pc := .own }).up p.role.sems.last)

end Semaphores

/-- A process at the start of its function. -/
def SemProcess.start (role : Role) : SemProcess :=
  match role with
  | .producer => ⟨role, .own, 0⟩
  | .consumer => ⟨role, .down, 0⟩

/-- Processes `ι`, each of which runs the function that `role` names. -/
def semaphores {β ι : Type*} [DecidableEq ι] {N : ℕ} (B : Buffer N β) (role : ι → Role) :
    System (Semaphores β ι) (SemAct ι) where
  init :=
    { value := fun
        | .mutex => 1
        | .empty => N
        | .full => 0
      buffer := B.new
      processes := fun i => SemProcess.start (role i) }
  step := Semaphores.step B

/-- Between `down(&mutex)` and `up(&mutex)`. -/
def SemPc.InMutex : SemPc → Prop
  | call | upMutex => True
  | _ => False

/-- Between the first `down` and the last `up` of the loop. -/
def SemPc.Between : SemPc → Prop
  | downMutex | call | upMutex | up => True
  | _ => False

instance : DecidablePred SemPc.Between := fun pc => by
  cases pc <;> unfold SemPc.Between <;> infer_instance

/-- What holds in a state of the processes. -/
structure SemCorrect {β ι : Type*} [Fintype ι] [DecidableEq ι] {N : ℕ} (B : Buffer N β)
    (role : ι → Role) (s : Semaphores β ι) : Prop where
  exclusive : ∀ i j, (s.processes i).pc.InMutex → (s.processes j).pc.InMutex → i = j
  items : B.items s.buffer ≤ N
  insert : ∀ i, role i = .producer → (s.processes i).pc = .call → B.items s.buffer < N
  remove : ∀ i, role i = .consumer → (s.processes i).pc = .call → 0 < B.items s.buffer
  tokens : s.value .empty + s.value .full +
    (Finset.univ.filter fun i => role i = .producer ∧ (s.processes i).pc.Between).card +
    (Finset.univ.filter fun i => role i = .consumer ∧ (s.processes i).pc.Between).card = N
  progress : ∃ a s', (semaphores B role).step a s = some s'

/-! ## What the processes hold -/

namespace SemProcess

/-- What it holds of `mutex`. -/
def critical (p : SemProcess) : ℕ :=
  match p.pc with
  | .call | .upMutex => 1
  | _ => 0

/-- What it holds of `empty` and `full` together. -/
def tokens (p : SemProcess) : ℕ :=
  match p.pc with
  | .downMutex | .call | .upMutex | .up => 1
  | _ => 0

/-- The slots of the buffer that it has claimed before it inserts, or freed by a removal but not
    yet given back. -/
def slots (p : SemProcess) : ℕ :=
  match p.role, p.pc with
  | .producer, .downMutex | .producer, .call | .consumer, .upMutex | .consumer, .up => 1
  | _, _ => 0

/-- The items that it has inserted but not yet announced, or claimed before it removes. -/
def held (p : SemProcess) : ℕ :=
  match p.role, p.pc with
  | .consumer, .downMutex | .consumer, .call | .producer, .upMutex | .producer, .up => 1
  | _, _ => 0

theorem tokens_eq (p : SemProcess) : p.tokens = p.slots + p.held := by
  obtain ⟨role, pc, item⟩ := p
  cases role <;> cases pc <;> rfl

end SemProcess

theorem SemPc.InMutex.critical {p : SemProcess} (h : p.pc.InMutex) : 0 < p.critical := by
  obtain ⟨role, pc, item⟩ := p
  cases pc with
  | call | upMutex => exact Nat.one_pos
  | own | down | downMutex | up => exact h.elim

namespace Semaphores

variable {β ι : Type*} {s s' : Semaphores β ι}

theorem down_spec {x : Semaphore} (hs : s.down x = some s') :
    s'.value x + 1 = s.value x ∧ (∀ y ≠ x, s'.value y = s.value y) ∧ s'.buffer = s.buffer ∧
      s'.processes = s.processes := by
  simp only [down, Option.ite_none_right_eq_some, Option.some.injEq] at hs
  obtain ⟨hpos, rfl⟩ := hs
  refine ⟨?_, fun y hy => Function.update_of_ne hy .., rfl, rfl⟩
  show Function.update s.value x (s.value x - 1) x + 1 = _
  rw [Function.update_self]
  omega

theorem up_value (x y : Semaphore) (s : Semaphores β ι) :
    (s.up x).value y = if y = x then s.value x + 1 else s.value y := Function.update_apply ..

variable [Fintype ι] {N : ℕ} {B : Buffer N β} {role : ι → Role} {a : SemAct ι} {i : ι}

/-- What every step keeps: the three counts. -/
structure Inv (B : Buffer N β) (role : ι → Role) (s : Semaphores β ι) : Prop where
  role : ∀ i, (s.processes i).role = role i
  mutex : Conserved SemProcess.critical 1 (s.value .mutex) s.processes
  tokens : Conserved SemProcess.tokens N (s.value .empty + s.value .full) s.processes
  slots : Conserved SemProcess.slots N (s.value .empty + B.items s.buffer) s.processes

/-- A free item is announced by `full`, or some process holds it. -/
theorem Inv.held (h : s.Inv B role) :
    Conserved SemProcess.held (B.items s.buffer) (s.value .full) s.processes := by
  have htokens := h.tokens
  have hslots := h.slots
  have hsum : ∑ i, (s.processes i).tokens =
      ∑ i, (s.processes i).slots + ∑ i, (s.processes i).held := by
    rw [← Finset.sum_add_distrib]
    exact Finset.sum_congr rfl fun i _ => (s.processes i).tokens_eq
  unfold Conserved at *
  omega

theorem Inv.sum_tokens (h : s.Inv B role) :
    (Finset.univ.filter fun i => role i = .producer ∧ (s.processes i).pc.Between).card +
      (Finset.univ.filter fun i => role i = .consumer ∧ (s.processes i).pc.Between).card =
      ∑ i, (s.processes i).tokens := by
  rw [Finset.card_filter, Finset.card_filter, ← Finset.sum_add_distrib]
  refine Finset.sum_congr rfl fun i _ => ?_
  rw [← h.role i]
  generalize s.processes i = p
  obtain ⟨r, pc, item⟩ := p
  cases r <;> cases pc <;> rfl

/-- A producer that inserts has claimed a slot. -/
theorem Inv.insert (h : s.Inv B role) (hrole : (s.processes i).role = .producer)
    (hpc : (s.processes i).pc = .call) : B.items s.buffer < N := by
  have hle := h.slots.le i
  simp only [SemProcess.slots, hrole, hpc] at hle
  omega

/-- A consumer that removes has claimed an item. -/
theorem Inv.remove (h : s.Inv B role) (hrole : (s.processes i).role = .consumer)
    (hpc : (s.processes i).pc = .call) : 0 < B.items s.buffer := by
  have hle := h.held.le i
  simp only [SemProcess.held, hrole, hpc] at hle
  omega

/-! ## Every step -/

variable [DecidableEq ι]

/-- The rule for a step of process `i`: what it takes from the counters it holds afterwards. -/
theorem Inv.move (h : s.Inv B role) {p : SemProcess}
    (hprocesses : s'.processes = Function.update s.processes i p)
    (hrole : p.role = (s.processes i).role)
    (hmutex : s'.value .mutex + p.critical = s.value .mutex + (s.processes i).critical)
    (htokens : s'.value .empty + s'.value .full + p.tokens =
      s.value .empty + s.value .full + (s.processes i).tokens)
    (hslots : s'.value .empty + B.items s'.buffer + p.slots =
      s.value .empty + B.items s.buffer + (s.processes i).slots) : s'.Inv B role where
  role := fun j => by
    rw [hprocesses, Function.update_apply, ← h.role j]
    split_ifs with hj
    · rw [hj, hrole]
    · rfl
  mutex := by rw [hprocesses]; exact h.mutex.update hmutex
  tokens := by rw [hprocesses]; exact h.tokens.update htokens
  slots := by rw [hprocesses]; exact h.slots.update hslots

theorem Inv.step (h : s.Inv B role) (hs : Semaphores.step B a s = some s') : s'.Inv B role := by
  have hinsert := @Inv.insert β ι s _ N B role a.i h
  have hremove := @Inv.remove β ι s _ N B role a.i h
  unfold Semaphores.step at hs
  generalize hp : s.processes a.i = p at *
  obtain ⟨r, pc, item⟩ := p
  cases pc with
  | own =>
    cases hs
    exact h.move rfl (by rw [hp]) (by rw [hp]; rfl) (by rw [hp]; rfl)
      (by rw [hp]; cases r <;> rfl)
  | down =>
    obtain ⟨hfirst, hrest, hbuffer, hprocesses⟩ := down_spec hs
    have hmutex : s'.value .mutex = s.value .mutex := hrest .mutex (by cases r <;> exact nofun)
    have hbuffer' : s'.buffer = s.buffer := hbuffer
    refine h.move hprocesses (by rw [hp]) (by rw [hp, hmutex]; rfl) ?_ ?_ <;> rw [hp] <;> cases r
    · have hempty : s'.value .empty + 1 = s.value .empty := hfirst
      have hfull : s'.value .full = s.value .full := hrest .full nofun
      show s'.value .empty + s'.value .full + 1 = s.value .empty + s.value .full
      omega
    · have hfull : s'.value .full + 1 = s.value .full := hfirst
      have hempty : s'.value .empty = s.value .empty := hrest .empty nofun
      show s'.value .empty + s'.value .full + 1 = s.value .empty + s.value .full
      omega
    · have hempty : s'.value .empty + 1 = s.value .empty := hfirst
      show s'.value .empty + B.items s'.buffer + 1 = s.value .empty + B.items s.buffer
      rw [hbuffer']
      omega
    · have hempty : s'.value .empty = s.value .empty := hrest .empty nofun
      show s'.value .empty + B.items s'.buffer = s.value .empty + B.items s.buffer
      rw [hempty, hbuffer']
  | downMutex =>
    obtain ⟨hmutex, hrest, hbuffer, hprocesses⟩ := down_spec hs
    have hempty : s'.value .empty = s.value .empty := hrest .empty nofun
    have hfull : s'.value .full = s.value .full := hrest .full nofun
    have hbuffer' : s'.buffer = s.buffer := hbuffer
    apply h.move hprocesses (by rw [hp]) (by rw [hp]; exact hmutex)
    · rw [hp, hempty, hfull]
      rfl
    · rw [hp, hempty, hbuffer']
      cases r <;> rfl
  | call =>
    cases hs
    cases r with
    | producer =>
      have hitems := B.items_insert item s.buffer (hinsert rfl rfl)
      apply h.move rfl (by rw [hp]) (by rw [hp]; rfl) (by rw [hp]; rfl)
      rw [hp]
      show s.value .empty + B.items (B.insert_item item s.buffer) =
        s.value .empty + B.items s.buffer + 1
      omega
    | consumer =>
      have hitems := B.items_remove s.buffer (hremove rfl rfl)
      apply h.move rfl (by rw [hp]) (by rw [hp]; rfl) (by rw [hp]; rfl)
      rw [hp]
      show s.value .empty + B.items (B.remove_item s.buffer).2 + 1 =
        s.value .empty + B.items s.buffer
      omega
  | upMutex =>
    cases hs
    refine h.move rfl (by rw [hp]) ?_ ?_ ?_ <;> rw [hp] <;> simp only [up_value]
    · rfl
    · rfl
    · cases r <;> rfl
  | up =>
    cases hs
    refine h.move rfl (by rw [hp]) ?_ ?_ ?_ <;> rw [hp] <;> cases r <;> simp only [up_value]
    · rfl
    · rfl
    · show s.value .empty + (s.value .full + 1) = s.value .empty + s.value .full + 1
      rw [Nat.add_assoc]
    · show s.value .empty + 1 + s.value .full = s.value .empty + s.value .full + 1
      rw [Nat.add_right_comm]
    · rfl
    · show s.value .empty + 1 + B.items s.buffer = s.value .empty + B.items s.buffer + 1
      rw [Nat.add_right_comm]

theorem Inv.init (B : Buffer N β) (role : ι → Role) : Inv B role (semaphores B role).init where
  role := fun i => by
    show (SemProcess.start (role i)).role = role i
    cases role i <;> rfl
  mutex := Conserved.of_forall fun i => by
    show (SemProcess.start (role i)).critical = 0
    cases role i <;> rfl
  tokens := Conserved.of_forall fun i => by
    show (SemProcess.start (role i)).tokens = 0
    cases role i <;> rfl
  slots := by
    show Conserved _ N (N + B.items B.new) _
    rw [B.items_new]
    refine Conserved.of_forall fun i => ?_
    show (SemProcess.start (role i)).slots = 0
    cases role i <;> rfl

theorem inv_of_reach (h : (semaphores B role).Reach System.anyStep s) : s.Inv B role :=
  System.Reach.invariant (Inv.init B role) (fun _ _ _ hinv _ hs => hinv.step hs) h

/-! ## Not all processes are blocked -/

omit [Fintype ι] in
theorem step_down_of_pos {i : ι} (B : Buffer N β) (hpc : (s.processes i).pc = .down)
    (hpos : 0 < s.value (s.processes i).role.sems.first) :
    ∃ s', Semaphores.step B ⟨i, 0⟩ s = some s' := by
  unfold Semaphores.step
  simp only [hpc]
  exact ⟨_, if_pos hpos⟩

omit [Fintype ι] in
/-- A process that is not at its first `down` goes on if it is inside `mutex` or `mutex` is free. -/
theorem step_of_ne_down {i : ι} (B : Buffer N β) (hpc : (s.processes i).pc ≠ .down)
    (hmutex : 0 < (s.processes i).critical ∨ 0 < s.value .mutex) :
    ∃ s', Semaphores.step B ⟨i, 0⟩ s = some s' := by
  unfold Semaphores.step
  generalize hp : s.processes i = p at *
  obtain ⟨r, pc, item⟩ := p
  dsimp only
  cases pc with
  | down => exact absurd rfl hpc
  | downMutex => exact ⟨_, if_pos (hmutex.resolve_left (Nat.lt_irrefl 0))⟩
  | own | call | upMutex | up => exact ⟨_, rfl⟩

theorem Inv.progress (h : s.Inv B role) (hN : 1 ≤ N) (hp : ∃ i, role i = .producer)
    (hc : ∃ i, role i = .consumer) : ∃ i s', Semaphores.step B ⟨i, 0⟩ s = some s' := by
  by_cases hmutex : 0 < s.value .mutex
  · by_cases hall : ∀ i, (s.processes i).pc = .down
    -- all processes wait for `empty` or `full`, and one of these is not 0
    · have hsum : s.value .empty + s.value .full = N :=
        h.tokens.eq_of_forall fun i => by simp only [SemProcess.tokens, hall i]
      have hone : 0 < s.value .empty ∨ 0 < s.value .full := by omega
      obtain hempty | hfull := hone
      · obtain ⟨i, hi⟩ := hp
        exact ⟨i, step_down_of_pos B (hall i) (by rw [h.role i, hi]; exact hempty)⟩
      · obtain ⟨i, hi⟩ := hc
        exact ⟨i, step_down_of_pos B (hall i) (by rw [h.role i, hi]; exact hfull)⟩
    · push Not at hall
      obtain ⟨i, hi⟩ := hall
      exact ⟨i, step_of_ne_down B hi (.inr hmutex)⟩
  -- the process inside `mutex` goes on
  · obtain ⟨i, hi⟩ := h.mutex.exists_holds (by omega)
    refine ⟨i, step_of_ne_down B (fun hpc => ?_) (.inl hi)⟩
    simp only [SemProcess.critical, hpc, Nat.lt_irrefl] at hi

/-- `1 ≤ N`, and at least one process runs each of the two functions. -/
theorem semaphores_correct (B : Buffer N β) (role : ι → Role) (hN : 1 ≤ N)
    (hp : ∃ i, role i = .producer) (hc : ∃ i, role i = .consumer) (s : Semaphores β ι)
    (h : (semaphores B role).Reach System.anyStep s) : SemCorrect B role s where
  exclusive := fun _ _ hi hj => (inv_of_reach h).mutex.unique hi.critical hj.critical
  items := by
    have hslots := (inv_of_reach h).slots
    unfold Conserved at hslots
    omega
  insert := fun i hi hpc => (inv_of_reach h).insert (((inv_of_reach h).role i).trans hi) hpc
  remove := fun i hi hpc => (inv_of_reach h).remove (((inv_of_reach h).role i).trans hi) hpc
  tokens := by
    rw [Nat.add_assoc, (inv_of_reach h).sum_tokens]
    exact (inv_of_reach h).tokens
  progress :=
    have ⟨i, s', hs⟩ := (inv_of_reach h).progress hN hp hc
    ⟨⟨i, 0⟩, s', hs⟩

/-- A list with one slot. -/
def listBuffer : Buffer 1 (List ℤ) where
  new := []
  insert_item item b := b ++ [item]
  remove_item b := (b.headD 0, b.tail)
  items b := b.length
  items_new := rfl
  items_insert item b _ := by simp
  items_remove b hb := by
    rw [List.length_tail]
    omega

/-- The producer 0 and the consumer 1. -/
def twoRoles : Fin 2 → Role := fun i => if i = 0 then .producer else .consumer

/-- The producer inserts the item 7 and waits for a slot, and the consumer is about to remove. -/
def oneItem : List (SemAct (Fin 2)) :=
  [⟨0, 7⟩, ⟨0, 0⟩, ⟨0, 0⟩, ⟨0, 0⟩, ⟨0, 0⟩, ⟨0, 0⟩, ⟨0, 8⟩, ⟨1, 0⟩, ⟨1, 0⟩]

theorem semaphores_correct_run :
    ∃ s, (semaphores listBuffer twoRoles).run oneItem (semaphores listBuffer twoRoles).init =
      some s ∧ s.buffer = [7] ∧ SemCorrect listBuffer twoRoles s :=
  ⟨_, rfl, rfl, semaphores_correct listBuffer twoRoles (Nat.le_refl 1) ⟨0, rfl⟩ ⟨1, rfl⟩ _
    (@System.reach_of_run _ _ _ oneItem _ rfl)⟩

end Semaphores

end IntroOS.Preparation
