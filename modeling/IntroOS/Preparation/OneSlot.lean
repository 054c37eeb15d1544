import IntroOS.Concurrency.Lock
import IntroOS.Preparation.Role

/-!
# A buffer with one slot

Model of `Preparation/buffer-mutex.c`: a producer and a consumer with a mutex and two condition
variables.

* `pthread_cond_wait` releases the mutex and joins the wait set in one step; a thread leaves the
  wait set by a signal, or spuriously, and then locks the mutex again. A signal that finds no
  thread in the wait set is lost.
* `i` and `buffer` are integers without bounds: `i` does not overflow as long as `MAX` is less
  than `INT_MAX`.

Main results:

* `Slot.Inv.step`: what every step keeps.
* `one_slot_correct`: the values taken are 1, 2, 3, …, none is lost, and some thread can go on
  until both are done.
-/

namespace IntroOS.Preparation

open Concurrency

/-! ## The model -/

/-- What the two functions of `buffer-mutex.c` do differently. -/
structure SlotBody where
  /-- the condition of the `while` loop around `pthread_cond_wait` -/
  mustWait : ℕ → Bool
  /-- the assignment to `buffer` in iteration `i` -/
  access : ℕ → ℕ

/-- `producer` (lines 9–22). -/
def producer : SlotBody where
  mustWait buffer := buffer != 0
  access i := i

/-- `consumer` (lines 24–37). -/
def consumer : SlotBody where
  mustWait buffer := buffer == 0
  access _ := 0

def Role.body : Role → SlotBody
  | .producer => Preparation.producer
  | .consumer => Preparation.consumer

/-- What a thread does next. -/
inductive SlotPc
  /-- `i <= MAX` (lines 13 and 28) -/
  | loop
  /-- `pthread_mutex_lock(&the_mutex)` (lines 15 and 30) -/
  | lock
  /-- the condition of the inner loop (lines 16 and 31) -/
  | test
  /-- `pthread_cond_wait` -/
  | wait
  /-- in the wait set -/
  | waiting
  /-- awake in `pthread_cond_wait`, without the mutex -/
  | relock
  /-- the assignment to `buffer` (lines 17 and 32) -/
  | access
  /-- `pthread_cond_signal` (lines 18 and 33) -/
  | signal
  /-- `pthread_mutex_unlock(&the_mutex)` (lines 19 and 34) and `i++` -/
  | unlock
  /-- `pthread_exit(0)` -/
  | done
  deriving DecidableEq, Repr

/-- The thread holds the mutex. -/
def SlotPc.InMutex : SlotPc → Prop
  | test | wait | access | signal | unlock => True
  | _ => False

/-- A thread with its loop variable. -/
structure SlotThread where
  i : ℕ
  pc : SlotPc

/-- The state of the process. The values that the consumer has taken are recorded, and those
    that the producer has overwritten. -/
structure Slot where
  the_mutex : Option Role
  buffer : ℕ
  threads : Role → SlotThread
  taken : List ℕ
  lost : List ℕ

/-- A step of a thread, or a spurious wakeup. -/
inductive SlotAct
  | thread (r : Role)
  | wakeup (r : Role)

/-- How often the thread has assigned to `buffer`. -/
def SlotThread.accessed (th : SlotThread) : ℕ :=
  match th.pc with
  | .signal | .unlock => th.i
  | _ => th.i - 1

/-- The loop variable is in the range of the loop. -/
def SlotThread.InLoop (MAX : ℕ) (th : SlotThread) : Prop :=
  match th.pc with
  | .loop => 1 ≤ th.i ∧ th.i ≤ MAX + 1
  | .done => th.i = MAX + 1
  | _ => 1 ≤ th.i ∧ th.i ≤ MAX

/-- What thread `r` knows about the buffer at a place of its code, when the other thread is at
    `other`. A thread is in the wait set only while it has to wait, or until the other thread
    signals. -/
def Role.Knows (r : Role) (buffer : ℕ) (other : SlotPc) : SlotPc → Prop
  | .wait => r.body.mustWait buffer = true
  | .waiting => r.body.mustWait buffer = true ∨ other = .signal
  | .access => r.body.mustWait buffer = false
  | .signal => r.other.body.mustWait buffer = false
  | _ => True

namespace Slot

def pc (s : Slot) (r : Role) : SlotPc := (s.threads r).pc

def goto (s : Slot) (r : Role) (th : SlotThread) : Slot :=
  { s with threads := Function.update s.threads r th }

/-- `pthread_cond_signal` on the condition variable that `r` waits for. -/
def signal (s : Slot) (r : Role) : Slot :=
  if s.pc r = .waiting then s.goto r ⟨(s.threads r).i, .relock⟩ else s

/-- What the assignment to `buffer` does to the values that are recorded. -/
def record (s : Slot) : Role → Slot
  | .producer => { s with lost := s.lost ++ if s.buffer = 0 then [] else [s.buffer] }
  | .consumer => { s with taken := s.taken ++ [s.buffer] }

/-- The next step of thread `r`. -/
def threadStep (MAX : ℕ) (r : Role) (s : Slot) : Option Slot :=
  let i := (s.threads r).i
  match s.pc r with
  | .loop => some (s.goto r ⟨i, if i ≤ MAX then .lock else .done⟩)
  | .lock | .relock =>
    if s.the_mutex.isNone then some { s.goto r ⟨i, .test⟩ with the_mutex := some r } else none
  | .test => some (s.goto r ⟨i, if r.body.mustWait s.buffer then .wait else .access⟩)
  | .wait => some { s.goto r ⟨i, .waiting⟩ with the_mutex := none }
  | .waiting => none
  | .access => some { (s.goto r ⟨i, .signal⟩).record r with buffer := r.body.access i }
  | .signal => some ((s.goto r ⟨i, .unlock⟩).signal r.other)
  | .unlock => some { s.goto r ⟨i + 1, .loop⟩ with the_mutex := none }
  | .done => none

/-- A thread leaves the wait set without a signal. -/
def wakeupStep (r : Role) (s : Slot) : Option Slot :=
  if s.pc r = .waiting then some (s.goto r ⟨(s.threads r).i, .relock⟩) else none

def step (MAX : ℕ) : SlotAct → Slot → Option Slot
  | .thread r => threadStep MAX r
  | .wakeup r => wakeupStep r

end Slot

/-- The process of `main` (lines 39–55) once both threads have been created. -/
def oneSlot (MAX : ℕ) : System Slot SlotAct where
  init := ⟨none, 0, fun _ => ⟨1, .loop⟩, [], []⟩
  step := Slot.step MAX

/-- What holds in a state: the consumer has taken 1, 2, 3, …, up to `MAX` if it is done, no value
    has been overwritten, some thread can go on by itself unless both are done, and a waiting
    thread is not alone. -/
structure SlotCorrect (MAX : ℕ) (s : Slot) : Prop where
  taken : s.taken = List.range' 1 s.taken.length
  all : s.pc .consumer = .done → s.taken.length = MAX
  lost : s.lost = []
  progress : (∃ r, s.pc r ≠ .done) → ∃ r s', (oneSlot MAX).step (.thread r) s = some s'
  waiting : ∀ r, s.pc r = .waiting → s.pc r.other ≠ .waiting ∧ s.pc r.other ≠ .done

namespace Slot

variable {MAX : ℕ} {s s' : Slot} {r : Role} {a : SlotAct}

/-! ## The invariant -/

/-- What every step keeps. -/
structure Inv (MAX : ℕ) (s : Slot) : Prop where
  owned : Owned SlotPc.InMutex s.the_mutex s.pc
  inLoop : ∀ r, (s.threads r).InLoop MAX
  knows : ∀ r : Role, r.Knows s.buffer (s.pc r.other) (s.pc r)
  produced : (s.threads .producer).accessed = s.taken.length + if s.buffer = 0 then 0 else 1
  consumed : (s.threads .consumer).accessed = s.taken.length
  buffer : s.buffer = 0 ∨ s.buffer = s.taken.length + 1
  taken : s.taken = List.range' 1 s.taken.length
  lost : s.lost = []

theorem goto_threads (s : Slot) (r t : Role) (th : SlotThread) :
    (s.goto r th).threads t = if t = r then th else s.threads t := Function.update_apply ..

theorem pc_goto (s : Slot) (r : Role) (th : SlotThread) :
    (s.goto r th).pc = Function.update s.pc r th.pc :=
  Function.comp_update SlotThread.pc s.threads r th

/-! ## Steps that leave the buffer alone -/

/-- The rule for a step that changes only the place of `r` in its code and perhaps the mutex. -/
theorem Inv.goto (h : s.Inv MAX) {th : SlotThread} {owner : Option Role}
    (howned : Owned SlotPc.InMutex owner (Function.update s.pc r th.pc))
    (hloop : th.InLoop MAX) (haccessed : th.accessed = (s.threads r).accessed)
    (hknows : r.Knows s.buffer (s.pc r.other) th.pc)
    (hother : s.pc r = .signal → s.pc r.other ≠ .waiting) :
    Inv MAX { s.goto r th with the_mutex := owner } := by
  have hacc : ∀ t, ((s.goto r th).threads t).accessed = (s.threads t).accessed := by
    intro t
    rw [goto_threads]
    split_ifs with ht
    · rw [ht, haccessed]
    · rfl
  refine ⟨?_, fun t => ?_, fun t => ?_, ?_, ?_, h.buffer, h.taken, h.lost⟩
  · rw [← pc_goto] at howned
    exact howned
  · show ((s.goto r th).threads t).InLoop MAX
    rw [goto_threads]
    split_ifs
    · exact hloop
    · exact h.inLoop t
  · refine (pc_goto s r th ▸ (Role.forall_update_iff (fun t => t.Knows s.buffer) s.pc r th.pc).mpr
      ⟨hknows, ?_⟩) t
    have hold := h.knows r.other
    rw [Role.other_other] at hold
    cases hpc : s.pc r.other with
    | waiting =>
      rw [hpc] at hold
      exact .inl (hold.resolve_right fun hsig => hother hsig hpc)
    | _ => rw [hpc] at hold; exact hold
  · exact (hacc .producer).trans h.produced
  · exact (hacc .consumer).trans h.consumed

/-! ## The assignment and the signal -/

/-- A thread that is outside the mutex knows nothing that an assignment to `buffer` changes, as
    long as the other thread still has to signal. -/
theorem knows_of_outside (r : Role) {pc : SlotPc} (hpc : ¬ pc.InMutex) (buffer : ℕ) :
    r.Knows buffer .signal pc := by
  cases pc with
  | waiting => exact .inr rfl
  | test | wait | access | signal | unlock => exact absurd trivial hpc
  | loop | lock | relock | done => trivial

/-- The rule for an assignment to `buffer`: the values fit to the counts afterwards. -/
theorem Inv.assign (h : s.Inv MAX) (hpc : s.pc r = .access) {b : ℕ} {t l : List ℕ}
    (hb : r.other.body.mustWait b = false)
    (hproduced : ((s.goto r ⟨(s.threads r).i, .signal⟩).threads .producer).accessed =
      t.length + if b = 0 then 0 else 1)
    (hconsumed : ((s.goto r ⟨(s.threads r).i, .signal⟩).threads .consumer).accessed = t.length)
    (hbuffer : b = 0 ∨ b = t.length + 1) (htaken : t = List.range' 1 t.length) (hlost : l = []) :
    Inv MAX { s.goto r ⟨(s.threads r).i, .signal⟩ with buffer := b, taken := t, lost := l } := by
  have hin : (s.pc r).InMutex := by rw [hpc]; trivial
  have hpcs := pc_goto s r ⟨(s.threads r).i, .signal⟩
  refine ⟨?_, fun u => ?_, fun u => ?_, hproduced, hconsumed, hbuffer, htaken, hlost⟩
  · show Owned SlotPc.InMutex s.the_mutex (s.goto r _).pc
    rw [hpcs]
    exact h.owned.keep (by rw [hpc]; exact Iff.rfl)
  · show ((s.goto r _).threads u).InLoop MAX
    rw [goto_threads]
    split_ifs
    · have hloop := h.inLoop r
      rw [pc] at hpc
      rw [SlotThread.InLoop, hpc] at hloop
      exact hloop
    · exact h.inLoop u
  · have hout : ¬ (s.pc r.other).InMutex := fun hother => r.other_ne (h.owned.unique hother hin)
    exact (hpcs ▸ (Role.forall_update_iff (fun t => t.Knows b) s.pc r .signal).mpr
      ⟨hb, knows_of_outside _ hout b⟩) u

theorem Inv.produce (h : s.Inv MAX) (hpc : s.pc .producer = .access) :
    Inv MAX { (s.goto .producer ⟨(s.threads .producer).i, .signal⟩).record .producer with
      buffer := producer.access (s.threads .producer).i } := by
  have hempty : s.buffer = 0 := by
    have hknows := h.knows .producer
    rw [hpc] at hknows
    simpa [Role.Knows, Role.body, producer] using hknows
  have hi : (s.threads .producer).i = s.taken.length + 1 := by
    have hproduced := h.produced
    have hloop := h.inLoop .producer
    rw [pc] at hpc
    simp only [SlotThread.accessed, SlotThread.InLoop, hpc, hempty, if_pos] at hproduced hloop
    omega
  refine h.assign hpc ?_ ?_ h.consumed (.inr hi) h.taken ?_
  · show (consumer.mustWait (s.threads .producer).i) = false
    rw [hi]
    rfl
  · show (s.threads .producer).i = s.taken.length + if (s.threads .producer).i = 0 then 0 else 1
    rw [hi, if_neg (Nat.succ_ne_zero _)]
  · show s.lost ++ (if s.buffer = 0 then [] else [s.buffer]) = []
    rw [if_pos hempty, h.lost]
    rfl

theorem Inv.consume (h : s.Inv MAX) (hpc : s.pc .consumer = .access) :
    Inv MAX { (s.goto .consumer ⟨(s.threads .consumer).i, .signal⟩).record .consumer with
      buffer := consumer.access (s.threads .consumer).i } := by
  have hfull : s.buffer ≠ 0 := by
    have hknows := h.knows .consumer
    rw [hpc] at hknows
    simpa [Role.Knows, Role.body, consumer] using hknows
  have hbuffer : s.buffer = s.taken.length + 1 := h.buffer.resolve_left hfull
  have hi : (s.threads .consumer).i = s.taken.length + 1 := by
    have hconsumed := h.consumed
    have hloop := h.inLoop .consumer
    rw [pc] at hpc
    simp only [SlotThread.accessed, SlotThread.InLoop, hpc] at hconsumed hloop
    omega
  have hlength : (s.taken ++ [s.buffer]).length = s.taken.length + 1 := by simp
  refine h.assign hpc rfl ?_ ?_ (.inl rfl) ?_ h.lost
  · show (s.threads .producer).accessed = (s.taken ++ [s.buffer]).length + 0
    rw [h.produced, if_neg hfull, hlength]
  · show (s.threads .consumer).i = (s.taken ++ [s.buffer]).length
    rw [hi, hlength]
  · show s.taken ++ [s.buffer] = List.range' 1 (s.taken ++ [s.buffer]).length
    rw [hlength, List.range'_1_concat, ← h.taken, hbuffer, Nat.add_comm]

theorem Inv.wake (h : s.Inv MAX) (hpc : s.pc r = .waiting) :
    Inv MAX (s.goto r ⟨(s.threads r).i, .relock⟩) := by
  have hpc' : (s.threads r).pc = .waiting := hpc
  have hloop := h.inLoop r
  rw [SlotThread.InLoop, hpc'] at hloop
  refine h.goto (h.owned.keep (by rw [hpc]; exact Iff.rfl)) hloop ?_ trivial
    (by rw [hpc]; exact nofun)
  simp only [SlotThread.accessed, hpc']

theorem Inv.signal (h : s.Inv MAX) (r : Role) : Inv MAX (s.signal r) := by
  unfold Slot.signal
  split_ifs with hpc
  · exact h.wake hpc
  · exact h

/-! ## Every step -/

theorem signal_pc_ne (s : Slot) (r : Role) : (s.signal r).pc r ≠ .waiting := by
  unfold Slot.signal
  split_ifs with h
  · rw [pc_goto, Function.update_self]
    exact nofun
  · exact h

theorem signal_threads (s : Slot) (r : Role) : (s.signal r.other).threads r = s.threads r := by
  unfold Slot.signal
  split_ifs
  · exact Function.update_of_ne r.other_ne.symm ..
  · rfl

theorem signal_goto (s : Slot) (r : Role) (th : SlotThread) :
    (s.goto r th).signal r.other = (s.signal r.other).goto r th := by
  have hpc : (s.goto r th).pc r.other = s.pc r.other := by
    rw [pc_goto, Function.update_of_ne r.other_ne]
  have hi : (s.goto r th).threads r.other = s.threads r.other :=
    Function.update_of_ne r.other_ne ..
  unfold Slot.signal
  rw [hpc, hi]
  split_ifs
  · exact congrArg (fun threads => { s with threads := threads })
      (Function.update_comm r.other_ne.symm ..)
  · rfl

theorem Inv.threadStep (h : s.Inv MAX) (hs : s.threadStep MAX r = some s') : s'.Inv MAX := by
  have hloop := h.inLoop r
  have hknows := h.knows r
  unfold Slot.threadStep at hs
  unfold SlotThread.InLoop at hloop
  cases hpc : s.pc r with
  | loop =>
    have hpc' : (s.threads r).pc = .loop := hpc
    simp only [hpc, Option.some.injEq] at hs
    rw [hpc'] at hloop
    subst hs
    refine h.goto (h.owned.keep ?_) ?_ ?_ ?_ (by rw [hpc]; exact nofun)
    · rw [hpc]
      split_ifs <;> exact Iff.rfl
    · split_ifs with hi
      · exact ⟨hloop.1, hi⟩
      · exact Nat.le_antisymm hloop.2 (Nat.lt_of_not_le hi)
    · split_ifs <;> simp only [SlotThread.accessed, hpc']
    · split_ifs <;> trivial
  | lock | relock =>
    have hpc' := hpc
    rw [pc] at hpc'
    simp only [hpc, Option.isNone_iff_eq_none, Option.ite_none_right_eq_some,
      Option.some.injEq] at hs
    rw [hpc'] at hloop
    obtain ⟨hfree, rfl⟩ := hs
    refine h.goto (h.owned.take hfree trivial) hloop ?_ trivial (by rw [hpc]; exact nofun)
    simp only [SlotThread.accessed, hpc']
  | test =>
    have hpc' : (s.threads r).pc = .test := hpc
    simp only [hpc, Option.some.injEq] at hs
    rw [hpc'] at hloop
    subst hs
    refine h.goto (h.owned.keep ?_) ?_ ?_ ?_ (by rw [hpc]; exact nofun)
    · rw [hpc]
      split_ifs <;> exact Iff.rfl
    · split_ifs <;> exact hloop
    · split_ifs <;> simp only [SlotThread.accessed, hpc']
    · split_ifs with hwait
      · exact hwait
      · exact Bool.eq_false_iff.mpr hwait
  | wait =>
    have hpc' : (s.threads r).pc = .wait := hpc
    simp only [hpc, Option.some.injEq] at hs
    rw [hpc'] at hloop
    rw [hpc] at hknows
    subst hs
    refine h.goto (h.owned.giveBack (by rw [hpc]; trivial) nofun) hloop ?_ (.inl hknows)
      (by rw [hpc]; exact nofun)
    simp only [SlotThread.accessed, hpc']
  | waiting | done => simp only [hpc, reduceCtorEq] at hs
  | access =>
    simp only [hpc, Option.some.injEq] at hs
    subst hs
    cases r with
    | producer => exact h.produce hpc
    | consumer => exact h.consume hpc
  | signal =>
    have hpc' : (s.threads r).pc = .signal := hpc
    simp only [hpc, Option.some.injEq] at hs
    rw [hpc'] at hloop
    rw [← hs, signal_goto]
    have hself : (s.signal r.other).threads r = s.threads r := signal_threads s r
    have hpcs : (s.signal r.other).pc r = .signal := (congrArg SlotThread.pc hself).trans hpc
    refine (h.signal r.other).goto ((h.signal r.other).owned.keep ?_) hloop ?_ trivial
      fun _ => signal_pc_ne s r.other
    · rw [hpcs]
      exact Iff.rfl
    · simp only [hself, SlotThread.accessed, hpc']
  | unlock =>
    have hpc' : (s.threads r).pc = .unlock := hpc
    simp only [hpc, Option.some.injEq] at hs
    rw [hpc'] at hloop
    subst hs
    refine h.goto (h.owned.giveBack (by rw [hpc]; trivial) nofun) ?_ ?_ trivial
      (by rw [hpc]; exact nofun)
    · exact ⟨Nat.le_add_left 1 _, Nat.add_le_add_right hloop.2 1⟩
    · simp only [SlotThread.accessed, hpc', Nat.add_sub_cancel]

theorem Inv.step (h : s.Inv MAX) (hs : Slot.step MAX a s = some s') : s'.Inv MAX := by
  cases a with
  | thread r => exact h.threadStep hs
  | wakeup r =>
    simp only [Slot.step, wakeupStep, Option.ite_none_right_eq_some, Option.some.injEq] at hs
    obtain ⟨hpc, rfl⟩ := hs
    exact h.wake hpc

theorem Inv.init (MAX : ℕ) : Inv MAX (oneSlot MAX).init where
  owned := fun _ => iff_of_false nofun id
  inLoop := fun _ => ⟨Nat.le_refl 1, Nat.le_add_left 1 MAX⟩
  knows := fun r => by cases r <;> trivial
  produced := rfl
  consumed := rfl
  buffer := .inl rfl
  taken := rfl
  lost := rfl

theorem inv_of_reach (h : (oneSlot MAX).Reach System.anyStep s) : s.Inv MAX :=
  System.Reach.invariant (Inv.init MAX) (fun _ _ _ hinv _ hs => hinv.step hs) h

/-! ## No lost wakeup -/

/-- A thread in the wait set has to wait, unless the other one is about to signal. -/
theorem Inv.mustWait (h : s.Inv MAX) (hpc : s.pc r = .waiting) (hother : s.pc r.other ≠ .signal) :
    r.body.mustWait s.buffer = true := by
  have hknows := h.knows r
  rw [hpc] at hknows
  exact hknows.resolve_right hother

theorem Inv.not_both_waiting (h : s.Inv MAX) (hpc : s.pc r = .waiting) :
    s.pc r.other ≠ .waiting := by
  intro hother
  have hr := h.mustWait hpc (by rw [hother]; exact nofun)
  have hro := h.mustWait hother (by rw [r.other_other, hpc]; exact nofun)
  cases r <;> simp_all [Role.body, Role.other, producer, consumer]

/-- A thread that waits is in the loop, so the other one has not made all its assignments. -/
theorem Inv.not_alone (h : s.Inv MAX) (hpc : s.pc r = .waiting) : s.pc r.other ≠ .done := by
  intro hother
  have hwait := h.mustWait hpc (by rw [hother]; exact nofun)
  have hloop := h.inLoop r
  have hdone := h.inLoop r.other
  have hproduced := h.produced
  have hconsumed := h.consumed
  rw [pc] at hpc
  cases r with
  | producer =>
    have hfull : s.buffer ≠ 0 := by simpa [Role.body, producer] using hwait
    have hdone' : (s.threads .consumer).pc = .done := hother
    simp only [SlotThread.InLoop, SlotThread.accessed, Role.other, hpc, hdone', if_neg hfull]
      at hloop hdone hproduced hconsumed
    omega
  | consumer =>
    have hempty : s.buffer = 0 := by simpa [Role.body, consumer] using hwait
    have hdone' : (s.threads .producer).pc = .done := hother
    simp only [SlotThread.InLoop, SlotThread.accessed, Role.other, hpc, hdone', if_pos hempty]
      at hloop hdone hproduced hconsumed
    omega

theorem threadStep_of_inMutex (MAX : ℕ) (h : (s.pc r).InMutex) :
    ∃ s', s.threadStep MAX r = some s' := by
  unfold threadStep
  cases hpc : s.pc r with
  | test | wait | access | signal | unlock => exact ⟨_, rfl⟩
  | loop | lock | waiting | relock | done => rw [hpc] at h; exact h.elim

/-- When nobody has the mutex, a thread goes on, waits for a signal or is done. -/
theorem threadStep_of_free (MAX : ℕ) (hfree : s.the_mutex = none) (hin : ¬ (s.pc r).InMutex) :
    (∃ s', s.threadStep MAX r = some s') ∨ s.pc r = .waiting ∨ s.pc r = .done := by
  unfold threadStep
  cases hpc : s.pc r with
  | loop => exact .inl ⟨_, rfl⟩
  | lock | relock => exact .inl ⟨_, if_pos (by rw [hfree]; rfl)⟩
  | waiting => exact .inr (.inl rfl)
  | done => exact .inr (.inr rfl)
  | test | wait | access | signal | unlock => rw [hpc] at hin; exact (hin trivial).elim

theorem Inv.progress (h : s.Inv MAX) (hr : s.pc r ≠ .done) :
    ∃ r s', s.threadStep MAX r = some s' := by
  cases howner : s.the_mutex with
  | some t => exact ⟨t, threadStep_of_inMutex MAX ((h.owned t).mp howner)⟩
  | none =>
    have hout := fun t => @threadStep_of_free s t MAX howner (h.owned.not_inside howner t)
    obtain hstep | hpc | hpc := hout r
    · exact ⟨r, hstep⟩
    · obtain hstep | hother | hother := hout r.other
      · exact ⟨r.other, hstep⟩
      · exact absurd hother (h.not_both_waiting hpc)
      · exact absurd hother (h.not_alone hpc)
    · exact absurd hpc hr

theorem one_slot_correct (MAX : ℕ) (s : Slot) (h : (oneSlot MAX).Reach System.anyStep s) :
    SlotCorrect MAX s where
  taken := (inv_of_reach h).taken
  all := fun hdone => by
    have hconsumed := (inv_of_reach h).consumed
    have hloop := (inv_of_reach h).inLoop .consumer
    rw [pc] at hdone
    simp only [SlotThread.accessed, SlotThread.InLoop, hdone] at hconsumed hloop
    omega
  lost := (inv_of_reach h).lost
  progress := fun ⟨_, hr⟩ =>
    have ⟨t, s', hs⟩ := (inv_of_reach h).progress hr
    ⟨t, s', hs⟩
  waiting := fun _ hpc =>
    ⟨(inv_of_reach h).not_both_waiting hpc, (inv_of_reach h).not_alone hpc⟩

/-- The consumer waits, wakes up spuriously, waits again and is signalled. -/
def oneValue : List SlotAct :=
  let c := SlotAct.thread .consumer
  let p := SlotAct.thread .producer
  [c, c, c, c, .wakeup .consumer, c, c, c, p, p, p, p, p, p, p, c, c, c, c, c, c]

theorem one_slot_correct_run : ∃ s, (oneSlot 1).run oneValue (oneSlot 1).init = some s ∧
    s.taken = [1] ∧ SlotCorrect 1 s :=
  ⟨_, rfl, rfl, one_slot_correct 1 _ (@System.reach_of_run _ _ _ oneValue _ rfl)⟩

end Slot

end IntroOS.Preparation
