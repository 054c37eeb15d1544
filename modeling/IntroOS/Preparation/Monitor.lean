import IntroOS.Concurrency.Lock
import IntroOS.Preparation.Role
import IntroOS.RingBuffer.Window

/-!
# A monitor with a ring buffer

Model of `Preparation/PriducerConsumer.java`: one producer that calls `our_monitor.insert` and one
consumer that calls `our_monitor.remove`.

* `wait()` leaves the monitor and joins the wait set in one step; a thread leaves the wait set only
  when it is notified, and then competes for the monitor again. A `notify()` that finds no thread
  in the wait set is lost. Nobody interrupts the threads.
* What a method does to `buffer`, `lo`, `hi` and `count` is one step inside the monitor.
* The values that the producer inserts are arbitrary.

Main results:

* `Monitor.Inv.step`: what every step keeps.
* `monitor_correct`: whenever the monitor is free, the ring holds the values that have been inserted
  and not yet removed, and the two threads never wait both.
-/

namespace IntroOS.Preparation

open Concurrency

/-! ## The model -/

/-- The conditions of the two methods of `our_monitor`. -/
structure MonitorBody where
  /-- the condition of `go_to_sleep()` -/
  mustSleep : ℤ → Bool
  /-- the condition of `notify()` -/
  mustNotify : ℤ → Bool

/-- `insert` (lines 43–49). -/
def insertBody (N : ℕ) : MonitorBody := ⟨fun count => count == N, fun count => count == 1⟩

/-- `remove` (lines 51–59). -/
def removeBody (N : ℕ) : MonitorBody := ⟨fun count => count == 0, fun count => count == N - 1⟩

def Role.method (N : ℕ) : Role → MonitorBody
  | .producer => insertBody N
  | .consumer => removeBody N

/-- What a thread does next. -/
inductive MonitorPc
  /-- outside of `our_monitor`, about to call its method -/
  | call
  /-- the method is `synchronized` -/
  | enter
  /-- `if(count == N)` (line 44) or `if(count == 0)` (line 53) -/
  | test
  /-- `wait()` (line 62) -/
  | sleep
  /-- in the wait set -/
  | waiting
  /-- notified in `wait()`, without the monitor -/
  | notified
  /-- the assignments (lines 45–47 and 54–56) -/
  | body
  /-- `if(count == 1) notify()` (line 48) or `if(count == N-1) notify()` (line 57) -/
  | notify
  /-- the end of the method -/
  | leave
  deriving DecidableEq, Repr

/-- The thread is in the monitor. -/
def MonitorPc.InMonitor : MonitorPc → Prop
  | test | sleep | body | notify | leave => True
  | _ => False

/-- A thread with the variable `val` of its method. -/
structure MonitorThread where
  pc : MonitorPc
  val : ℤ

/-- The monitor and its two threads. The values that have been inserted and removed are recorded. -/
structure Monitor where
  owner : Option Role
  buffer : ℕ → ℤ
  count : ℤ
  lo : ℕ
  hi : ℕ
  threads : Role → MonitorThread
  inserted : List ℤ
  removed : List ℤ

/-- A step of thread `r`; `val` is the argument of `insert` if the step calls it. -/
structure MonitorAct where
  r : Role
  val : ℤ

namespace Monitor

def pc (s : Monitor) (r : Role) : MonitorPc := (s.threads r).pc

def goto (s : Monitor) (r : Role) (th : MonitorThread) : Monitor :=
  { s with threads := Function.update s.threads r th }

/-- `notify()`, where the other thread is `r`. -/
def wake (s : Monitor) (r : Role) : Monitor :=
  if s.pc r = .waiting then s.goto r ⟨.notified, (s.threads r).val⟩ else s

/-- The assignments of the method. -/
def body (N : ℕ) (r : Role) (s : Monitor) : Monitor :=
  let val := (s.threads r).val
  match r with
  | .producer =>
    { s.goto r ⟨.notify, val⟩ with
      buffer := Function.update s.buffer s.hi val
      hi := (s.hi + 1) % N
      count := s.count + 1
      inserted := s.inserted ++ [val] }
  | .consumer =>
    { s.goto r ⟨.notify, s.buffer s.lo⟩ with
      lo := (s.lo + 1) % N
      count := s.count - 1
      removed := s.removed ++ [s.buffer s.lo] }

def step (N : ℕ) (a : MonitorAct) (s : Monitor) : Option Monitor :=
  let val := (s.threads a.r).val
  match s.pc a.r with
  | .call =>
    let val := match a.r with
      | .producer => a.val
      | .consumer => val
    some (s.goto a.r ⟨.enter, val⟩)
  | .enter =>
    if s.owner.isNone then some { s.goto a.r ⟨.test, val⟩ with owner := some a.r } else none
  | .test =>
    some (s.goto a.r ⟨if (a.r.method N).mustSleep s.count then .sleep else .body, val⟩)
  | .sleep => some { s.goto a.r ⟨.waiting, val⟩ with owner := none }
  | .waiting => none
  | .notified =>
    if s.owner.isNone then some { s.goto a.r ⟨.body, val⟩ with owner := some a.r } else none
  | .body => some (s.body N a.r)
  | .notify =>
    let s' := s.goto a.r ⟨.leave, val⟩
    some (if (a.r.method N).mustNotify s.count then s'.wake a.r.other else s')
  | .leave => some { s.goto a.r ⟨.call, val⟩ with owner := none }

end Monitor

/-- The monitor and its two threads. -/
def monitor (N : ℕ) : System Monitor MonitorAct where
  init := ⟨none, fun _ => 0, 0, 0, 0, fun _ => ⟨.call, 0⟩, [], []⟩
  step := Monitor.step N

/-- The `count` values from `lo` on. -/
def Monitor.window (N : ℕ) (s : Monitor) : List ℤ :=
  RingBuffer.window N s.buffer s.lo s.count.toNat

/-- The fields of `our_monitor` fit together. -/
structure Monitor.Consistent (N : ℕ) (s : Monitor) : Prop where
  count : 0 ≤ s.count ∧ s.count ≤ N
  lo : s.lo < N
  hi : s.hi = (s.lo + s.count) % N
  order : s.removed ++ s.window N = s.inserted

/-- What holds in a state. -/
structure MonitorCorrect (N : ℕ) (s : Monitor) : Prop where
  free : s.owner = none → s.Consistent N
  waiting : ¬ (s.pc .producer = .waiting ∧ s.pc .consumer = .waiting)

/-! ## The invariant -/

/-- What thread `r` knows about `count` at a place of its code, when the other thread is at `other`.
    A thread is in the wait set only while it has to sleep, or until the other thread notifies it;
    from then on it does not have to sleep. -/
def Role.KnowsCount (N : ℕ) (count : ℤ) (r : Role) (other : MonitorPc) : MonitorPc → Prop
  | .sleep => (r.method N).mustSleep count = true
  | .waiting => (r.method N).mustSleep count = true ∨
      other = .notify ∧ (r.other.method N).mustNotify count = true
  | .notified | .body => (r.method N).mustSleep count = false
  | .notify => (r.other.method N).mustSleep count = false
  | _ => True

namespace Monitor

variable {N : ℕ} {s s' : Monitor} {r : Role} {a : MonitorAct} {l : List ℤ}

/-- The values `l` are in the ring. -/
structure Queue (N : ℕ) (s : Monitor) (l : List ℤ) : Prop where
  ring : RingBuffer.Holds N s.buffer s.lo s.hi l
  count : s.count = l.length
  order : s.inserted = s.removed ++ l

/-- What every step keeps. -/
structure Inv (N : ℕ) (s : Monitor) : Prop where
  owned : Owned MonitorPc.InMonitor s.owner s.pc
  queue : ∃ l, s.Queue N l
  knows : ∀ r : Role, r.KnowsCount N s.count (s.pc r.other) (s.pc r)

theorem pc_goto (s : Monitor) (r : Role) (th : MonitorThread) :
    (s.goto r th).pc = Function.update s.pc r th.pc :=
  Function.comp_update MonitorThread.pc s.threads r th

/-! ## Steps that leave the fields alone -/

/-- The rule for a step that changes only the place of `r` in its code and perhaps the owner. -/
theorem Inv.goto (h : s.Inv N) {th : MonitorThread} {owner : Option Role}
    (howned : Owned MonitorPc.InMonitor owner (Function.update s.pc r th.pc))
    (hknows : r.KnowsCount N s.count (s.pc r.other) th.pc)
    (hother : s.pc r = .notify → s.pc r.other ≠ .waiting) :
    Inv N { s.goto r th with owner := owner } where
  owned := by
    rw [← pc_goto] at howned
    exact howned
  queue := h.queue.imp fun _ hl => ⟨hl.ring, hl.count, hl.order⟩
  knows := by
    refine pc_goto s r th ▸
      (Role.forall_update_iff (Role.KnowsCount N s.count) s.pc r th.pc).mpr ⟨hknows, ?_⟩
    have hold := h.knows r.other
    rw [Role.other_other] at hold
    cases hpc : s.pc r.other with
    | waiting =>
      rw [hpc] at hold
      exact .inl (hold.resolve_right fun hnotify => hother hnotify.1 hpc)
    | _ => rw [hpc] at hold; exact hold

/-! ## The assignments -/

/-- The rule for the assignments of `r`: afterwards the other thread does not have to sleep, and is
    notified if it had to. -/
theorem Inv.assign (h : s.Inv N) (hpc : s.pc r = .body) (howner : s'.owner = s.owner)
    (hpcs : s'.pc = Function.update s.pc r .notify) (hqueue : s'.Queue N l)
    (hawake : (r.other.method N).mustSleep s'.count = false)
    (hnotify : (r.other.method N).mustSleep s.count = true →
      (r.method N).mustNotify s'.count = true) : s'.Inv N where
  owned := by
    rw [howner, hpcs]
    exact h.owned.keep (by rw [hpc]; exact Iff.rfl)
  queue := ⟨l, hqueue⟩
  knows := by
    refine hpcs ▸
      (Role.forall_update_iff (Role.KnowsCount N s'.count) s.pc r .notify).mpr ⟨hawake, ?_⟩
    have hold := h.knows r.other
    have hout : ¬ (s.pc r.other).InMonitor :=
      fun hother => r.other_ne (h.owned.unique hother (by rw [hpc]; trivial))
    rw [Role.other_other, hpc] at hold
    cases hother : s.pc r.other with
    | waiting =>
      rw [hother] at hold
      refine .inr ⟨rfl, ?_⟩
      rw [Role.other_other]
      exact hnotify (hold.resolve_right fun hne => absurd hne.1 nofun)
    | notified => exact hawake
    | call | enter => trivial
    | test | sleep | body | notify | leave =>
      rw [hother] at hout
      exact absurd trivial hout

theorem Inv.insert (h : s.Inv N) (hpc : s.pc .producer = .body) : (s.body N .producer).Inv N := by
  obtain ⟨l, hring, hcount, horder⟩ := h.queue
  have hknows := h.knows .producer
  rw [hpc] at hknows
  have hroom : s.count ≠ N := by simpa [Role.KnowsCount, Role.method, insertBody] using hknows
  have hlt : l.length < N := by
    have hle := hring.length_le
    omega
  refine h.assign hpc rfl (pc_goto ..) (l := l ++ [(s.threads .producer).val])
    ⟨hring.insert hlt _, ?_, ?_⟩ ?_ fun hsleep => ?_
  · show s.count + 1 = ((l ++ [_]).length : ℤ)
    rw [hcount, List.length_append, List.length_singleton, Nat.cast_succ]
  · show s.inserted ++ [_] = s.removed ++ (l ++ [_])
    rw [horder, List.append_assoc]
  · show (s.count + 1 == 0) = false
    rw [hcount, beq_eq_false_iff_ne]
    omega
  · have hempty : s.count = 0 := by simpa [Role.method, Role.other, removeBody] using hsleep
    show (s.count + 1 == 1) = true
    rw [hempty]
    rfl

theorem Inv.remove (h : s.Inv N) (hpc : s.pc .consumer = .body) : (s.body N .consumer).Inv N := by
  obtain ⟨l, hring, hcount, horder⟩ := h.queue
  have hknows := h.knows .consumer
  rw [hpc] at hknows
  have hsome : s.count ≠ 0 := by simpa [Role.KnowsCount, Role.method, removeBody] using hknows
  cases l with
  | nil => exact absurd hcount hsome
  | cons v l =>
    have hle := hring.length_le
    rw [List.length_cons] at hcount hle
    refine h.assign hpc rfl (pc_goto ..) (l := l) ⟨hring.remove, ?_, ?_⟩ ?_ fun hsleep => ?_
    · show s.count - 1 = (l.length : ℤ)
      omega
    · show s.inserted = s.removed ++ [s.buffer s.lo] ++ l
      rw [horder, hring.head, List.append_assoc, List.singleton_append]
    · show (s.count - 1 == (N : ℤ)) = false
      rw [beq_eq_false_iff_ne]
      omega
    · have hfull : s.count = N := by simpa [Role.method, Role.other, insertBody] using hsleep
      show (s.count - 1 == (N : ℤ) - 1) = true
      rw [hfull, beq_self_eq_true]

/-! ## The notification -/

theorem wake_of_waiting (th : MonitorThread) (hpc : s.pc r.other = .waiting) :
    (s.goto r th).wake r.other =
      (s.goto r.other ⟨.notified, (s.threads r.other).val⟩).goto r th := by
  have hpc' : (s.goto r th).pc r.other = .waiting := by
    rw [pc_goto, Function.update_of_ne r.other_ne, hpc]
  have hval : (s.goto r th).threads r.other = s.threads r.other :=
    Function.update_of_ne r.other_ne ..
  rw [wake, if_pos hpc', hval]
  exact congrArg (fun threads => { s with threads := threads })
    (Function.update_comm r.other_ne.symm ..)

theorem wake_of_ne (th : MonitorThread) (hpc : s.pc r.other ≠ .waiting) :
    (s.goto r th).wake r.other = s.goto r th := by
  apply if_neg
  rwa [pc_goto, Function.update_of_ne r.other_ne]

theorem Inv.notify (h : s.Inv N) (hpc : s.pc r = .notify) (val : ℤ) :
    Inv N (if (r.method N).mustNotify s.count then (s.goto r ⟨.leave, val⟩).wake r.other
      else s.goto r ⟨.leave, val⟩) := by
  by_cases hw : s.pc r.other = .waiting
  · have hawake := h.knows r
    have hwaits := h.knows r.other
    rw [hpc] at hawake
    rw [hw, Role.other_other] at hwaits
    have hnotify : (r.method N).mustNotify s.count = true := by
      obtain hsleep | ⟨-, hnotify⟩ := hwaits
      · exact absurd (hsleep.symm.trans hawake) nofun
      · rwa [Role.other_other] at hnotify
    have hwoken : Inv N (s.goto r.other ⟨.notified, (s.threads r.other).val⟩) :=
      h.goto (h.owned.keep (by rw [hw]; exact Iff.rfl)) hawake (by rw [hw]; exact nofun)
    have hpcs := pc_goto s r.other ⟨.notified, (s.threads r.other).val⟩
    rw [if_pos hnotify, wake_of_waiting _ hw]
    refine hwoken.goto (hwoken.owned.keep ?_) trivial fun _ => ?_
    · rw [hpcs, Function.update_of_ne r.other_ne.symm, hpc]
      exact Iff.rfl
    · rw [hpcs, Function.update_self]
      exact nofun
  · rw [wake_of_ne _ hw, ite_self]
    exact h.goto (h.owned.keep (by rw [hpc]; exact Iff.rfl)) trivial fun _ => hw

/-! ## Every step -/

theorem Inv.step (h : s.Inv N) (hs : Monitor.step N a s = some s') : s'.Inv N := by
  unfold Monitor.step at hs
  cases hpc : s.pc a.r with
  | call =>
    simp only [hpc, Option.some.injEq] at hs
    subst hs
    exact h.goto (h.owned.keep (by rw [hpc]; exact Iff.rfl)) trivial (by rw [hpc]; exact nofun)
  | enter =>
    simp only [hpc, Option.isNone_iff_eq_none, Option.ite_none_right_eq_some,
      Option.some.injEq] at hs
    obtain ⟨hfree, rfl⟩ := hs
    exact h.goto (h.owned.take hfree trivial) trivial (by rw [hpc]; exact nofun)
  | test =>
    simp only [hpc, Option.some.injEq] at hs
    subst hs
    refine h.goto (h.owned.keep ?_) ?_ (by rw [hpc]; exact nofun)
    · rw [hpc]
      split_ifs <;> exact Iff.rfl
    · split_ifs with hsleep
      · exact hsleep
      · exact Bool.eq_false_iff.mpr hsleep
  | sleep =>
    simp only [hpc, Option.some.injEq] at hs
    subst hs
    have hknows := h.knows a.r
    rw [hpc] at hknows
    exact h.goto (h.owned.giveBack (by rw [hpc]; trivial) nofun) (.inl hknows)
      (by rw [hpc]; exact nofun)
  | waiting => simp only [hpc, reduceCtorEq] at hs
  | notified =>
    simp only [hpc, Option.isNone_iff_eq_none, Option.ite_none_right_eq_some,
      Option.some.injEq] at hs
    obtain ⟨hfree, rfl⟩ := hs
    have hknows := h.knows a.r
    rw [hpc] at hknows
    exact h.goto (h.owned.take hfree trivial) hknows (by rw [hpc]; exact nofun)
  | body =>
    simp only [hpc, Option.some.injEq] at hs
    subst hs
    cases hr : a.r with
    | producer => exact h.insert (hr ▸ hpc)
    | consumer => exact h.remove (hr ▸ hpc)
  | notify =>
    simp only [hpc, Option.some.injEq] at hs
    subst hs
    exact h.notify hpc _
  | leave =>
    simp only [hpc, Option.some.injEq] at hs
    subst hs
    exact h.goto (h.owned.giveBack (by rw [hpc]; trivial) nofun) trivial (by rw [hpc]; exact nofun)

theorem Inv.init {N : ℕ} (hN : 1 ≤ N) : Inv N (monitor N).init where
  owned := fun _ => iff_of_false nofun id
  queue := ⟨[], RingBuffer.Holds.nil hN _, rfl, rfl⟩
  knows := fun r => by cases r <;> trivial

theorem inv_of_reach (hN : 1 ≤ N) (h : (monitor N).Reach System.anyStep s) : s.Inv N :=
  System.Reach.invariant (Inv.init hN) (fun _ _ _ hinv _ hs => hinv.step hs) h

theorem Queue.consistent (h : s.Queue N l) : s.Consistent N where
  count := by
    have hle := h.ring.length_le
    rw [h.count]
    omega
  lo := h.ring.lo_lt
  hi := by
    rw [h.ring.hi_eq, h.count]
    push_cast
    rfl
  order := by
    rw [Monitor.window, h.count, Int.toNat_natCast, h.ring.window_eq, h.order]

theorem Inv.not_both_waiting (h : s.Inv N) (hN : 1 ≤ N) (hp : s.pc .producer = .waiting) :
    s.pc .consumer ≠ .waiting := by
  intro hc
  have hproducer := h.knows .producer
  have hconsumer := h.knows .consumer
  simp only [Role.other, hp, hc] at hproducer hconsumer
  have hfull : s.count = N := by
    simpa [Role.KnowsCount, Role.method, insertBody] using hproducer
  have hempty : s.count = 0 := by
    simpa [Role.KnowsCount, Role.method, removeBody] using hconsumer
  omega

theorem monitor_correct (N : ℕ) (hN : 1 ≤ N) (s : Monitor)
    (h : (monitor N).Reach System.anyStep s) : MonitorCorrect N s where
  free := fun _ =>
    have ⟨_, hl⟩ := (inv_of_reach hN h).queue
    hl.consistent
  waiting := fun ⟨hp, hc⟩ => (inv_of_reach hN h).not_both_waiting hN hp hc

/-- The consumer waits, is notified after the first of two inserts and removes the first value. -/
def twoInserts : List MonitorAct :=
  let c : MonitorAct := ⟨.consumer, 0⟩
  let p : ℤ → MonitorAct := fun val => ⟨.producer, val⟩
  [c, c, c, c, p 7, p 0, p 0, p 0, p 0, p 0, p 8, p 0, p 0, p 0, p 0, p 0, c, c, c, c]

theorem monitor_correct_run : ∃ s, (monitor 2).run twoInserts (monitor 2).init = some s ∧
    s.removed = [7] ∧ s.window 2 = [8] ∧ MonitorCorrect 2 s :=
  ⟨_, rfl, rfl, rfl,
    monitor_correct 2 (by decide) _ (@System.reach_of_run _ _ _ twoInserts _ rfl)⟩

end Monitor

end IntroOS.Preparation
