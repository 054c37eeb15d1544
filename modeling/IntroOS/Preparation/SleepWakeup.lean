import IntroOS.Concurrency.System
import IntroOS.Preparation.Role

/-!
# Sleep and wakeup

Model of `Preparation/producer-consumer.c`: one process in `produer`, one in `consumer`.

* A test of `count`, falling asleep, the item, the update of `count` and the wakeup are steps of
  their own. A wakeup for a process that is not asleep is lost.
* `produce_item` and `consume_item` change nothing that the processes share; `count` is an integer
  without bounds.

A wakeup is lost between the test and `sleep()` of the other process, and a process that wakes up
does not look at `count` again.

Main results:

* `SleepWakeup.Inv.step`: what every step in time keeps.
* `SleepWakeup.sleep_wakeup_in_time`: as long as no process falls asleep or is woken at a wrong
  time, they never sleep both and `count` stays within its bounds.
* `SleepWakeup.late_step_fails`: after any other step, a run can still go wrong.
* `SleepWakeup.lost_wakeup`: for every size of the buffer both can fall asleep.
-/

namespace IntroOS.Preparation

open Concurrency

/-! ## The model -/

/-- What the two functions of `producer-consumer.c` do differently. -/
structure SleepBody where
  /-- the condition of `sleep()` -/
  mustSleep : ℤ → Bool
  /-- the assignment to `count` -/
  update : ℤ → ℤ
  /-- the condition of `wakeup` -/
  mustWake : ℤ → Bool

/-- `produer` (lines 4–16). -/
def SleepBody.produer (N : ℕ) : SleepBody where
  mustSleep count := count == N
  update count := count + 1
  mustWake count := count == 1

/-- `consumer` (lines 18–30). -/
def SleepBody.consumer (N : ℕ) : SleepBody where
  mustSleep count := count == 0
  update count := count - 1
  mustWake count := count == N - 1

def Role.process (N : ℕ) : Role → SleepBody
  | producer => .produer N
  | consumer => .consumer N

/-- What a process does next. -/
inductive SleepPc
  /-- `if(count == N)` (line 11) or `if(count == 0)` (line 24) -/
  | test
  /-- `sleep()` -/
  | sleep
  /-- in `sleep()` -/
  | asleep
  /-- `insert_item(item)` (line 12) or `item = remove_item()` (line 25) -/
  | item
  /-- `count += 1` (line 13) or `count--` (line 26) -/
  | update
  /-- `if(count == 1)` (line 14) or `if(count == N-1)` (line 27) -/
  | testWake
  /-- `wakeup(consumer)` or `wakeup(producer)` -/
  | wakeup
  deriving DecidableEq, Repr

/-- The variable `count` and the two processes. -/
structure SleepWakeup where
  count : ℤ
  pc : Role → SleepPc

namespace SleepWakeup

def goto (s : SleepWakeup) (r : Role) (pc : SleepPc) : SleepWakeup :=
  { s with pc := Function.update s.pc r pc }

/-- `wakeup` for the process `r`. -/
def wake (s : SleepWakeup) (r : Role) : SleepWakeup :=
  if s.pc r = .asleep then s.goto r .item else s

def step (N : ℕ) (r : Role) (s : SleepWakeup) : Option SleepWakeup :=
  match s.pc r with
  | .test => some (s.goto r (if (r.process N).mustSleep s.count then .sleep else .item))
  | .sleep => some (s.goto r .asleep)
  | .asleep => none
  | .item => some (s.goto r .update)
  | .update => some { s.goto r .testWake with count := (r.process N).update s.count }
  | .testWake => some (s.goto r (if (r.process N).mustWake s.count then .wakeup else .test))
  | .wakeup => some ((s.goto r .test).wake r.other)

end SleepWakeup

/-- The two processes. -/
def sleepWakeup (N : ℕ) : System SleepWakeup Role where
  init := ⟨0, fun _ => .test⟩
  step := SleepWakeup.step N

namespace SleepWakeup

/-- Both processes are asleep. -/
def Stuck (s : SleepWakeup) : Prop := s.pc .producer = .asleep ∧ s.pc .consumer = .asleep

/-- What should hold in a state. -/
structure Correct (N : ℕ) (s : SleepWakeup) : Prop where
  awake : ¬ s.Stuck
  count : 0 ≤ s.count ∧ s.count ≤ N

/-- Process `r` is going to send a wakeup with its next steps. -/
def AboutToWake (N : ℕ) (s : SleepWakeup) (r : Role) : Prop :=
  s.pc r = .wakeup ∨ s.pc r = .testWake ∧ (r.process N).mustWake s.count = true

/-- A step of `r` that comes in time: it falls asleep only while it has to, or while a wakeup for it
    is still to come, and it does not wake up a process that has to sleep. -/
structure InTime (N : ℕ) (r : Role) (s : SleepWakeup) : Prop where
  sleep : s.pc r = .sleep →
    (r.process N).mustSleep s.count = true ∨ s.AboutToWake N r.other
  wakeup : s.pc r = .wakeup → s.pc r.other = .asleep →
    (r.other.process N).mustSleep s.count = false

end SleepWakeup

/-! ## Items and free slots -/

/-- How often `r` can update `count` without the other process: the free slots, or the items. -/
def Role.avail (N : ℕ) (count : ℤ) : Role → ℤ
  | producer => N - count
  | consumer => count

section Avail

variable (N : ℕ) (count : ℤ) (r : Role)

theorem Role.mustSleep_iff : (r.process N).mustSleep count = true ↔ r.avail N count = 0 := by
  cases r with
  | producer =>
    show (count == (N : ℤ)) = true ↔ (N : ℤ) - count = 0
    rw [beq_iff_eq]
    omega
  | consumer => exact beq_iff_eq

variable {N count r} in
theorem Role.one_le_avail (hle : 0 ≤ r.avail N count)
    (hsleep : ¬ (r.process N).mustSleep count = true) : 1 ≤ r.avail N count := by
  have hne : r.avail N count ≠ 0 := by
    intro hzero
    exact hsleep ((r.mustSleep_iff N count).mpr hzero)
  omega

theorem Role.mustWake_iff : (r.process N).mustWake count = true ↔ r.other.avail N count = 1 := by
  cases r with
  | producer => exact beq_iff_eq
  | consumer =>
    show (count == (N : ℤ) - 1) = true ↔ (N : ℤ) - count = 1
    rw [beq_iff_eq]
    omega

theorem Role.avail_update : r.avail N ((r.process N).update count) = r.avail N count - 1 := by
  cases r with
  | producer => show (N : ℤ) - (count + 1) = N - count - 1; omega
  | consumer => rfl

theorem Role.avail_add_other : r.avail N count + r.other.avail N count = N := by
  cases r with
  | producer => show (N : ℤ) - count + count = N; omega
  | consumer => show count + ((N : ℤ) - count) = N; omega

theorem Role.avail_other_update :
    r.other.avail N ((r.process N).update count) = r.other.avail N count + 1 := by
  have hself := r.avail_update N count
  have hbefore := r.avail_add_other N count
  have hafter := r.avail_add_other N ((r.process N).update count)
  omega

end Avail

/-- What process `r` knows at a place of its code, when the other one is at `other`. It is asleep
    only while it has to, or until the other one wakes it up. -/
def Role.KnowsAvail (N : ℕ) (count : ℤ) (r : Role) (other : SleepPc) : SleepPc → Prop
  | .asleep => r.avail N count = 0 ∨ other = .wakeup ∨ other = .testWake ∧ r.avail N count = 1
  | .item | .update => 1 ≤ r.avail N count
  | _ => True

/-- The process has updated `count` and may still send a wakeup. -/
def SleepPc.Wakes : SleepPc → Prop
  | testWake | wakeup => True
  | _ => False

/-- How many steps a process makes at most until it updates `count` or sleeps. -/
def SleepPc.rank : SleepPc → ℕ
  | asleep => 0
  | sleep | update => 1
  | item => 2
  | test => 3
  | testWake | wakeup => 4

namespace SleepWakeup

variable {N : ℕ} {s s' : SleepWakeup} {r : Role}

/-! ## The steps in time -/

/-- What every step in time keeps. -/
structure Inv (N : ℕ) (s : SleepWakeup) : Prop where
  avail : ∀ r : Role, 0 ≤ r.avail N s.count
  knows : ∀ r : Role, r.KnowsAvail N s.count (s.pc r.other) (s.pc r)

/-- A process that is asleep has to sleep, unless the other one may still wake it up. -/
theorem Inv.avail_of_asleep (h : s.Inv N) (hpc : s.pc r = .asleep)
    (hother : ¬ (s.pc r.other).Wakes) : r.avail N s.count = 0 := by
  have hknows := h.knows r
  rw [hpc] at hknows
  rcases hknows with hzero | hwakeup | ⟨htest, -⟩
  · exact hzero
  · rw [hwakeup] at hother
    exact absurd trivial hother
  · rw [htest] at hother
    exact absurd trivial hother

/-- The rule for a step that changes only the place of `r` in its code. -/
theorem Inv.goto (h : s.Inv N) {pc : SleepPc}
    (hknows : r.KnowsAvail N s.count (s.pc r.other) pc)
    (hother : s.pc r.other = .asleep → r.other.KnowsAvail N s.count pc .asleep) :
    (s.goto r pc).Inv N := by
  refine ⟨h.avail, (Role.forall_update_iff (Role.KnowsAvail N s.count) s.pc r pc).mpr ⟨hknows, ?_⟩⟩
  have hold := h.knows r.other
  rw [Role.other_other] at hold
  cases hpc : s.pc r.other with
  | asleep => exact hother hpc
  | _ => rw [hpc] at hold; exact hold

/-- The rule for a step of `r` from a place where it does not wake the other one. -/
theorem Inv.goto_of_not_wakes (h : s.Inv N) {pc : SleepPc} (hpc : ¬ (s.pc r).Wakes)
    (hknows : r.KnowsAvail N s.count (s.pc r.other) pc) : (s.goto r pc).Inv N := by
  apply h.goto hknows
  intro hother
  refine Or.inl (h.avail_of_asleep hother ?_)
  rwa [r.other_other]

theorem Inv.test (h : s.Inv N) (hpc : s.pc r = .test) :
    (s.goto r (if (r.process N).mustSleep s.count then .sleep else .item)).Inv N := by
  apply h.goto_of_not_wakes (by rw [hpc]; exact id)
  split_ifs with hsleep
  · trivial
  · exact Role.one_le_avail (h.avail r) hsleep

theorem Inv.sleep (h : s.Inv N) (hpc : s.pc r = .sleep) (htime : s.InTime N r) :
    (s.goto r .asleep).Inv N := by
  apply h.goto_of_not_wakes (by rw [hpc]; exact id)
  rcases htime.sleep hpc with hsleep | hwake | ⟨htest, hwake⟩
  · exact Or.inl ((r.mustSleep_iff N s.count).mp hsleep)
  · exact Or.inr (Or.inl hwake)
  · have hone := (r.other.mustWake_iff N s.count).mp hwake
    rw [Role.other_other] at hone
    exact Or.inr (Or.inr ⟨htest, hone⟩)

theorem Inv.item (h : s.Inv N) (hpc : s.pc r = .item) : (s.goto r .update).Inv N := by
  have hknows := h.knows r
  rw [hpc] at hknows
  exact h.goto_of_not_wakes (by rw [hpc]; exact id) hknows

theorem Inv.update (h : s.Inv N) (hpc : s.pc r = .update) :
    Inv N { s.goto r .testWake with count := (r.process N).update s.count } := by
  have hself := r.avail_update N s.count
  have hother := r.avail_other_update N s.count
  have hle := h.avail r.other
  have hknows := h.knows r
  rw [hpc] at hknows
  have hone : 1 ≤ r.avail N s.count := hknows
  constructor
  · show ∀ t : Role, 0 ≤ t.avail N ((r.process N).update s.count)
    rw [Role.forall_iff r]
    omega
  · apply (Role.forall_update_iff (Role.KnowsAvail N ((r.process N).update s.count)) s.pc r
      .testWake).mpr
    refine ⟨trivial, ?_⟩
    have hold := h.knows r.other
    cases hpc' : s.pc r.other with
    | asleep =>
      -- the update is the first after `count` made the other process sleep
      have hzero := h.avail_of_asleep hpc' (by rw [r.other_other, hpc]; exact id)
      exact Or.inr (Or.inr ⟨rfl, by omega⟩)
    | item | update =>
      rw [hpc'] at hold
      have hold' : 1 ≤ r.other.avail N s.count := hold
      show 1 ≤ r.other.avail N ((r.process N).update s.count)
      omega
    | test | sleep | testWake | wakeup => trivial

theorem Inv.testWake (h : s.Inv N) (hpc : s.pc r = .testWake) :
    (s.goto r (if (r.process N).mustWake s.count then .wakeup else .test)).Inv N := by
  apply h.goto
  · split_ifs <;> trivial
  · intro hother
    have hold := h.knows r.other
    rw [hother, r.other_other, hpc] at hold
    rcases hold with hzero | hwake | ⟨-, hone⟩
    · exact Or.inl hzero
    · cases hwake
    · rw [if_pos ((r.mustWake_iff N s.count).mpr hone)]
      exact Or.inr (Or.inl rfl)

theorem wake_of_asleep (hpc : s.pc r.other = .asleep) (pc : SleepPc) :
    (s.goto r pc).wake r.other = (s.goto r.other .item).goto r pc := by
  have hpc' : (s.goto r pc).pc r.other = .asleep := by
    rw [← hpc]
    exact Function.update_of_ne r.other_ne ..
  rw [wake, if_pos hpc']
  exact congrArg (fun pcs => { s with pc := pcs }) (Function.update_comm r.other_ne.symm ..)

theorem wake_of_ne (hpc : s.pc r.other ≠ .asleep) (pc : SleepPc) :
    (s.goto r pc).wake r.other = s.goto r pc := by
  apply if_neg
  intro hpc'
  apply hpc
  rw [← hpc']
  exact (Function.update_of_ne r.other_ne ..).symm

theorem Inv.wakeup (h : s.Inv N) (hpc : s.pc r = .wakeup) (htime : s.InTime N r) :
    ((s.goto r .test).wake r.other).Inv N := by
  by_cases hother : s.pc r.other = .asleep
  · have hsleep := htime.wakeup hpc hother
    have hwoken : (s.goto r.other .item).Inv N := by
      apply h.goto
      · exact Role.one_le_avail (h.avail r.other) (Bool.eq_false_iff.mp hsleep)
      · intro hself
        rw [r.other_other, hpc] at hself
        cases hself
    rw [wake_of_asleep hother]
    apply hwoken.goto
    · trivial
    · intro hasleep
      rw [show (s.goto r.other .item).pc r.other = .item from Function.update_self ..] at hasleep
      cases hasleep
  · rw [wake_of_ne hother]
    apply h.goto
    · trivial
    · intro hasleep
      exact absurd hasleep hother

theorem Inv.step (h : s.Inv N) (htime : s.InTime N r) (hs : SleepWakeup.step N r s = some s') :
    s'.Inv N := by
  unfold SleepWakeup.step at hs
  cases hpc : s.pc r with
  | test => rw [hpc] at hs; cases hs; exact h.test hpc
  | sleep => rw [hpc] at hs; cases hs; exact h.sleep hpc htime
  | asleep => rw [hpc] at hs; cases hs
  | item => rw [hpc] at hs; cases hs; exact h.item hpc
  | update => rw [hpc] at hs; cases hs; exact h.update hpc
  | testWake => rw [hpc] at hs; cases hs; exact h.testWake hpc
  | wakeup => rw [hpc] at hs; cases hs; exact h.wakeup hpc htime

theorem Inv.init (N : ℕ) : Inv N (sleepWakeup N).init where
  avail := by
    intro r
    cases r with
    | producer => show 0 ≤ (N : ℤ) - 0; omega
    | consumer => exact le_rfl
  knows := fun _ => trivial

theorem inv_of_reach (h : (sleepWakeup N).Reach (fun r s => s.InTime N r) s) : s.Inv N :=
  h.invariant (Inv.init N) fun _ _ _ hinv htime hs => hinv.step htime hs

theorem Inv.correct (h : s.Inv N) (hN : 1 ≤ N) : s.Correct N where
  awake := by
    rintro ⟨hproducer, hconsumer⟩
    have hfull := h.avail_of_asleep hproducer (by rw [Role.other, hconsumer]; exact id)
    have hempty := h.avail_of_asleep hconsumer (by rw [Role.other, hproducer]; exact id)
    have hsum := Role.producer.avail_add_other N s.count
    rw [hfull, Role.other, hempty] at hsum
    omega
  count := by
    have hfree : 0 ≤ (N : ℤ) - s.count := h.avail .producer
    have hitems : 0 ≤ s.count := h.avail .consumer
    omega

/-! ## The steps that come too late -/

/-- Process `r` runs alone: the other one is asleep although it need not be, and `r` is not going to
    wake it up. -/
structure Alone (N : ℕ) (r : Role) (s : SleepWakeup) : Prop where
  asleep : s.pc r.other = .asleep
  awake : 1 ≤ r.other.avail N s.count
  wakeup : s.pc r ≠ .wakeup
  testWake : s.pc r = .testWake → r.other.avail N s.count ≠ 1
  avail : 0 ≤ r.avail N s.count
  item : s.pc r = .item ∨ s.pc r = .update → 1 ≤ r.avail N s.count

/-- A bound for the steps that `r` makes alone. -/
def left (N : ℕ) (r : Role) (s : SleepWakeup) : ℕ :=
  5 * (r.avail N s.count).toNat + (s.pc r).rank

/-- The rule for a step of `r` alone that does not update `count`. -/
theorem Alone.goto (h : s.Alone N r) {pc : SleepPc} (hpc : ¬ pc.Wakes)
    (hitem : pc = .item ∨ pc = .update → 1 ≤ r.avail N s.count)
    (hrank : pc.rank < (s.pc r).rank) :
    (s.goto r pc).Alone N r ∧ (s.goto r pc).left N r < s.left N r := by
  have hself : (s.goto r pc).pc r = pc := Function.update_self ..
  have hother : (s.goto r pc).pc r.other = s.pc r.other := Function.update_of_ne r.other_ne ..
  constructor
  · refine ⟨hother.trans h.asleep, h.awake, ?_, ?_, h.avail, ?_⟩
    · rw [hself]
      rintro rfl
      exact hpc trivial
    · rw [hself]
      rintro rfl
      exact absurd trivial hpc
    · rwa [hself]
  · unfold left
    rw [hself]
    exact Nat.add_lt_add_left hrank _

theorem Alone.update (h : s.Alone N r) (hpc : s.pc r = .update) :
    Alone N r { s.goto r .testWake with count := (r.process N).update s.count } ∧
      left N r { s.goto r .testWake with count := (r.process N).update s.count } < s.left N r := by
  have hself := r.avail_update N s.count
  have hother := r.avail_other_update N s.count
  have hawake := h.awake
  have hitem := h.item (Or.inr hpc)
  have hpc' : (s.goto r .testWake).pc r = .testWake := Function.update_self ..
  constructor
  · refine ⟨(Function.update_of_ne r.other_ne ..).trans h.asleep, ?_, ?_, ?_, ?_, ?_⟩
    · show 1 ≤ r.other.avail N ((r.process N).update s.count)
      omega
    · show (s.goto r .testWake).pc r ≠ .wakeup
      rw [hpc']
      exact nofun
    · intro _
      show r.other.avail N ((r.process N).update s.count) ≠ 1
      omega
    · show 0 ≤ r.avail N ((r.process N).update s.count)
      omega
    · show (s.goto r .testWake).pc r = .item ∨ (s.goto r .testWake).pc r = .update → _
      rw [hpc']
      exact nofun
  · show 5 * (r.avail N ((r.process N).update s.count)).toNat + ((s.goto r .testWake).pc r).rank <
      5 * (r.avail N s.count).toNat + (s.pc r).rank
    rw [hpc', hpc, hself]
    show 5 * (r.avail N s.count - 1).toNat + 4 < 5 * (r.avail N s.count).toNat + 1
    omega

theorem Alone.step (h : s.Alone N r) (hpc : s.pc r ≠ .asleep) :
    ∃ s', SleepWakeup.step N r s = some s' ∧ s'.Alone N r ∧ s'.left N r < s.left N r := by
  unfold SleepWakeup.step
  cases hr : s.pc r with
  | asleep => exact absurd hr hpc
  | wakeup => exact absurd hr h.wakeup
  | update => exact ⟨_, rfl, h.update hr⟩
  | sleep => exact ⟨_, rfl, h.goto id nofun (by rw [hr]; decide)⟩
  | item =>
    have hitem := h.item (Or.inl hr)
    exact ⟨_, rfl, h.goto id (fun _ => hitem) (by rw [hr]; decide)⟩
  | testWake =>
    have hwake : ¬ (r.process N).mustWake s.count = true := by
      intro hwake
      exact h.testWake hr ((r.mustWake_iff N s.count).mp hwake)
    refine ⟨_, rfl, ?_⟩
    rw [if_neg hwake]
    exact h.goto id nofun (by rw [hr]; decide)
  | test =>
    refine ⟨_, rfl, ?_⟩
    split_ifs with hsleep
    · exact h.goto id nofun (by rw [hr]; decide)
    · exact h.goto id (fun _ => Role.one_le_avail h.avail hsleep) (by rw [hr]; decide)

/-- A process that runs alone falls asleep too. -/
theorem Alone.stuck (h : s.Alone N r) : (sleepWakeup N).LeadsTo Stuck s := by
  induction hn : s.left N r using Nat.strong_induction_on generalizing s with
  | h n ih =>
    by_cases hpc : s.pc r = .asleep
    · have hboth : ∀ t, s.pc t = .asleep := (Role.forall_iff r).mpr ⟨hpc, h.asleep⟩
      exact ⟨[], s, rfl, hboth .producer, hboth .consumer⟩
    · obtain ⟨s', hs, halone, hlt⟩ := h.step hpc
      exact (ih (s'.left N r) (hn ▸ hlt) halone rfl).of_step hs

/-- The process `r` falls asleep too late: after that the other one runs alone. -/
theorem Inv.late_sleep (h : s.Inv N) (hsleep : ¬ (r.process N).mustSleep s.count = true)
    (hwake : ¬ s.AboutToWake N r.other) : (sleepWakeup N).LeadsTo Stuck (s.goto r .asleep) := by
  have hself : (s.goto r .asleep).pc r = .asleep := Function.update_self ..
  have hother : (s.goto r .asleep).pc r.other = s.pc r.other := Function.update_of_ne r.other_ne ..
  have hknows := h.knows r.other
  rw [r.other_other] at hknows
  refine Alone.stuck (r := r.other) ⟨?_, ?_, ?_, ?_, h.avail r.other, ?_⟩
  · rwa [r.other_other]
  · rw [r.other_other]
    exact Role.one_le_avail (h.avail r) hsleep
  · rw [hother]
    intro hpc'
    exact hwake (Or.inl hpc')
  · rw [hother, r.other_other]
    intro hpc' hone
    apply hwake
    refine Or.inr ⟨hpc', (r.other.mustWake_iff N s.count).mpr ?_⟩
    rw [r.other_other]
    exact hone
  · rw [hother]
    intro hpc'
    rcases hpc' with hitem | hupdate
    · rwa [hitem] at hknows
    · rwa [hupdate] at hknows

/-- A process that is woken up too late updates `count` although it has to sleep. -/
theorem late_item (hpc : s.pc r = .item) (havail : r.avail N s.count = 0) :
    (sleepWakeup N).LeadsTo (fun u => ¬ u.Correct N) s := by
  have hpc' : (s.goto r .update).pc r = .update := Function.update_self ..
  refine ⟨[r, r], { (s.goto r .update).goto r .testWake with
    count := (r.process N).update s.count }, ?_, ?_⟩
  · have hfirst : (sleepWakeup N).step r s = some (s.goto r .update) := by
      show SleepWakeup.step N r s = _
      rw [SleepWakeup.step, hpc]
    have hsecond : (sleepWakeup N).step r (s.goto r .update) =
        some { (s.goto r .update).goto r .testWake with count := (r.process N).update s.count } := by
      show SleepWakeup.step N r (s.goto r .update) = _
      rw [SleepWakeup.step, hpc']
      rfl
    rw [System.run, hfirst, Option.bind_some, System.run, hsecond, Option.bind_some, System.run]
  · intro hcorrect
    have hcount := hcorrect.count
    have hself := r.avail_update N s.count
    rw [havail] at hself
    cases r with
    | producer =>
      have hfree : (N : ℤ) - (s.count + 1) = 0 - 1 := hself
      have hle : s.count + 1 ≤ N := hcount.2
      omega
    | consumer =>
      have hitems : s.count - 1 = 0 - 1 := hself
      have hle : 0 ≤ s.count - 1 := hcount.1
      omega

/-- After a step that does not come in time, the run can still go wrong. -/
theorem Inv.late_step (h : s.Inv N) (hlate : ¬ s.InTime N r)
    (hs : SleepWakeup.step N r s = some s') : (sleepWakeup N).LeadsTo (fun u => ¬ u.Correct N) s' := by
  by_cases hsleep : s.pc r = .sleep →
      (r.process N).mustSleep s.count = true ∨ s.AboutToWake N r.other
  · have hwakeup : ¬ (s.pc r = .wakeup → s.pc r.other = .asleep →
        (r.other.process N).mustSleep s.count = false) := fun hwakeup => hlate ⟨hsleep, hwakeup⟩
    obtain ⟨hpc, hwoken⟩ := Classical.not_imp.mp hwakeup
    obtain ⟨hother, hmust⟩ := Classical.not_imp.mp hwoken
    rw [SleepWakeup.step, hpc] at hs
    cases hs
    rw [wake_of_asleep hother]
    apply late_item (r := r.other)
    · show (Function.update (s.goto r.other .item).pc r .test) r.other = .item
      rw [Function.update_of_ne r.other_ne]
      exact Function.update_self ..
    · exact (r.other.mustSleep_iff N s.count).mp (Bool.eq_true_of_not_eq_false hmust)
  · obtain ⟨hpc, hlost⟩ := Classical.not_imp.mp hsleep
    obtain ⟨hmust, hwake⟩ := not_or.mp hlost
    rw [SleepWakeup.step, hpc] at hs
    cases hs
    exact (h.late_sleep hmust hwake).mono fun u hu hcorrect => hcorrect.awake hu

/-! ## Every run -/

/-- In a run whose steps all come in time, the processes never sleep both and `count` stays within
    its bounds. -/
theorem sleep_wakeup_in_time (N : ℕ) (hN : 1 ≤ N) (s : SleepWakeup)
    (h : (sleepWakeup N).Reach (fun r s => s.InTime N r) s) : s.Correct N :=
  (inv_of_reach h).correct hN

instance (N : ℕ) (r : Role) (s : SleepWakeup) : Decidable (s.InTime N r) :=
  have : Decidable (s.AboutToWake N r.other) := by unfold AboutToWake; infer_instance
  decidable_of_iff ((s.pc r = .sleep →
      (r.process N).mustSleep s.count = true ∨ s.AboutToWake N r.other) ∧
      (s.pc r = .wakeup → s.pc r.other = .asleep → (r.other.process N).mustSleep s.count = false))
    ⟨fun h => ⟨h.1, h.2⟩, fun h => ⟨h.sleep, h.wakeup⟩⟩

/-- The consumer sleeps, is woken up and removes the first of two items. -/
def oneWakeup : List Role :=
  let p := Role.producer
  let c := Role.consumer
  [c, c, p, p, p, p, p, p, p, p, c, c, c, c]

theorem sleep_wakeup_in_time_run : ∃ s,
    (sleepWakeup 2).runWith (fun r s => s.InTime 2 r) oneWakeup (sleepWakeup 2).init = some s ∧
      s.count = 1 ∧ s.Correct 2 := by
  have hcount : ((sleepWakeup 2).runWith (fun r s => s.InTime 2 r) oneWakeup
      (sleepWakeup 2).init).map (·.count) = some 1 := by decide +kernel
  obtain ⟨s, hrun, hs⟩ := Option.map_eq_some_iff.mp hcount
  have hreach := (System.Reach.runWith .init hrun).mono fun _ _ => of_decide_eq_true
  exact ⟨s, hrun, hs, sleep_wakeup_in_time 2 (by decide) s hreach⟩

/-- After any other step, a run can still go wrong. -/
theorem late_step_fails (h : (sleepWakeup N).Reach (fun r s => s.InTime N r) s)
    (hlate : ¬ s.InTime N r) (hs : SleepWakeup.step N r s = some s') :
    (sleepWakeup N).LeadsTo (fun u => ¬ u.Correct N) s' :=
  (inv_of_reach h).late_step hlate hs

/-- The wakeup for the first item is lost while the consumer is about to sleep; then the producer
    fills the buffer and sleeps too. -/
theorem lost_wakeup (N : ℕ) (hN : 1 ≤ N) : (sleepWakeup N).LeadsTo Stuck (sleepWakeup N).init := by
  have hne : ¬ (0 : ℤ) = N := by omega
  obtain ⟨s, hrun, hcount, hproducer, hconsumer⟩ : ∃ s,
      (sleepWakeup N).run [.consumer, .producer, .producer, .producer, .producer, .producer]
        (sleepWakeup N).init = some s ∧
      s.count = 1 ∧ s.pc .producer = .test ∧ s.pc .consumer = .sleep := by
    simp [System.run, sleepWakeup, step, goto, wake, Role.process, SleepBody.produer,
      SleepBody.consumer, Role.other, hne]
  have hsleep : SleepWakeup.step N .consumer s = some (s.goto .consumer .asleep) := by
    rw [SleepWakeup.step, hconsumer]
  have halone : (s.goto .consumer .asleep).Alone N .producer := by
    have hpc : (s.goto .consumer .asleep).pc .producer = .test := hproducer
    refine ⟨rfl, hcount.ge, ?_, ?_, ?_, ?_⟩
    · intro hwakeup
      cases hpc.symm.trans hwakeup
    · intro htest
      cases hpc.symm.trans htest
    · show 0 ≤ (N : ℤ) - s.count
      omega
    · rintro (hitem | hupdate)
      · cases hpc.symm.trans hitem
      · cases hpc.symm.trans hupdate
  exact (halone.stuck.of_step hsleep).of_run hrun

/-- The buffer has one slot. -/
def lostWakeup : List Role :=
  let p := Role.producer
  let c := Role.consumer
  [c, p, p, p, p, p, c, p, p]

theorem lost_wakeup_run : ∃ s,
    (sleepWakeup 1).run lostWakeup (sleepWakeup 1).init = some s ∧ ¬ s.Correct 1 :=
  ⟨_, rfl, fun h => h.awake ⟨rfl, rfl⟩⟩

end SleepWakeup

end IntroOS.Preparation
