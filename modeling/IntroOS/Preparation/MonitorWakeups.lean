import IntroOS.Preparation.Monitor

/-!
# Early returns from `wait()`

The monitor of `Preparation.Monitor` with everything that the Java semantics of `wait()` allows. A
thread can leave the wait set without being notified, spuriously or because it is interrupted, and
then competes for the monitor like one that has been notified. If the thread is interrupted before
`wait()`, `wait()` does not wait at all. `go_to_sleep` swallows the `InterruptedException`, and its
callers do not test `count` again (lines 44 and 53).

* Interrupts can come at any time, so it is not recorded whether a thread is interrupted. One that
  comes when the thread has left the wait set changes nothing, as `wait()` is over either way.

Main results:

* `Wakeups.Follows.step`: as long as a thread that returns early does not have to sleep any more,
  the monitor does what the monitor without early returns does.
* `Wakeups.early_returns_consistent`: then `count` stays within its bounds and no value is lost.
* `Wakeups.early_return_fails`: any other early return is followed by a method that takes `count`
  out of its bounds.
-/

namespace IntroOS.Preparation

open Concurrency

/-! ## The model -/

/-- The monitor, and whether the last `wait()` of a thread has ended without a `notify()`. -/
structure Wakeups where
  mon : Monitor
  early : Role → Bool

inductive WakeupAct
  /-- a step of a thread -/
  | thread (a : MonitorAct)
  /-- a spurious wakeup -/
  | spurious (r : Role)
  /-- an `InterruptedException` in `wait()` (line 63) -/
  | interrupt (r : Role)

namespace Wakeups

/-- The thread `r` leaves the wait set without being notified. -/
def leaveEarly (r : Role) (s : Wakeups) : Wakeups where
  mon := s.mon.goto r ⟨.notified, (s.mon.threads r).val⟩
  early := Function.update s.early r true

/-- A thread that joins the wait set has not left it yet. -/
def threadStep (N : ℕ) (a : MonitorAct) (s : Wakeups) : Option Wakeups :=
  (Monitor.step N a s.mon).map fun mon =>
    ⟨mon, if s.mon.pc a.r = .sleep then Function.update s.early a.r false else s.early⟩

def spuriousStep (r : Role) (s : Wakeups) : Option Wakeups :=
  if s.mon.pc r = .waiting then some (s.leaveEarly r) else none

def interruptStep (r : Role) (s : Wakeups) : Option Wakeups :=
  match s.mon.pc r with
  | .waiting => some (s.leaveEarly r)
  -- `wait()` throws at once, and the thread keeps the monitor
  | .sleep => some { s with mon := s.mon.goto r ⟨.body, (s.mon.threads r).val⟩ }
  | _ => none

def step (N : ℕ) : WakeupAct → Wakeups → Option Wakeups
  | .thread a => threadStep N a
  | .spurious r => spuriousStep r
  | .interrupt r => interruptStep r

end Wakeups

/-- The monitor, its two threads and their wakeups. -/
def wakeups (N : ℕ) : System Wakeups WakeupAct where
  init := ⟨(monitor N).init, fun _ => false⟩
  step := Wakeups.step N

/-- A thread that returns from `wait()` with this step, without having been notified, does not have
    to sleep. -/
def Wakeups.MayReturn (N : ℕ) : WakeupAct → Wakeups → Prop
  | .thread a, s => s.mon.pc a.r = .notified → s.early a.r = true →
      (a.r.method N).mustSleep s.mon.count = false
  | .spurious _, _ => True
  | .interrupt r, s => s.mon.pc r = .sleep → (r.method N).mustSleep s.mon.count = false

namespace Wakeups

variable {N : ℕ} {s s' : Wakeups} {p p' : Monitor} {r : Role} {a : WakeupAct}

theorem interruptStep_cases (hs : s.interruptStep r = some s') :
    s.mon.pc r = .waiting ∧ s' = s.leaveEarly r ∨
      s.mon.pc r = .sleep ∧ s'.mon = s.mon.goto r ⟨.body, (s.mon.threads r).val⟩ := by
  unfold interruptStep at hs
  cases hpc : s.mon.pc r with
  | waiting => rw [hpc] at hs; cases hs; exact Or.inl ⟨rfl, rfl⟩
  | sleep => rw [hpc] at hs; cases hs; exact Or.inr ⟨rfl, rfl⟩
  | call | enter | test | notified | body | notify | leave => rw [hpc] at hs; cases hs

/-! ## The monitor without early returns -/

/-- What the monitor does without early returns it also does here. -/
theorem reach_of_monitor (h : (monitor N).Reach System.anyStep p) :
    (wakeups N).Reach (MayReturn N) ⟨p, fun _ => false⟩ := by
  induction h with
  | init => exact .init
  | @step a p p' _ _ hs ih =>
    apply ih.step (a := .thread a)
    · intro _ hearly
      cases hearly
    · have hnone : Function.update (fun _ => false) a.r false = fun _ : Role => false :=
        Function.update_eq_self a.r fun _ : Role => false
      show (Monitor.step N a p).map _ = _
      rw [show Monitor.step N a p = some p' from hs, Option.map_some]
      simp only [hnone, ite_self]

/-- The threads `ps` without early returns have come as far as `ts`, but a thread that has left the
    wait set early may still be in it. -/
def Lag (early : Role → Bool) (ts ps : Role → MonitorThread) : Prop :=
  ∀ r, ts r = ps r ∨ (ps r).pc = .waiting ∧ early r = true ∧ ts r = ⟨.notified, (ps r).val⟩

/-- The monitor `p` without early returns has come as far as that of `s`. -/
def Follows (s : Wakeups) (p : Monitor) : Prop :=
  ∃ ts, s.mon = { p with threads := ts } ∧ Lag s.early ts p.threads

section Lag

variable {early early' : Role → Bool} {ts ts' ps ps' : Role → MonitorThread} {th : MonitorThread}

theorem Lag.eq_of_ne (h : Lag early ts ps) (hpc : (ts r).pc ≠ .notified) : ts r = ps r := by
  rcases h r with heq | ⟨-, -, heq⟩
  · exact heq
  · exact absurd (congrArg MonitorThread.pc heq) hpc

/-- The rule for a change of thread `r`. -/
theorem Lag.change (h : Lag early ts ps) (hts : ∀ t, t ≠ r → ts' t = ts t)
    (hps : ∀ t, t ≠ r → ps' t = ps t) (hearly : ∀ t, t ≠ r → early' t = early t)
    (hr : ts' r = ps' r ∨
      (ps' r).pc = .waiting ∧ early' r = true ∧ ts' r = ⟨.notified, (ps' r).val⟩) :
    Lag early' ts' ps' := by
  intro t
  by_cases ht : t = r
  · rw [ht]
    exact hr
  · rw [hts t ht, hps t ht, hearly t ht]
    exact h t

/-- Thread `r` makes the same move in both. -/
theorem Lag.move (h : Lag early ts ps) (hearly : ∀ t, t ≠ r → early' t = early t) :
    Lag early' (Function.update ts r th) (Function.update ps r th) := by
  refine h.change (fun _ ht => Function.update_of_ne ht ..) (fun _ ht => Function.update_of_ne ht ..)
    hearly (Or.inl ?_)
  rw [Function.update_self, Function.update_self]

theorem Lag.leaveEarly (h : Lag early ts ps) (hpc : (ts r).pc = .waiting) :
    Lag (Function.update early r true) (Function.update ts r ⟨.notified, (ts r).val⟩) ps := by
  have heq : ts r = ps r := h.eq_of_ne (by rw [hpc]; exact nofun)
  refine h.change (fun _ ht => Function.update_of_ne ht ..) (fun _ _ => rfl)
    (fun _ ht => Function.update_of_ne ht ..) (Or.inr ?_)
  rw [Function.update_self, Function.update_self, ← heq]
  exact ⟨hpc, rfl, rfl⟩

/-- Thread `r` is notified, which has no effect if it has left the wait set early. -/
theorem Lag.wake (h : Lag early ts p.threads) (r : Role) :
    ∃ ts', Monitor.wake { p with threads := ts } r = { p.wake r with threads := ts' } ∧
      Lag early ts' (p.wake r).threads := by
  by_cases hpc : p.pc r = .waiting
  · have hwake : p.wake r = p.goto r ⟨.notified, (p.threads r).val⟩ := if_pos hpc
    rw [hwake]
    rcases h r with heq | ⟨-, hearly, heq⟩
    · refine ⟨Function.update ts r ⟨.notified, (ts r).val⟩, if_pos ?_, ?_⟩
      · show (ts r).pc = .waiting
        rwa [heq]
      · rw [heq]
        exact h.move fun _ _ => rfl
    · refine ⟨ts, if_neg ?_, ?_⟩
      · show ¬ (ts r).pc = .waiting
        rw [heq]
        exact nofun
      · show Lag early ts (Function.update p.threads r ⟨.notified, (p.threads r).val⟩)
        refine h.change (fun _ _ => rfl) (fun _ ht => Function.update_of_ne ht ..)
          (fun _ _ => rfl) (Or.inl ?_)
        rw [Function.update_self]
        exact heq
  · have hwake : p.wake r = p := if_neg hpc
    rw [hwake]
    refine ⟨ts, if_neg ?_, h⟩
    rcases h r with heq | ⟨hwaiting, -, -⟩
    · show ¬ (ts r).pc = .waiting
      rwa [heq]
    · exact absurd hwaiting hpc

end Lag

theorem Follows.leaveEarly (h : s.Follows p) (hpc : s.mon.pc r = .waiting) :
    (s.leaveEarly r).Follows p := by
  obtain ⟨ts, hmon, hlag⟩ := h
  rw [hmon] at hpc
  refine ⟨_, ?_, hlag.leaveEarly hpc⟩
  rw [Wakeups.leaveEarly, hmon]
  rfl

/-- A thread that is at the same place in both monitors makes the same step. -/
theorem step_of_lag {early early' : Role → Bool} {ts : Role → MonitorThread} {a : MonitorAct}
    {m : Monitor} (hlag : Lag early ts p.threads) (hearly : ∀ t, t ≠ a.r → early' t = early t)
    (heq : ts a.r = p.threads a.r) (hs : Monitor.step N a { p with threads := ts } = some m) :
    ∃ p' ts', Monitor.step N a p = some p' ∧ m = { p' with threads := ts' } ∧
      Lag early' ts' p'.threads := by
  unfold Monitor.step at hs ⊢
  simp only [Monitor.pc, heq] at hs ⊢
  cases hpc : (p.threads a.r).pc with
  | call | test | sleep | leave =>
    simp only [hpc, Option.some.injEq] at hs
    exact ⟨_, _, rfl, hs.symm, hlag.move hearly⟩
  | enter | notified =>
    simp only [hpc, Option.isNone_iff_eq_none, Option.ite_none_right_eq_some,
      Option.some.injEq] at hs
    obtain ⟨hfree, rfl⟩ := hs
    exact ⟨_, _, if_pos (Option.isNone_iff_eq_none.mpr hfree), rfl, hlag.move hearly⟩
  | waiting => simp only [hpc, reduceCtorEq] at hs
  | body =>
    simp only [hpc, Option.some.injEq] at hs
    subst hs
    cases hr : a.r with
    | producer =>
      rw [hr] at heq hearly
      refine ⟨_, _, rfl, ?_, hlag.move hearly⟩
      simp only [Monitor.body, heq]
      rfl
    | consumer =>
      rw [hr] at hearly
      exact ⟨_, _, rfl, rfl, hlag.move hearly⟩
  | notify =>
    simp only [hpc, Option.some.injEq] at hs
    subst hs
    have hmove : Lag early' (Function.update ts a.r ⟨.leave, (p.threads a.r).val⟩)
        (Function.update p.threads a.r ⟨.leave, (p.threads a.r).val⟩) := hlag.move hearly
    by_cases hnotify : (a.r.method N).mustNotify p.count = true
    · obtain ⟨ts', hwake, hlag'⟩ :=
        Lag.wake (p := p.goto a.r ⟨.leave, (p.threads a.r).val⟩) hmove a.r.other
      exact ⟨_, ts', congrArg some (if_pos hnotify), (if_pos hnotify).trans hwake, hlag'⟩
    · exact ⟨_, _, congrArg some (if_neg hnotify), if_neg hnotify, hmove⟩

/-! ## Runs in which a thread returns early only if it does not have to sleep -/

/-- When the monitor is free, a thread that does not have to sleep is not in the wait set. -/
theorem not_waiting_of_free (h : p.Inv N) (hfree : p.owner = none)
    (hsleep : (r.method N).mustSleep p.count = false) : p.pc r ≠ .waiting := by
  intro hpc
  have hknows := h.knows r
  rw [hpc] at hknows
  rcases hknows with hmust | ⟨hother, -⟩
  · rw [hsleep] at hmust
    cases hmust
  · apply h.owned.not_inside hfree r.other
    rw [hother]
    trivial

theorem Follows.threadStep {a : MonitorAct} (h : s.Follows p) (hinv : p.Inv N)
    (hreturn : MayReturn N (.thread a) s) (hs : s.threadStep N a = some s') :
    ∃ p', Monitor.step N a p = some p' ∧ s'.Follows p' := by
  obtain ⟨ts, hmon, hlag⟩ := h
  obtain ⟨m, hm, rfl⟩ := Option.map_eq_some_iff.mp hs
  have heq : ts a.r = p.threads a.r := by
    rcases hlag a.r with heq | ⟨hwaiting, hearly, heq⟩
    · exact heq
    · -- a thread that has returned early gets the monitor
      have hpc : s.mon.pc a.r = .notified := by
        rw [hmon]
        show (ts a.r).pc = .notified
        rw [heq]
      have hsleep := hreturn hpc hearly
      rw [Monitor.step, hpc] at hm
      obtain ⟨hfree, -⟩ := Option.ite_none_right_eq_some.mp hm
      rw [hmon] at hsleep hfree
      exact absurd hwaiting (not_waiting_of_free hinv (Option.isNone_iff_eq_none.mp hfree) hsleep)
  rw [hmon] at hm
  have hearly : ∀ t, t ≠ a.r → (if s.mon.pc a.r = .sleep then Function.update s.early a.r false
      else s.early) t = s.early t := by
    intro t ht
    split_ifs
    · exact Function.update_of_ne ht ..
    · rfl
  obtain ⟨p', ts', hp', hm', hlag'⟩ := step_of_lag hlag hearly heq hm
  exact ⟨p', hp', ts', hm', hlag'⟩

/-- The monitor without early returns makes the same step or none. -/
theorem Follows.step (h : s.Follows p) (hinv : p.Inv N) (hreturn : MayReturn N a s)
    (hs : Wakeups.step N a s = some s') :
    ∃ p', s'.Follows p' ∧ (p' = p ∨ ∃ b, Monitor.step N b p = some p') := by
  cases a with
  | thread b =>
    obtain ⟨p', hp', hfollows⟩ := h.threadStep hinv hreturn hs
    exact ⟨p', hfollows, Or.inr ⟨b, hp'⟩⟩
  | spurious r =>
    obtain ⟨hpc, hs⟩ := Option.ite_none_right_eq_some.mp hs
    cases hs
    exact ⟨p, h.leaveEarly hpc, Or.inl rfl⟩
  | interrupt r =>
    rcases interruptStep_cases hs with ⟨hpc, rfl⟩ | ⟨hpc, -⟩
    · exact ⟨p, h.leaveEarly hpc, Or.inl rfl⟩
    · -- the thread has just tested `count`
      obtain ⟨ts, hmon, hlag⟩ := h
      have hsleep := hreturn hpc
      rw [hmon] at hpc hsleep
      have hts : (ts r).pc = .sleep := hpc
      have heq : ts r = p.threads r := by
        apply hlag.eq_of_ne
        intro hnotified
        cases hts.symm.trans hnotified
      have hps : p.pc r = .sleep := by rw [Monitor.pc, ← heq, hts]
      have hknows := hinv.knows r
      rw [hps] at hknows
      cases hknows.symm.trans hsleep

theorem follows_of_reach (h : (wakeups N).Reach (MayReturn N) s) (hN : 1 ≤ N) :
    ∃ p, (monitor N).Reach System.anyStep p ∧ s.Follows p := by
  induction h with
  | init => exact ⟨_, .init, _, rfl, fun _ => Or.inl rfl⟩
  | step _ hreturn hs ih =>
    obtain ⟨p, hp, hfollows⟩ := ih
    obtain ⟨p', hfollows', rfl | ⟨b, hb⟩⟩ := hfollows.step (Monitor.inv_of_reach hN hp) hreturn hs
    · exact ⟨p', hp, hfollows'⟩
    · exact ⟨p', .step hp trivial hb, hfollows'⟩

/-- In a run in which a thread that returns early from `wait()` never has to sleep any more, the
    ring always holds the values that have been inserted and not yet removed. -/
theorem early_returns_consistent (N : ℕ) (hN : 1 ≤ N) (s : Wakeups)
    (h : (wakeups N).Reach (MayReturn N) s) : s.mon.Consistent N := by
  obtain ⟨p, hp, ts, hmon, -⟩ := follows_of_reach h hN
  obtain ⟨l, hl⟩ := (Monitor.inv_of_reach hN hp).queue
  have hconsistent := hl.consistent
  rw [hmon]
  exact ⟨hconsistent.count, hconsistent.lo, hconsistent.hi, hconsistent.order⟩

instance (N : ℕ) (s : Wakeups) : DecidablePred fun a => MayReturn N a s
  | .thread _ => inferInstanceAs (Decidable (_ → _ → _))
  | .spurious _ => .isTrue trivial
  | .interrupt _ => inferInstanceAs (Decidable (_ → _))

/-- The consumer wakes up spuriously, but a value has been inserted when it has the monitor. -/
def harmlessWakeup : List WakeupAct :=
  let c : WakeupAct := .thread ⟨.consumer, 0⟩
  let p : WakeupAct := .thread ⟨.producer, 7⟩
  [c, c, c, c, .spurious .consumer, p, p, p, p, p, p, c, c]

theorem early_returns_consistent_run : ∃ s,
    (wakeups 1).runWith (fun a s => MayReturn 1 a s) harmlessWakeup (wakeups 1).init = some s ∧
      s.mon.removed = [7] ∧ s.mon.Consistent 1 := by
  have hremoved : ((wakeups 1).runWith (fun a s => MayReturn 1 a s) harmlessWakeup
      (wakeups 1).init).map (·.mon.removed) = some [7] := by decide +kernel
  obtain ⟨s, hrun, hs⟩ := Option.map_eq_some_iff.mp hremoved
  have hreach := (System.Reach.runWith .init hrun).mono fun _ _ => of_decide_eq_true
  exact ⟨s, hrun, hs, early_returns_consistent 1 le_rfl s hreach⟩

/-- The consumer wakes up spuriously and removes from the empty ring. -/
def earlyReturn : List WakeupAct :=
  let c : WakeupAct := .thread ⟨.consumer, 0⟩
  [c, c, c, c, .spurious .consumer, c, c]

theorem early_return_run : ∃ s, (wakeups 1).run earlyReturn (wakeups 1).init = some s ∧
    s.mon.inserted = [] ∧ s.mon.removed = [0] ∧ ¬ s.mon.Consistent 1 := by
  refine ⟨_, rfl, rfl, rfl, ?_⟩
  intro hconsistent
  exact absurd hconsistent.count.1 (by decide)

/-! ## Early returns of a thread that has to sleep -/

/-- A thread that goes on although it has to sleep takes `count` out of its bounds. -/
theorem not_consistent_of_body (hpc : s.mon.pc r = .body)
    (hsleep : (r.method N).mustSleep s.mon.count = true) :
    (wakeups N).LeadsTo (fun u => ¬ u.mon.Consistent N) s := by
  have hstep : (wakeups N).step (.thread ⟨r, 0⟩) s = some ⟨s.mon.body N r, s.early⟩ := by
    show (Monitor.step N ⟨r, 0⟩ s.mon).map _ = _
    rw [Monitor.step, hpc]
    rfl
  refine System.LeadsTo.of_step hstep ⟨[], _, rfl, ?_⟩
  intro hconsistent
  have hcount := hconsistent.count
  cases r with
  | producer =>
    have hfull : s.mon.count = N := beq_iff_eq.mp hsleep
    have hle : s.mon.count + 1 ≤ N := hcount.2
    omega
  | consumer =>
    have hempty : s.mon.count = 0 := beq_iff_eq.mp hsleep
    have hle : 0 ≤ s.mon.count - 1 := hcount.1
    omega

/-- After any other early return, the next step of the thread takes `count` out of its bounds. -/
theorem early_return_fails (hreturn : ¬ MayReturn N a s) (hs : Wakeups.step N a s = some s') :
    (wakeups N).LeadsTo (fun u => ¬ u.mon.Consistent N) s' := by
  cases a with
  | thread b =>
    obtain ⟨hpc, hrest⟩ := Classical.not_imp.mp hreturn
    obtain ⟨-, hsleep⟩ := Classical.not_imp.mp hrest
    obtain ⟨m, hm, rfl⟩ := Option.map_eq_some_iff.mp hs
    rw [Monitor.step, hpc] at hm
    obtain ⟨-, hm⟩ := Option.ite_none_right_eq_some.mp hm
    cases hm
    apply not_consistent_of_body (r := b.r)
    · show (Function.update s.mon.threads b.r _ b.r).pc = .body
      rw [Function.update_self]
    · exact Bool.eq_true_of_not_eq_false hsleep
  | spurious r => exact absurd trivial hreturn
  | interrupt r =>
    obtain ⟨hpc, hsleep⟩ := Classical.not_imp.mp hreturn
    rcases interruptStep_cases hs with ⟨hwaiting, -⟩ | ⟨-, hmon⟩
    · exact absurd (hpc.symm.trans hwaiting) nofun
    · apply not_consistent_of_body (r := r)
      · rw [hmon, Monitor.pc_goto, Function.update_self]
      · rw [hmon]
        exact Bool.eq_true_of_not_eq_false hsleep

end Wakeups

end IntroOS.Preparation
