import Mathlib

/-!
# Transition systems and their runs

A `System` has a first state and deterministic steps, one for each action; the
nondeterminism of a schedule is the choice of the next action. `run` executes a
schedule, `Reach guard` are the states that runs reach whose steps all meet `guard`,
a condition on the action and the state before it.

Main results:

* `Reach.invariant`: the induction rule, from one step to every run.
* `reach_of_run`: a schedule that can be executed reaches its last state.
* `LeadsTo`: what a run can still come to.
* `run_iff`: from what every step keeps exactly under a condition, to every schedule.
* `sum_update_add`: counting over the threads.
-/

namespace IntroOS.Concurrency

/-- A transition system with states `σ` and actions `Act`. -/
structure System (σ Act : Type*) where
  init : σ
  step : Act → σ → Option σ

namespace System

variable {σ Act : Type*} (S : System σ Act)

/-- The state after the schedule `as` from `s`; `none` if an action is not possible. -/
def run : List Act → σ → Option σ
  | [], s => some s
  | a :: as, s => (S.step a s).bind (run as)

theorem run_append (as bs : List Act) (s : σ) :
    S.run (as ++ bs) s = (S.run as s).bind (S.run bs) := by
  induction as generalizing s with
  | nil => rfl
  | cons a as ih =>
    rw [List.cons_append, run, run, Option.bind_assoc]
    exact congrArg _ (funext ih)

/-- The condition on steps that every step meets. -/
def anyStep : Act → σ → Prop := fun _ _ => True

/-- The states reached by the runs all of whose steps meet `guard`. -/
inductive Reach (guard : Act → σ → Prop) : σ → Prop
  | init : Reach guard S.init
  | step {a : Act} {s s' : σ} : Reach guard s → guard a s → S.step a s = some s' → Reach guard s'

/-- Every step of the schedule `as` from `s` meets `guard`. -/
def Meets (guard : Act → σ → Prop) : List Act → σ → Prop
  | [], _ => True
  | a :: as, s => guard a s ∧ ∀ s', S.step a s = some s' → Meets guard as s'

variable {S} {guard : Act → σ → Prop}

/-- A property of the first state that every step keeps holds in every state reached. -/
theorem Reach.invariant {I : σ → Prop} (h0 : I S.init)
    (hstep : ∀ a s s', I s → guard a s → S.step a s = some s' → I s') {s : σ}
    (h : S.Reach guard s) : I s := by
  induction h with
  | init => exact h0
  | step _ hg hs ih => exact hstep _ _ _ ih hg hs

theorem Reach.mono {guard' : Act → σ → Prop} (hg : ∀ a s, guard a s → guard' a s) {s : σ}
    (h : S.Reach guard s) : S.Reach guard' s := by
  induction h with
  | init => exact .init
  | step _ ha hs ih => exact .step ih (hg _ _ ha) hs

theorem Reach.run {as : List Act} {s s' : σ} (h : S.Reach guard s) (hm : S.Meets guard as s)
    (hr : S.run as s = some s') : S.Reach guard s' := by
  induction as generalizing s with
  | nil => cases hr; exact h
  | cons a as ih =>
    obtain ⟨u, hu, hr⟩ := Option.bind_eq_some_iff.mp hr
    exact ih (h.step hm.1 hu) (hm.2 u hu) hr

/-- What every step keeps, a run from any state keeps. -/
theorem run_keeps {I : σ → Prop} (hI : ∀ a s s', I s → S.step a s = some s' → I s')
    {as : List Act} {s s' : σ} (h : I s) (hr : S.run as s = some s') : I s' := by
  induction as generalizing s with
  | nil => cases hr; exact h
  | cons a as ih =>
    obtain ⟨u, hu, hr⟩ := Option.bind_eq_some_iff.mp hr
    exact ih (hI a s u h hu) hr

theorem meets_anyStep (as : List Act) (s : σ) : S.Meets anyStep as s := by
  induction as generalizing s with
  | nil => trivial
  | cons a as ih => exact ⟨trivial, fun u _ => ih u⟩

/-- An executed schedule reaches its last state. -/
theorem reach_of_run {as : List Act} {s : σ} (hr : S.run as S.init = some s) :
    S.Reach anyStep s :=
  Reach.run .init (meets_anyStep as _) hr

variable (S) in
/-- Some schedule leads from `s` to a state with the property `P`. -/
def LeadsTo (P : σ → Prop) (s : σ) : Prop := ∃ as s', S.run as s = some s' ∧ P s'

theorem LeadsTo.of_run {P : σ → Prop} {as : List Act} {s s' : σ} (hr : S.run as s = some s')
    (h : S.LeadsTo P s') : S.LeadsTo P s := by
  obtain ⟨bs, u, hrest, hu⟩ := h
  refine ⟨as ++ bs, u, ?_, hu⟩
  rw [run_append, hr]
  exact hrest

theorem LeadsTo.of_step {P : σ → Prop} {a : Act} {s s' : σ} (hs : S.step a s = some s')
    (h : S.LeadsTo P s') : S.LeadsTo P s := by
  have hr : S.run [a] s = some s' := by rw [run, hs]; rfl
  exact h.of_run hr

theorem LeadsTo.mono {P Q : σ → Prop} (hPQ : ∀ s, P s → Q s) {s : σ} (h : S.LeadsTo P s) :
    S.LeadsTo Q s := by
  obtain ⟨as, u, hr, hu⟩ := h
  exact ⟨as, u, hr, hPQ u hu⟩

/-- If a step keeps `R` exactly when it meets `guard`, a schedule does when all its steps do.
    The property `I`, which every step keeps, may be used. -/
theorem run_iff {I R : σ → Prop} (hI : ∀ a s s', I s → S.step a s = some s' → I s')
    (hR : ∀ a s s', I s → S.step a s = some s' → (R s' ↔ R s ∧ guard a s)) {as : List Act}
    {s s' : σ} (h : I s) (hr : S.run as s = some s') : R s' ↔ R s ∧ S.Meets guard as s := by
  induction as generalizing s with
  | nil =>
    cases hr
    exact (and_iff_left trivial).symm
  | cons a as ih =>
    obtain ⟨u, hu, hr⟩ := Option.bind_eq_some_iff.mp hr
    have hrest : (∀ t, S.step a s = some t → S.Meets guard as t) ↔ S.Meets guard as u :=
      ⟨fun hm => hm u hu, fun hm t ht => by rw [hu] at ht; cases ht; exact hm⟩
    rw [ih (hI a s u h hu) hr, hR a s u h hu, and_assoc, Meets, hrest]

/-- The state after the schedule `as` from `s`, as far as its steps pass the test `check`. -/
def runWith (S : System σ Act) (check : Act → σ → Bool) : List Act → σ → Option σ
  | [], s => some s
  | a :: as, s => if check a s then (S.step a s).bind (runWith S check as) else none

theorem Reach.runWith {check : Act → σ → Bool} {as : List Act} {s s' : σ}
    (h : S.Reach (fun a s => check a s = true) s) (hr : S.runWith check as s = some s') :
    S.Reach (fun a s => check a s = true) s' := by
  induction as generalizing s with
  | nil => cases hr; exact h
  | cons a as ih =>
    rw [System.runWith, Option.ite_none_right_eq_some] at hr
    obtain ⟨u, hu, hr⟩ := Option.bind_eq_some_iff.mp hr.2
    exact ih (h.step (by simp_all) hu) hr

end System

/-- A sum over the threads, after one of them has changed. -/
theorem sum_update_add {ι α : Type*} [Fintype ι] [DecidableEq ι] (f : α → ℕ) (g : ι → α) (i : ι)
    (x : α) : ∑ j, f (Function.update g i x j) + f (g i) = ∑ j, f (g j) + f x := by
  have hrest : ∑ j ∈ Finset.univ.erase i, f (Function.update g i x j) =
      ∑ j ∈ Finset.univ.erase i, f (g j) :=
    Finset.sum_congr rfl fun j hj => by rw [Function.update_of_ne (Finset.ne_of_mem_erase hj)]
  have hnew := Finset.add_sum_erase Finset.univ (fun j => f (Function.update g i x j))
    (Finset.mem_univ i)
  have hold := Finset.add_sum_erase Finset.univ (fun j => f (g j)) (Finset.mem_univ i)
  simp only [Function.update_self] at hnew
  omega

/-- For the numerals of `Fin 2` in runs with two threads. -/
instance neZeroTwo : NeZero (2 : ℕ) := ⟨two_ne_zero⟩

end IntroOS.Concurrency
