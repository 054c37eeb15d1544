import IntroOS.Concurrency.System

/-!
# Runs paid for by a potential

A potential on the states of a system goes down by at least one with every step, except that an
event may raise it again, by less than `c`. So a run is as long as its events and the potential at
its start allow, whatever the schedule: between two events there are not many steps.

Main results:

* `length_le_of_count`: the length of a run, by the events in it.
* `eq_add_count`: a counter in the state counts the events.
-/

namespace IntroOS.Concurrency.System

variable {σ Act : Type*} (S : System σ Act)

/-- How many steps of the schedule are events, as far as it can be executed. -/
def count (event : Act → σ → Bool) : List Act → σ → ℕ
  | [], _ => 0
  | a :: as, s => (event a s).toNat + ((S.step a s).map (count event as)).getD 0

variable {S} {event : Act → σ → Bool} {as : List Act} {s s' : σ} {I : σ → Prop}

theorem count_cons {a : Act} (hs : S.step a s = some s') :
    S.count event (a :: as) s = (event a s).toNat + S.count event as s' := by
  rw [count, hs, Option.map_some, Option.getD_some]

/-- Every step is paid for: by the potential that it takes away, or by `c` for an event. -/
theorem length_le_of_count {Φ : σ → ℕ} {c : ℕ} (hI : ∀ a s s', I s → S.step a s = some s' → I s')
    (hstep : ∀ a s s', I s → S.step a s = some s' → Φ s' + 1 ≤ Φ s + c * (event a s).toNat)
    (h : I s) (hr : S.run as s = some s') : Φ s' + as.length ≤ Φ s + c * S.count event as s := by
  induction as generalizing s with
  | nil =>
    cases hr
    exact Nat.le_add_right ..
  | cons a as ih =>
    obtain ⟨u, hu, hr⟩ := Option.bind_eq_some_iff.mp hr
    have hfirst := hstep a s u h hu
    have hrest := ih (hI a s u h hu) hr
    rw [count_cons hu, List.length_cons, Nat.mul_add]
    omega

/-- What each event increases by one, and no other step changes. -/
theorem eq_add_count {done : σ → ℕ}
    (hstep : ∀ a s s', S.step a s = some s' → done s' = done s + (event a s).toNat)
    (hr : S.run as s = some s') : done s' = done s + S.count event as s := by
  induction as generalizing s with
  | nil =>
    cases hr
    rfl
  | cons a as ih =>
    obtain ⟨u, hu, hr⟩ := Option.bind_eq_some_iff.mp hr
    rw [count_cons hu, ih hr, hstep a s u hu, Nat.add_assoc]

/-- Events that are seen from the action alone. -/
theorem count_eq_countP {event : Act → Bool} (hr : S.run as s = some s') :
    S.count (fun a _ => event a) as s = as.countP event := by
  induction as generalizing s with
  | nil => rfl
  | cons a as ih =>
    obtain ⟨u, hu, hr⟩ := Option.bind_eq_some_iff.mp hr
    rw [count_cons hu, ih hr, List.countP_cons]
    cases event a <;> simp [Nat.add_comm]

end IntroOS.Concurrency.System
