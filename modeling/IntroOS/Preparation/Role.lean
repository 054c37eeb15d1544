import Mathlib

/-!
# Producers and consumers

The programs of `Preparation/` let a producer and a consumer share a buffer: `buffer-mutex.c` with a
mutex and condition variables, `mutex-pro-con.c` with semaphores, `information.c` with messages and
`PriducerConsumer.java` with a monitor.
-/

namespace IntroOS.Preparation

inductive Role
  | producer
  | consumer
  deriving DecidableEq, Repr

def Role.other : Role → Role
  | producer => consumer
  | consumer => producer

@[simp] theorem Role.other_other (r : Role) : r.other.other = r := by cases r <;> rfl

theorem Role.other_ne (r : Role) : r.other ≠ r := by cases r <;> exact nofun

theorem Role.eq_other {r t : Role} (h : t ≠ r) : t = r.other := by
  cases r <;> cases t <;> first | rfl | exact absurd rfl h

theorem Role.forall_iff {P : Role → Prop} (r : Role) : (∀ t, P t) ↔ P r ∧ P r.other := by
  refine ⟨fun h => ⟨h r, h r.other⟩, fun ⟨hr, hother⟩ t => ?_⟩
  by_cases ht : t = r
  · rwa [ht]
  · rwa [Role.eq_other ht]

/-- What each of the two knows about the other, after `r` has moved to `x`. -/
theorem Role.forall_update_iff {τ : Type*} (P : Role → τ → τ → Prop) (pcs : Role → τ) (r : Role)
    (x : τ) : (∀ t : Role, P t (Function.update pcs r x t.other) (Function.update pcs r x t)) ↔
      P r (pcs r.other) x ∧ P r.other x (pcs r.other) := by
  rw [Role.forall_iff r, Role.other_other, Function.update_self, Function.update_of_ne r.other_ne]

end IntroOS.Preparation
