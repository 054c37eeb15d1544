import IntroOS.Concurrency.System

/-!
# Locks and counters

A lock is a variable with the thread that holds it, and each thread is at a place in its code;
some places are inside the lock. A counter, such as the value of a semaphore, is accounted for by
what each thread holds at its place.

Main results:

* `Owned.unique`: mutual exclusion by a lock.
* `Owned.keep`, `Owned.take`, `Owned.giveBack`: what a move of one thread does to the owner.
* `Conserved.unique`: mutual exclusion by a counter.
* `Conserved.update`: a move of one thread that takes from the counter what it then holds.
-/

namespace IntroOS.Concurrency

variable {ι τ : Type*} {owner : Option ι} {inside : τ → Prop} {threads : ι → τ} {i j : ι} {x : τ}

/-- The owner of the lock is the one thread that is inside. -/
def Owned (inside : τ → Prop) (owner : Option ι) (threads : ι → τ) : Prop :=
  ∀ i, owner = some i ↔ inside (threads i)

theorem Owned.unique (h : Owned inside owner threads) (hi : inside (threads i))
    (hj : inside (threads j)) : i = j := by
  have howner := (h i).mpr hi
  rw [(h j).mpr hj, Option.some.injEq] at howner
  exact howner.symm

theorem Owned.not_inside (h : Owned inside owner threads) (hfree : owner = none) (i : ι) :
    ¬ inside (threads i) := by
  rw [← h i, hfree]
  exact nofun

section Moves

variable [DecidableEq ι]

/-- A move that does not cross the border of the lock. -/
theorem Owned.keep (h : Owned inside owner threads) (hx : inside x ↔ inside (threads i)) :
    Owned inside owner (Function.update threads i x) := by
  intro j
  rw [h j, Function.update_apply]
  split_ifs with hj
  · rw [hj, hx]
  · exact Iff.rfl

theorem Owned.take (h : Owned inside owner threads) (hfree : owner = none) (hx : inside x) :
    Owned inside (some i) (Function.update threads i x) := by
  intro j
  rw [Function.update_apply, Option.some.injEq]
  split_ifs with hj
  · exact iff_of_true hj.symm hx
  · exact iff_of_false (fun heq => hj heq.symm) (h.not_inside hfree j)

theorem Owned.giveBack (h : Owned inside owner threads) (hi : inside (threads i))
    (hx : ¬ inside x) : Owned inside none (Function.update threads i x) := by
  intro j
  rw [Function.update_apply]
  split_ifs with hj
  · exact iff_of_false nofun hx
  · exact iff_of_false nofun fun hin => hj (h.unique hin hi)

end Moves

/-! ## Counters -/

variable [Fintype ι] {holds : τ → ℕ} {total value value' : ℕ}

/-- The value of the counter and what the threads hold make `total`. -/
def Conserved (holds : τ → ℕ) (total value : ℕ) (threads : ι → τ) : Prop :=
  value + ∑ i, holds (threads i) = total

theorem Conserved.le (h : Conserved holds total value threads) (i : ι) :
    value + holds (threads i) ≤ total := by
  have hi := Finset.single_le_sum (fun j _ => Nat.zero_le (holds (threads j))) (Finset.mem_univ i)
  unfold Conserved at h
  omega

theorem Conserved.exists_holds (h : Conserved holds total value threads) (hlt : value < total) :
    ∃ i, 0 < holds (threads i) := by
  have hne : ∑ i, holds (threads i) ≠ 0 := by
    unfold Conserved at h
    omega
  obtain ⟨i, -, hi⟩ := Finset.exists_ne_zero_of_sum_ne_zero hne
  exact ⟨i, Nat.pos_of_ne_zero hi⟩

theorem Conserved.of_forall (hall : ∀ i, holds (threads i) = 0) :
    Conserved holds total total threads := by
  unfold Conserved
  rw [Finset.sum_eq_zero fun i _ => hall i, Nat.add_zero]

theorem Conserved.eq_of_forall (h : Conserved holds total value threads)
    (hall : ∀ i, holds (threads i) = 0) : value = total := by
  unfold Conserved at h
  rwa [Finset.sum_eq_zero fun i _ => hall i, Nat.add_zero] at h

variable [DecidableEq ι]

theorem Conserved.update (h : Conserved holds total value threads)
    (hx : value' + holds x = value + holds (threads i)) :
    Conserved holds total value' (Function.update threads i x) := by
  have hsum := sum_update_add holds threads i x
  unfold Conserved at *
  omega

/-- Two threads cannot hold more than one. -/
theorem Conserved.unique (h : Conserved holds 1 value threads) (hi : 0 < holds (threads i))
    (hj : 0 < holds (threads j)) : i = j := by
  by_contra hij
  have hpair := Finset.sum_le_sum_of_subset (f := fun k => holds (threads k))
    (Finset.subset_univ {i, j})
  rw [Finset.sum_pair hij] at hpair
  unfold Conserved at h
  omega

end IntroOS.Concurrency
