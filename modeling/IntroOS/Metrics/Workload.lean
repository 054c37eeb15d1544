import IntroOS.Concurrency.Lock
import IntroOS.CString.Number

/-!
# The counter of the workload

Model of `workload_get_path` in `pr2/ud923-project2-metrics/workload.c` (lines 43–53), called by
any number of threads. `counter` is incremented under the lock and read again, for the index,
behind it.

* The steps are the lock, `counter++`, the unlock, and the read.
* A thread calls the function only if this is not the `2^31`-th call.

Main results:

* `mutex_owned`: one thread at most is between the lock and the unlock.
* `excess_step`: how far the values that are used run ahead of the calls.
* `positions_once_iff`: after a run the values used are `1, …, k` exactly if no thread has
  incremented the counter between the increment and the read of another one.
* `round_robin`: then they have been used in this order, and the paths go round.
-/

namespace IntroOS.Metrics

open CString Concurrency

/-! ## Model -/

/-- What a thread does next. -/
inductive GetPathPc
  /-- not in `workload_get_path` -/
  | out
  /-- `pthread_mutex_lock(&counter_mutex)` (line 47) -/
  | lock
  /-- `counter++` (line 48) -/
  | increment
  /-- `pthread_mutex_unlock(&counter_mutex)` (line 49) -/
  | unlock
  /-- `counter` is read for the index (line 51) -/
  | read
  deriving DecidableEq, Repr

/-- The thread has called and not incremented the counter. -/
def GetPathPc.before : GetPathPc → ℕ
  | lock | increment => 1
  | _ => 0

/-- The thread has incremented the counter and not read it. -/
def GetPathPc.pending : GetPathPc → ℕ
  | unlock | read => 1
  | _ => 0

/-- Between the lock and the unlock. -/
def GetPathPc.InLock (pc : GetPathPc) : Prop := pc = increment ∨ pc = unlock

/-- The state of `t` threads. The values that are used for an index are recorded in order. -/
structure Counting (t : ℕ) where
  counter : ℤ
  counter_mutex : Option (Fin t)
  threads : Fin t → GetPathPc
  calls : ℕ
  used : List ℤ

namespace Counting

variable {t : ℕ}

def goto (s : Counting t) (i : Fin t) (pc : GetPathPc) : Counting t :=
  { s with threads := Function.update s.threads i pc }

/-- The next step of thread `i`. -/
def step (i : Fin t) (s : Counting t) : Option (Counting t) :=
  match s.threads i with
  | .out => if s.calls + 1 < 2 ^ 31 then some { s.goto i .lock with calls := s.calls + 1 } else none
  | .lock =>
    if s.counter_mutex = none then some { s.goto i .increment with counter_mutex := some i }
    else none
  | .increment => some { s.goto i .unlock with counter := int32 (s.counter + 1) }
  | .unlock => some { s.goto i .read with counter_mutex := none }
  | .read => some { s.goto i .out with used := s.used ++ [s.counter] }

/-- The threads that have incremented the counter and not read it. -/
def pending (s : Counting t) : ℕ := ∑ i, (s.threads i).pending

/-- The threads that have called and not incremented the counter. -/
def before (s : Counting t) : ℕ := ∑ i, (s.threads i).before

/-- The indices into `gWorkloadPathArray` with `n` paths. -/
def indices (n : ℕ) (s : Counting t) : List ℤ := s.used.map (·.tmod n)

/-- A thread increments the counter only if no other one is between its increment and its read. -/
def Undisturbed (i : Fin t) (s : Counting t) : Prop :=
  s.threads i = .increment → ∀ j, (s.threads j).pending = 0

end Counting

/-- `t` threads that call `workload_get_path`. -/
def counting (t : ℕ) : System (Counting t) (Fin t) where
  init := ⟨0, none, fun _ => .out, 0, []⟩
  step := Counting.step

/-! ## What a step does -/

namespace Counting

variable {t : ℕ} {s s' : Counting t} {i : Fin t}

/-- The steps of a thread. -/
inductive Moves (s : Counting t) (i : Fin t) : Counting t → Prop
  | call (hpc : s.threads i = .out) (hlt : s.calls + 1 < 2 ^ 31) :
      Moves s i { s.goto i .lock with calls := s.calls + 1 }
  | lock (hpc : s.threads i = .lock) (hfree : s.counter_mutex = none) :
      Moves s i { s.goto i .increment with counter_mutex := some i }
  | increment (hpc : s.threads i = .increment) :
      Moves s i { s.goto i .unlock with counter := int32 (s.counter + 1) }
  | unlock (hpc : s.threads i = .unlock) :
      Moves s i { s.goto i .read with counter_mutex := none }
  | read (hpc : s.threads i = .read) :
      Moves s i { s.goto i .out with used := s.used ++ [s.counter] }

theorem moves_of_step (h : step i s = some s') : Moves s i s' := by
  unfold step at h
  cases hpc : s.threads i with
  | out =>
    simp only [hpc, Option.ite_none_right_eq_some, Option.some.injEq] at h
    obtain ⟨hlt, rfl⟩ := h
    exact .call hpc hlt
  | lock =>
    simp only [hpc, Option.ite_none_right_eq_some, Option.some.injEq] at h
    obtain ⟨hfree, rfl⟩ := h
    exact .lock hpc hfree
  | increment => rw [hpc] at h; cases h; exact .increment hpc
  | unlock => rw [hpc] at h; cases h; exact .unlock hpc
  | read => rw [hpc] at h; cases h; exact .read hpc

/-- The numbers of threads after one of them has moved from `pc` to `pc'`. -/
theorem goto_sums {pc : GetPathPc} (hpc : s.threads i = pc) (pc' : GetPathPc) :
    (s.goto i pc').pending + pc.pending = s.pending + pc'.pending ∧
      (s.goto i pc').before + pc.before = s.before + pc'.before := by
  rw [← hpc]
  exact ⟨sum_update_add GetPathPc.pending s.threads i pc',
    sum_update_add GetPathPc.before s.threads i pc'⟩

theorem pending_eq_zero : s.pending = 0 ↔ ∀ i, (s.threads i).pending = 0 := by
  simp [pending]

/-- The lock is owned by the thread between its lock and its unlock. -/
def MutexOwned (s : Counting t) : Prop := Owned GetPathPc.InLock s.counter_mutex s.threads

theorem MutexOwned.step (h : s.MutexOwned) (hm : Moves s i s') : s'.MutexOwned := by
  cases hm with
  | call hpc => exact Owned.keep h (by simp [hpc, GetPathPc.InLock])
  | lock hpc hfree => exact Owned.take h hfree (Or.inl rfl)
  | increment hpc => exact Owned.keep h (by simp [hpc, GetPathPc.InLock])
  | unlock hpc => exact Owned.giveBack h (Or.inr hpc) (by simp [GetPathPc.InLock])
  | read hpc => exact Owned.keep h (by simp [hpc, GetPathPc.InLock])

/-- The counter counts the calls that have passed it; it has not wrapped around. -/
structure Counted (s : Counting t) : Prop where
  counter : s.counter = ((s.used.length + s.pending : ℕ) : ℤ)
  calls : s.used.length + s.pending + s.before = s.calls
  lt : s.calls < 2 ^ 31

theorem Counted.counter_next (h : s.Counted) (hpc : s.threads i = .increment) :
    int32 (s.counter + 1) = s.counter + 1 := by
  have hbefore : 1 ≤ s.before := by
    have hle := Finset.single_le_sum (f := fun j => (s.threads j).before)
      (fun j _ => Nat.zero_le _) (Finset.mem_univ i)
    simpa [hpc, before, GetPathPc.before] using hle
  have hcalls := h.calls
  have hlt := h.lt
  rw [h.counter]
  exact_mod_cast int32_natCast (by omega : s.used.length + s.pending + 1 < 2 ^ 31)

theorem Counted.step (h : s.Counted) (hm : Moves s i s') : s'.Counted := by
  have hnext := h.counter_next (i := i)
  obtain ⟨hcounter, hcalls, hlt⟩ := h
  cases hm with
  | call hpc hless =>
    obtain ⟨hp, hb⟩ := goto_sums hpc .lock
    simp only [GetPathPc.pending, GetPathPc.before] at hp hb
    refine ⟨?_, ?_, hless⟩ <;> simp only [goto, pending, before] at * <;> omega
  | lock hpc hfree =>
    obtain ⟨hp, hb⟩ := goto_sums hpc .increment
    simp only [GetPathPc.pending, GetPathPc.before] at hp hb
    refine ⟨?_, ?_, hlt⟩ <;> simp only [goto, pending, before] at * <;> omega
  | increment hpc =>
    obtain ⟨hp, hb⟩ := goto_sums hpc .unlock
    simp only [GetPathPc.pending, GetPathPc.before] at hp hb
    refine ⟨?_, ?_, hlt⟩ <;> simp only [goto, pending, before, hnext hpc] at * <;> omega
  | unlock hpc =>
    obtain ⟨hp, hb⟩ := goto_sums hpc .read
    simp only [GetPathPc.pending, GetPathPc.before] at hp hb
    refine ⟨?_, ?_, hlt⟩ <;> simp only [goto, pending, before] at * <;> omega
  | read hpc =>
    obtain ⟨hp, hb⟩ := goto_sums hpc .out
    simp only [GetPathPc.pending, GetPathPc.before] at hp hb
    refine ⟨?_, ?_, hlt⟩ <;>
      simp only [goto, pending, before, List.length_append, List.length_singleton] at * <;> omega

theorem counted_init : ((counting t).init).Counted :=
  ⟨by simp [counting, pending, GetPathPc.pending],
    by simp [counting, pending, before, GetPathPc.pending, GetPathPc.before], by simp [counting]⟩

/-! ## How far the values run ahead -/

/-- Twice the sum of the values used, if all threads that can read now did, less twice the sum of
    `1, …, counter`. -/
def excess (s : Counting t) : ℤ :=
  2 * (s.used.sum + s.pending * s.counter) - s.counter * (s.counter + 1)

theorem excess_init : ((counting t).init).excess = 0 := by
  rw [excess, (counted_init (t := t)).counter]
  simp [counting, pending, GetPathPc.pending]

theorem excess_congr (hcounter : s'.counter = s.counter) (hused : s'.used = s.used)
    (hpending : s'.pending = s.pending) : s'.excess = s.excess := by
  rw [excess, excess, hcounter, hused, hpending]

/-- An increment makes every other thread that is behind its own increment read one more. -/
theorem excess_step (h : s.Counted) (hm : Moves s i s') :
    s'.excess = s.excess + if s.threads i = .increment then 2 * (s.pending : ℤ) else 0 := by
  cases hm with
  | call hpc hless =>
    obtain ⟨hp, -⟩ := goto_sums hpc .lock
    rw [if_neg (by rw [hpc]; decide), add_zero]
    exact excess_congr rfl rfl hp
  | lock hpc hfree =>
    obtain ⟨hp, -⟩ := goto_sums hpc .increment
    rw [if_neg (by rw [hpc]; decide), add_zero]
    exact excess_congr rfl rfl hp
  | increment hpc =>
    obtain ⟨hp, -⟩ := goto_sums hpc .unlock
    have hpending : (s.goto i .unlock).pending = s.pending + 1 := hp
    have hnext := h.counter_next hpc
    have hexcess : ({ s.goto i .unlock with counter := int32 (s.counter + 1) } : Counting t).excess =
        2 * (s.used.sum + ((s.goto i .unlock).pending : ℤ) * int32 (s.counter + 1)) -
          int32 (s.counter + 1) * (int32 (s.counter + 1) + 1) := rfl
    rw [if_pos hpc, hexcess, hpending, hnext, excess, Nat.cast_succ]
    ring
  | unlock hpc =>
    obtain ⟨hp, -⟩ := goto_sums hpc .read
    rw [if_neg (by rw [hpc]; decide), add_zero]
    exact excess_congr rfl rfl (Nat.add_right_cancel hp)
  | read hpc =>
    obtain ⟨hp, -⟩ := goto_sums hpc .out
    have hpending : (s.goto i .out).pending + 1 = s.pending := hp
    have hexcess : ({ s.goto i .out with used := s.used ++ [s.counter] } : Counting t).excess =
        2 * ((s.used ++ [s.counter]).sum + ((s.goto i .out).pending : ℤ) * s.counter) -
          s.counter * (s.counter + 1) := rfl
    rw [if_neg (by rw [hpc]; decide), add_zero, hexcess, excess, ← hpending, List.sum_append,
      List.sum_singleton, Nat.cast_succ]
    ring

/-- While a thread is behind its increment, the excess counts the increments of other ones. -/
theorem excess_eq_zero_step (h : s.Counted) (hpos : 0 ≤ s.excess) (hm : Moves s i s') :
    s'.excess = 0 ↔ s.excess = 0 ∧ Undisturbed i s := by
  rw [excess_step h hm, Undisturbed]
  split_ifs with hpc
  · rw [← pending_eq_zero]
    simp only [hpc, forall_const]
    omega
  · simp [hpc]

theorem excess_nonneg_step (h : s.Counted) (hpos : 0 ≤ s.excess) (hm : Moves s i s') :
    0 ≤ s'.excess := by
  rw [excess_step h hm]
  split_ifs <;> omega

/-! ## Runs without disturbance -/

/-- The values `1, …, k`. -/
def positions (k : ℕ) : List ℤ := (List.range' 1 k).map fun j : ℕ => (j : ℤ)

theorem positions_succ (k : ℕ) : positions (k + 1) = positions k ++ [((k + 1 : ℕ) : ℤ)] := by
  rw [positions, List.range'_1_concat, List.map_append, List.map_singleton, Nat.add_comm 1 k,
    positions]

theorem sum_positions (k : ℕ) : 2 * (positions k).sum = k * (k + 1) := by
  induction k with
  | zero => rfl
  | succ k ih =>
    rw [positions_succ, List.sum_append, List.sum_singleton, mul_add, ih, Nat.cast_succ]
    ring

/-- The values have been used in their order, and one thread at most is going to read its own. -/
structure InOrder (s : Counting t) : Prop where
  pending : s.pending ≤ 1
  used : s.used = positions s.used.length

theorem InOrder.step (h : s.InOrder) (hc : s.Counted) (hg : Undisturbed i s) (hm : Moves s i s') :
    s'.InOrder := by
  obtain ⟨hpending, hused⟩ := h
  cases hm with
  | call hpc hless => exact ⟨(goto_sums hpc .lock).1.trans_le hpending, hused⟩
  | lock hpc hfree => exact ⟨(goto_sums hpc .increment).1.trans_le hpending, hused⟩
  | increment hpc =>
    have hzero := pending_eq_zero.mpr (hg hpc)
    have hp := (goto_sums hpc .unlock).1
    rw [hzero] at hp
    exact ⟨hp.le, hused⟩
  | unlock hpc =>
    have hp := (goto_sums hpc .read).1
    exact ⟨(Nat.add_right_cancel hp).trans_le hpending, hused⟩
  | read hpc =>
    have hp : (s.goto i .out).pending + 1 = s.pending := (goto_sums hpc .out).1
    have hone : s.pending = 1 := by omega
    have hcounter := hc.counter
    rw [hone] at hcounter
    refine ⟨(show (s.goto i .out).pending ≤ 1 by omega), ?_⟩
    rw [List.length_append, List.length_singleton, positions_succ, ← hcounter, ← hused]

theorem inOrder_init : ((counting t).init).InOrder :=
  ⟨by simp [counting, Counting.pending, GetPathPc.pending], rfl⟩

theorem reach_counted {guard : Fin t → Counting t → Prop} (h : (counting t).Reach guard s) :
    s.Counted :=
  h.invariant counted_init fun _ _ _ ih _ hstep => ih.step (moves_of_step hstep)

theorem reach_inOrder (h : (counting t).Reach Undisturbed s) : s.InOrder := by
  have hboth : s.Counted ∧ s.InOrder :=
    h.invariant (I := fun s => s.Counted ∧ s.InOrder) ⟨counted_init, inOrder_init⟩
      fun _ _ _ ih hg hstep =>
        ⟨ih.1.step (moves_of_step hstep), ih.2.step ih.1 hg (moves_of_step hstep)⟩
  exact hboth.2

theorem Counted.of_quiet (h : s.Counted) (hquiet : ∀ i, s.threads i = .out) :
    s.pending = 0 ∧ s.used.length = s.calls := by
  have hpending : s.pending = 0 := pending_eq_zero.mpr fun i => by rw [hquiet i]; rfl
  have hbefore : s.before = 0 := Finset.sum_eq_zero fun i _ => by rw [hquiet i]; rfl
  have hcalls := h.calls
  omega

end Counting

open Counting

/-- One thread at most is between the lock and the unlock. -/
theorem mutex_owned {t : ℕ} {s : Counting t} (h : (counting t).Reach System.anyStep s) {i j : Fin t}
    (hi : (s.threads i).InLock) (hj : (s.threads j).InLock) : i = j := by
  have howned : s.MutexOwned :=
    h.invariant (fun i => by simp [counting, GetPathPc.InLock]) fun _ _ _ ih _ hstep =>
      ih.step (moves_of_step hstep)
  exact Owned.unique howned hi hj

/-- After a run at whose end no thread is in `workload_get_path`, the values used by the `k` calls
    are `1, …, k` exactly if no thread has incremented the counter while another one was between
    its increment and its read. -/
theorem positions_once_iff (t : ℕ) (as : List (Fin t)) (s : Counting t)
    (hr : (counting t).run as (counting t).init = some s) (hquiet : ∀ i, s.threads i = .out) :
    s.used.Perm (positions s.calls) ↔ (counting t).Meets Undisturbed as (counting t).init := by
  have hcounted := reach_counted (System.reach_of_run hr)
  obtain ⟨hpending, hlength⟩ := hcounted.of_quiet hquiet
  constructor
  · intro hperm
    have hexcess : s.excess = 0 := by
      rw [excess, hcounted.counter, hpending, hperm.sum_eq, hlength, Nat.cast_zero, zero_mul,
        add_zero, add_zero, sum_positions, sub_self]
    have hrun : s.excess = 0 ↔ (counting t).init.excess = 0 ∧
        (counting t).Meets Undisturbed as (counting t).init :=
      System.run_iff (I := fun s => s.Counted ∧ 0 ≤ s.excess) (R := fun s => s.excess = 0)
        (fun _ _ _ hi hstep => ⟨hi.1.step (moves_of_step hstep),
          excess_nonneg_step hi.1 hi.2 (moves_of_step hstep)⟩)
        (fun _ _ _ hi hstep => excess_eq_zero_step hi.1 hi.2 (moves_of_step hstep))
        ⟨counted_init, excess_init.ge⟩ hr
    exact (hrun.mp hexcess).2
  · intro hmeets
    have horder := (reach_inOrder (System.Reach.run .init hmeets hr)).used
    rw [hlength] at horder
    rw [horder]

/-- Then the values have been used in their order: of `n` paths each comes in its turn. -/
theorem round_robin {t : ℕ} {s : Counting t} (h : (counting t).Reach Undisturbed s) (n : ℕ) :
    s.indices n = (List.range' 1 s.used.length).map fun k : ℕ => ((k % n : ℕ) : ℤ) := by
  rw [indices, (reach_inOrder h).used, positions, List.map_map, List.length_map, List.length_range']
  exact List.map_congr_left fun k _ => (Int.ofNat_tmod k n).symm

/-- Two threads, one after the other. -/
theorem positions_once_iff_two :
    (counting 2).Meets Undisturbed [0, 0, 0, 0, 0, 1, 1, 1, 1, 1] (counting 2).init := by
  have hrun : ((counting 2).run [0, 0, 0, 0, 0, 1, 1, 1, 1, 1] (counting 2).init).any (fun s =>
      decide ((∀ i, s.threads i = .out) ∧ s.used = positions s.calls)) = true := by decide +kernel
  obtain ⟨s, hr, hs⟩ := (Option.any_eq_true _ _).mp hrun
  obtain ⟨hquiet, hused⟩ := of_decide_eq_true hs
  exact (positions_once_iff 2 _ s hr hquiet).mp (List.Perm.of_eq hused)

/-- A thread increments the counter before another one has read it: both read 2. -/
theorem positions_repeat :
    ¬ ∀ (t : ℕ) (as : List (Fin t)) (s : Counting t),
      (counting t).run as (counting t).init = some s → (∀ i, s.threads i = .out) →
        s.used.Perm (positions s.calls) := by
  intro h
  have hrun : ((counting 2).run [0, 0, 0, 0, 1, 1, 1, 1, 1, 0] (counting 2).init).any (fun s =>
      decide ((∀ i, s.threads i = .out) ∧ ¬ s.used.Perm (positions s.calls))) = true := by
    decide +kernel
  obtain ⟨s, hr, hs⟩ := (Option.any_eq_true _ _).mp hrun
  obtain ⟨hquiet, hnot⟩ := of_decide_eq_true hs
  exact hnot (h 2 _ s hr hquiet)

end IntroOS.Metrics
