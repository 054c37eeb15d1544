import IntroOS.Concurrency.Fairness
import IntroOS.Preparation.MutualExclusion

/-!
# Every process that asks enters its critical region

`enter_region` and `leave_region` of `Preparation/MutualExclusive.c` in infinite runs. A process may
stay outside of its region for ever, but one that has begun `enter_region` goes on until it has left
the region.

Main results:

* `Regions.helps_entering`: which process can bring `p` closer to its region.
* `Regions.entering_leadsTo_critical`: in a fair run, nobody waits for ever.
-/

namespace IntroOS.Preparation

open Concurrency

namespace Regions

variable {s s' : Regions} {p : Fin 2}

/-- A step of process `p` in `enter_region`, in its region or in `leave_region`. -/
def Busy (p a : Fin 2) (s : Regions) : Prop := a = p ∧ s.pc p ≠ .setInterested

/-- Process `p` has announced its interest and not entered. -/
def Entering (p : Fin 2) (s : Regions) : Prop := s.pc p = .setTurn ∨ (s.pc p).Waits

/-- How far a process at `mine` is from its region, when the other one is at `yours`; `favoured` if
    `turn` lets it in. -/
def distance (mine : RegionPc) (favoured : Bool) (yours : RegionPc) : ℕ :=
  match mine, favoured, yours with
  | .setTurn, _, _ => 8
  -- the other process waits for this one, and goes round its loop or enters
  | _, false, .readInterested => 7
  | _, false, .readTurn => 6
  | _, false, .critical => 5
  -- it is outside, and the next read of `interested` ends the loop, unless it comes back
  | .readTurn, false, .setInterested => 4
  | _, false, .setInterested => 3
  | _, false, .setTurn => 2
  | .readInterested, true, _ => 1
  | _, true, _ => 0

def rank (p : Fin 2) (s : Regions) : ℕ :=
  distance (s.pc p) (s.turn = otherProcess p) (s.pc (otherProcess p))

/-- The process whose steps bring `p` closer to its region. -/
def helpful (p : Fin 2) (s : Regions) : Fin 2 :=
  if s.pc p = .setTurn ∨ s.turn = otherProcess p ∨ s.pc (otherProcess p) = .setInterested then p
  else otherProcess p

theorem step_exists (p : Fin 2) (s : Regions) : ∃ s', step p s = some s' := by
  unfold step
  cases s.pc p <;> exact ⟨_, rfl⟩

theorem exclusive_of_reach (h : regions.Reach System.anyStep s) : s.Exclusive :=
  (h.invariant Inv.init fun _ _ _ hinv _ hs => hinv.step hs).exclusive

/-- What a step of `p` leaves to the other process. -/
theorem pc_other_of_step (h : step p s = some s') :
    s'.pc (otherProcess p) = s.pc (otherProcess p) := by
  have hne := otherProcess_ne p
  cases moves_of_step h <;> exact Function.update_of_ne hne ..

theorem turn_of_step (h : step p s = some s') (hpc : s.pc p ≠ .setTurn) : s'.turn = s.turn := by
  cases moves_of_step h with
  | setTurn hset => exact absurd hset hpc
  | setInterested | wait | enter | leave => rfl

theorem turn_of_setTurn (h : step p s = some s') (hpc : s.pc p = .setTurn) : s'.turn = p := by
  unfold step at h
  rw [hpc] at h
  cases h
  rfl

/-- Where `p` goes, by what it reads. -/
def next (p : Fin 2) (s : Regions) : RegionPc :=
  match s.pc p with
  | .setInterested => .setTurn
  | .setTurn => .readTurn
  | .readTurn => if s.turn = p then .readInterested else .critical
  | .readInterested => if s.interested (otherProcess p) = true then .readTurn else .critical
  | .critical => .setInterested

theorem pc_of_step (h : step p s = some s') : s'.pc p = next p s := by
  unfold step at h
  unfold next
  cases hpc : s.pc p with
  | setInterested | setTurn | critical =>
    rw [hpc] at h
    cases h
    exact Function.update_self ..
  | readTurn | readInterested =>
    rw [hpc] at h
    cases h
    split_ifs <;> exact Function.update_self ..

/-! ## What a step does to the distance -/

theorem turn_eq_of_ne (h : s.turn ≠ otherProcess p) : s.turn = p := by
  have heq := eq_otherProcess_of_ne h
  rwa [otherProcess_otherProcess] at heq

@[simp] theorem distance_setTurn (favoured : Bool) (yours : RegionPc) :
    distance .setTurn favoured yours = 8 := by simp [distance]

theorem distance_lt {mine : RegionPc} (h : mine ≠ .setTurn) (favoured : Bool) (yours : RegionPc) :
    distance mine favoured yours < 8 := by
  cases mine with
  | setTurn => exact absurd rfl h
  | setInterested | readTurn | readInterested | critical =>
    cases favoured <;> cases yours <;> decide

/-- A step of `p` itself. -/
theorem helps_self (hex : s.Exclusive) (hp : Entering p s) (hs : step p s = some s') :
    s'.pc p = .critical ∨ Entering p s' ∧ (rank p s' < rank p s ∨
      rank p s' = rank p s ∧ helpful p s' = helpful p s ∧ helpful p s ≠ p) := by
  have hyours := pc_other_of_step hs
  have hmine := pc_of_step hs
  have hne := otherProcess_ne p
  have hflag := hex.interested (otherProcess p)
  unfold next at hmine
  unfold Entering rank helpful
  cases hpc : s.pc p with
  | setInterested | critical => simp [Entering, hpc, RegionPc.Waits] at hp
  | setTurn =>
    rw [hpc] at hmine
    dsimp only at hmine
    rw [hmine, distance_setTurn]
    exact .inr ⟨.inr trivial, .inl (distance_lt (by decide) ..)⟩
  | readTurn =>
    have hturn : s'.turn = s.turn := turn_of_step hs (by rw [hpc]; exact nofun)
    rw [hpc] at hmine
    dsimp only at hmine
    split_ifs at hmine with hme
    · have hother : s.turn ≠ otherProcess p := fun h => hne (h.symm.trans hme)
      rw [hmine, hyours, hturn, decide_eq_false hother]
      refine .inr ⟨.inr trivial, ?_⟩
      cases hpc' : s.pc (otherProcess p) <;> simp [distance, hother, hne]
    · exact .inl hmine
  | readInterested =>
    have hturn : s'.turn = s.turn := turn_of_step hs (by rw [hpc]; exact nofun)
    rw [hpc] at hmine
    dsimp only at hmine
    split_ifs at hmine with hset
    · have hin := hflag.mp hset
      rw [hmine, hyours, hturn]
      refine .inr ⟨.inr trivial, ?_⟩
      by_cases hother : s.turn = otherProcess p
      · rw [decide_eq_true hother]
        exact .inl Nat.one_pos
      · rw [decide_eq_false hother]
        refine .inr ?_
        cases hpc' : s.pc (otherProcess p) <;> simp_all [distance]
    · exact .inl hmine

/-- A step of the other process. -/
theorem helps_other (hex : s.Exclusive) (hp : Entering p s)
    (hs : step (otherProcess p) s = some s') :
    Entering p s' ∧ (rank p s' < rank p s ∨ rank p s' = rank p s ∧ helpful p s' = helpful p s ∧
      ¬ Busy (helpful p s) (otherProcess p) s) := by
  have hmine := pc_other_of_step hs
  have hyours := pc_of_step hs
  have hne := otherProcess_ne p
  rw [otherProcess_otherProcess] at hmine
  unfold next at hyours
  rw [otherProcess_otherProcess] at hyours
  unfold Entering rank helpful Busy
  rw [hmine]
  refine ⟨hp, ?_⟩
  by_cases hset : s.pc p = .setTurn
  · exact .inr ⟨by rw [hset]; rfl, by simp [hset], by simp [hset, hne]⟩
  have hwaits : (s.pc p).Waits := hp.resolve_left hset
  by_cases hother : s.turn = otherProcess p
  · -- the other process cannot take back that `turn` lets `p` in
    have hturn : s'.turn = otherProcess p := by
      cases moves_of_step hs with
      | setTurn => rfl
      | setInterested | wait | enter | leave => exact hother
    rw [hturn, hother]
    refine .inr ⟨?_, by simp, by simp [hne]⟩
    cases hpc : s.pc p <;> simp_all [distance]
  · have hme := turn_eq_of_ne hother
    have hin := hex.interested_of_waits hwaits
    cases hpc : s.pc (otherProcess p) with
    | setTurn =>
      refine .inl ?_
      rw [turn_of_setTurn hs hpc]
      cases hpc' : s.pc p <;> simp_all [distance, RegionPc.Waits]
    | setInterested | readTurn | readInterested | critical =>
      have hturn : s'.turn = s.turn := turn_of_step hs (by rw [hpc]; exact nofun)
      rw [hpc] at hyours
      dsimp only at hyours
      refine .inl ?_
      rw [hturn, hyours]
      cases hpc' : s.pc p <;> simp_all [distance, RegionPc.Waits]

/-! ## Fair runs -/

theorem helps_entering (p : Fin 2) :
    Trace.Helps regions Busy (Entering p) (fun s => s.pc p = .critical) (rank p) (helpful p) := by
  intro a s s' hreach hp hs
  have hex := exclusive_of_reach hreach
  by_cases ha : a = p
  · rw [ha] at hs ⊢
    refine (helps_self hex hp hs).imp_right (And.imp_right (Or.imp_right ?_))
    rintro ⟨hrank, hhelpful, hne⟩
    exact ⟨hrank, hhelpful, fun hbusy => hne hbusy.1.symm⟩
  · rw [eq_otherProcess_of_ne ha] at hs ⊢
    exact .inr (helps_other hex hp hs)

/-- The process that is to help is not outside of its region. -/
theorem enabled_helpful (hp : Entering p s) : Trace.Enabled regions (Busy (helpful p s)) s := by
  obtain ⟨s', hs'⟩ := step_exists (helpful p s) s
  refine ⟨helpful p s, s', ⟨rfl, ?_⟩, hs'⟩
  unfold helpful
  split_ifs with hme
  · intro hpc
    simp [Entering, hpc, RegionPc.Waits] at hp
  · exact (not_or.mp (not_or.mp hme).2).2

/-- In every infinite run in which neither process stops between the assignment to `interested` in
    `enter_region` and the one in `leave_region`, a process that has begun `enter_region` enters. -/
theorem entering_leadsTo_critical (t : Trace regions) (hfair : ∀ p, t.WeaklyFair (Busy p))
    (p : Fin 2) : t.LeadsTo (Entering p) fun s => s.pc p = .critical :=
  .of_rank hfair (rank p) (helpful p) (fun _ _ hp => enabled_helpful hp) (helps_entering p)

/-- The processes in turn. -/
def inTurn (n : ℕ) : Fin 2 := if n % 2 = 0 then 0 else 1

theorem entering_leadsTo_critical_inTurn :
    (Trace.ofSchedule regions inTurn).LeadsTo (Entering 0) fun s => s.pc 0 = .critical := by
  refine entering_leadsTo_critical _ (fun q => Trace.weaklyFair_ofSchedule fun n => ?_) 0
  refine ⟨2 * n + q, by omega, ?_⟩
  have hq : inTurn (2 * n + q) = q := by
    unfold inTurn
    have hlt := q.isLt
    split_ifs with hmod
    · exact Fin.ext (by show 0 = q.val; omega)
    · exact Fin.ext (by show 1 = q.val; omega)
  rw [hq]
  rintro s ⟨a, s', ⟨rfl, hpc⟩, hs⟩
  exact ⟨⟨rfl, hpc⟩, s', hs⟩

end Regions

end IntroOS.Preparation
