import IntroOS.Concurrency.System

/-!
# Entering and leaving a critical region

Model of `enter_region` and `leave_region` in `Preparation/MutualExclusive.c`, called again and
again by the processes 0 and 1.

* Each read and each write of `interested[]` and `turn` is one step, in the order of the text;
  the two operands of the condition of `while` are two reads. Memory is sequentially consistent.
* A process is in its critical section from the read that ends the loop to the write in
  `leave_region`.
* The assignments to `turn` and the entries are recorded.

Main results:

* `Regions.Inv.step`: what every step keeps.
* `Regions.enter_region_correct`: the processes are never both in their critical sections, and one
  that has assigned `turn` is overtaken once at most.
-/

namespace IntroOS.Preparation

open Concurrency

/-! ## The model -/

/-- What a process does next. -/
inductive RegionPc
  /-- outside of its region: `interested[process] = TRUE` (line 13) -/
  | setInterested
  /-- `turn = process` (line 14) -/
  | setTurn
  /-- `turn == process` (line 15) -/
  | readTurn
  /-- `interested[other] == TRUE` (line 15) -/
  | readInterested
  /-- in its critical section: `interested[process] = FALSE` (line 20) -/
  | critical
  deriving DecidableEq, Repr

/-- What is recorded of a process. -/
inductive RegionEvent
  /-- `turn = process` -/
  | turn (process : Fin 2)
  /-- the end of `enter_region` -/
  | enter (process : Fin 2)
  deriving DecidableEq, Repr

/-- `other = 1 - process` (line 12). -/
def otherProcess (process : Fin 2) : Fin 2 := 1 - process

/-- The shared variables and the two processes. -/
structure Regions where
  turn : Fin 2
  interested : Fin 2 → Bool
  pc : Fin 2 → RegionPc
  log : List RegionEvent

namespace Regions

def goto (s : Regions) (process : Fin 2) (pc : RegionPc) : Regions :=
  { s with pc := Function.update s.pc process pc }

/-- The loop ends, and with it `enter_region`. -/
def enter (s : Regions) (process : Fin 2) : Regions :=
  { s.goto process .critical with log := s.log ++ [.enter process] }

def step (process : Fin 2) (s : Regions) : Option Regions :=
  let other := otherProcess process
  match s.pc process with
  | .setInterested =>
    some { s.goto process .setTurn with interested := Function.update s.interested process true }
  | .setTurn =>
    some { s.goto process .readTurn with turn := process, log := s.log ++ [.turn process] }
  | .readTurn =>
    some (if s.turn = process then s.goto process .readInterested else s.enter process)
  | .readInterested =>
    some (if s.interested other = true then s.goto process .readTurn else s.enter process)
  | .critical =>
    some { s.goto process .setInterested with
      interested := Function.update s.interested process false }

end Regions

/-- The two processes. -/
def regions : System Regions (Fin 2) where
  init := ⟨0, fun _ => false, fun _ => .setInterested, []⟩
  step := Regions.step

/-! ## Two processes -/

@[simp] theorem otherProcess_otherProcess (p : Fin 2) : otherProcess (otherProcess p) = p := by
  decide +revert

theorem otherProcess_ne (p : Fin 2) : otherProcess p ≠ p := by decide +revert

theorem eq_otherProcess_of_ne {p q : Fin 2} (h : q ≠ p) : q = otherProcess p := by
  decide +revert

/-- The process has assigned `turn` and is in the loop. -/
def RegionPc.Waits : RegionPc → Prop
  | readTurn | readInterested => True
  | _ => False

/-! ## What a step does -/

namespace Regions

variable {s s' : Regions} {p q : Fin 2} {mid : List RegionEvent}

/-- The steps of process `p`. -/
inductive Moves (s : Regions) (p : Fin 2) : Regions → Prop
  | setInterested (hpc : s.pc p = .setInterested) :
      Moves s p { s.goto p .setTurn with interested := Function.update s.interested p true }
  | setTurn (hpc : s.pc p = .setTurn) :
      Moves s p { s.goto p .readTurn with turn := p, log := s.log ++ [.turn p] }
  | wait (hpc : (s.pc p).Waits) {pc : RegionPc} (hpc' : pc.Waits) : Moves s p (s.goto p pc)
  | enter (hpc : (s.pc p).Waits)
      (hguard : s.turn = otherProcess p ∨ s.interested (otherProcess p) = false) :
      Moves s p (s.enter p)
  | leave (hpc : s.pc p = .critical) :
      Moves s p { s.goto p .setInterested with interested := Function.update s.interested p false }

theorem moves_of_step (h : step p s = some s') : Moves s p s' := by
  unfold step at h
  cases hpc : s.pc p with
  | setInterested => rw [hpc] at h; cases h; exact .setInterested hpc
  | setTurn => rw [hpc] at h; cases h; exact .setTurn hpc
  | readTurn =>
    have hwaits : (s.pc p).Waits := by rw [hpc]; trivial
    rw [hpc] at h
    cases h
    split_ifs with hturn
    · exact .wait hwaits trivial
    · exact .enter hwaits (Or.inl (eq_otherProcess_of_ne hturn))
  | readInterested =>
    have hwaits : (s.pc p).Waits := by rw [hpc]; trivial
    rw [hpc] at h
    cases h
    split_ifs with hinterested
    · exact .wait hwaits trivial
    · exact .enter hwaits (Or.inr (Bool.eq_false_iff.mpr hinterested))
  | critical => rw [hpc] at h; cases h; exact .leave hpc

theorem forall_process {P : Fin 2 → Prop} (p : Fin 2) (hp : P p) (hother : P (otherProcess p)) :
    ∀ q, P q := by
  intro q
  by_cases hq : q = p
  · rw [hq]
    exact hp
  · rw [eq_otherProcess_of_ne hq]
    exact hother

/-! ## Mutual exclusion -/

/-- What every step keeps of the shared variables. -/
structure Exclusive (s : Regions) : Prop where
  interested : ∀ p, s.interested p = true ↔ s.pc p ≠ .setInterested
  /-- while only one of them is in the loop, `turn` is that one -/
  turn : ∀ p, (s.pc p).Waits → ¬ (s.pc (otherProcess p)).Waits → s.turn = p
  alone : ∀ p, s.pc p = .critical → s.pc (otherProcess p) ≠ .critical

theorem Exclusive.interested_of_waits (h : s.Exclusive) (hp : (s.pc p).Waits) :
    s.interested p = true := by
  apply (h.interested p).mpr
  intro hpc
  rw [hpc] at hp
  exact hp

/-- A process cannot enter while the other one is in its critical section. -/
theorem Exclusive.not_critical (h : s.Exclusive) (hp : (s.pc p).Waits)
    (hguard : s.turn = otherProcess p ∨ s.interested (otherProcess p) = false) :
    s.pc (otherProcess p) ≠ .critical := by
  intro hother
  rcases hguard with hturn | hflag
  · have hmine := h.turn p hp (by rw [hother]; exact id)
    exact otherProcess_ne p (hturn.symm.trans hmine)
  · have hset := (h.interested (otherProcess p)).mpr (by rw [hother]; exact nofun)
    rw [hflag] at hset
    cases hset

/-- The rule for a move of `p` to `pc`. -/
theorem Exclusive.move (h : s.Exclusive) {pc : RegionPc} (hpc : s'.pc = Function.update s.pc p pc)
    (hflag : s'.interested p = true ↔ pc ≠ .setInterested)
    (hflag' : s'.interested (otherProcess p) = s.interested (otherProcess p))
    (hturn : pc.Waits → ¬ (s.pc (otherProcess p)).Waits → s'.turn = p)
    (hturn' : (s.pc (otherProcess p)).Waits → ¬ pc.Waits → s'.turn = otherProcess p)
    (halone : pc = .critical → s.pc (otherProcess p) ≠ .critical) : s'.Exclusive := by
  have hself : s'.pc p = pc := by rw [hpc, Function.update_self]
  have hother : s'.pc (otherProcess p) = s.pc (otherProcess p) := by
    rw [hpc, Function.update_of_ne (otherProcess_ne p)]
  refine ⟨forall_process p ?_ ?_, forall_process p ?_ ?_, forall_process p ?_ ?_⟩
  · rw [hself]
    exact hflag
  · rw [hflag', hother]
    exact h.interested (otherProcess p)
  · rw [hself, hother]
    exact hturn
  · rw [otherProcess_otherProcess, hself, hother]
    exact hturn'
  · rw [hself, hother]
    exact halone
  · rw [otherProcess_otherProcess, hself, hother]
    intro hcritical hpc
    exact halone hpc hcritical

theorem Exclusive.step (h : s.Exclusive) (hm : Moves s p s') : s'.Exclusive := by
  have hne := otherProcess_ne p
  have hyours := h.turn (otherProcess p)
  rw [otherProcess_otherProcess] at hyours
  cases hm with
  | setInterested hpc =>
    have hout : ¬ (s.pc p).Waits := by rw [hpc]; exact id
    refine h.move rfl ?_ (Function.update_of_ne hne ..) nofun ?_ nofun
    · exact iff_of_true (Function.update_self ..) nofun
    · intro hwaits _
      exact hyours hwaits hout
  | setTurn hpc =>
    refine h.move rfl ?_ rfl (fun _ _ => rfl) ?_ nofun
    · apply iff_of_true _ nofun
      exact (h.interested p).mpr (by rw [hpc]; exact nofun)
    · intro _ hout
      exact absurd trivial hout
  | wait hpc hpc' =>
    refine h.move rfl ?_ rfl ?_ ?_ ?_
    · refine iff_of_true (h.interested_of_waits hpc) ?_
      rintro rfl
      exact hpc'
    · intro _ hother
      exact h.turn p hpc hother
    · intro _ hout
      exact absurd hpc' hout
    · rintro rfl
      exact hpc'.elim
  | enter hpc hguard =>
    refine h.move rfl ?_ rfl nofun ?_ ?_
    · exact iff_of_true (h.interested_of_waits hpc) nofun
    · intro hother _
      rcases hguard with hturn | hflag
      · exact hturn
      · have hset := h.interested_of_waits hother
        rw [hflag] at hset
        cases hset
    · intro _
      exact h.not_critical hpc hguard
  | leave hpc =>
    have hout : ¬ (s.pc p).Waits := by rw [hpc]; exact id
    refine h.move rfl ?_ (Function.update_of_ne hne ..) nofun ?_ nofun
    · refine iff_of_false ?_ fun hset => hset rfl
      show ¬ Function.update s.interested p false p = true
      rw [Function.update_self]
      exact Bool.false_ne_true
    · intro hwaits _
      exact hyours hwaits hout

/-! ## Overtaking -/

/-- What holds while `p` is in the loop, if `mid` has been recorded since it has assigned `turn`:
    when the other process has entered once, it waits for `p`. -/
structure Overtaken (s : Regions) (p : Fin 2) (mid : List RegionEvent) : Prop where
  waits : (s.pc p).Waits
  count_le : mid.count (.enter (otherProcess p)) ≤ 1
  turn : mid.count (.enter (otherProcess p)) = 1 → (s.pc (otherProcess p)).Waits →
    s.turn = otherProcess p

/-- A process that has assigned `turn` and not entered is in the loop. -/
def History (s : Regions) : Prop :=
  ∀ p pre mid, s.log = pre ++ .turn p :: mid → .enter p ∉ mid → s.Overtaken p mid

/-- A part that ends with the last event, or before it. -/
theorem append_singleton_eq_append_cons {α : Type*} {l pre mid : List α} {a e : α}
    (h : l ++ [e] = pre ++ a :: mid) :
    (mid = [] ∧ e = a) ∨ ∃ mid', mid = mid' ++ [e] ∧ l = pre ++ a :: mid' := by
  rcases List.eq_nil_or_concat mid with rfl | ⟨mid', x, rfl⟩
  · exact Or.inl ⟨rfl, (List.append_inj_right' h rfl |> List.singleton_inj.mp)⟩
  · rw [List.concat_eq_append, ← List.cons_append, ← List.append_assoc] at h
    obtain ⟨hl, he⟩ := List.append_inj' h rfl
    cases List.singleton_inj.mp he
    exact Or.inr ⟨mid', List.concat_eq_append, hl⟩

/-- The rule for a move of `q` that is not recorded. -/
theorem History.quiet (h : s.History) {pc : RegionPc} (hpc : s'.pc = Function.update s.pc q pc)
    (hlog : s'.log = s.log) (hturn : s'.turn = s.turn) (hwaits : (s.pc q).Waits ↔ pc.Waits) :
    s'.History := by
  intro p pre mid hmid hno
  rw [hlog] at hmid
  have hp := h p pre mid hmid hno
  have hall : ∀ r, (s'.pc r).Waits ↔ (s.pc r).Waits := by
    refine forall_process q ?_ ?_
    · rw [hpc, Function.update_self, hwaits]
    · rw [hpc, Function.update_of_ne (otherProcess_ne q)]
  refine ⟨(hall p).mpr hp.waits, hp.count_le, fun hone hother => ?_⟩
  rw [hturn]
  exact hp.turn hone ((hall _).mp hother)

theorem History.setTurn (h : s.History) (hpc : s.pc q = .setTurn) :
    History { s.goto q .readTurn with turn := q, log := s.log ++ [.turn q] } := by
  intro p pre mid hmid hno
  rcases append_singleton_eq_append_cons hmid with ⟨rfl, he⟩ | ⟨mid', rfl, hmid'⟩
  · cases he
    refine ⟨?_, Nat.zero_le 1, nofun⟩
    show (Function.update s.pc q .readTurn q).Waits
    rw [Function.update_self]
    trivial
  · have hp := h p pre mid' hmid' fun hmem => hno (List.mem_append_left _ hmem)
    have hcount : (mid' ++ [RegionEvent.turn q]).count (.enter (otherProcess p)) =
        mid'.count (.enter (otherProcess p)) := by
      rw [List.count_append, List.count_singleton]
      rfl
    have hne : p ≠ q := by
      rintro rfl
      have hwaits := hp.waits
      rw [hpc] at hwaits
      exact hwaits
    refine ⟨?_, hcount.trans_le hp.count_le, fun _ _ => ?_⟩
    · show (Function.update s.pc q .readTurn p).Waits
      rw [Function.update_of_ne hne]
      exact hp.waits
    · show q = otherProcess p
      exact eq_otherProcess_of_ne hne.symm

theorem History.enter (h : s.History) (hs : s.Exclusive) (hpc : (s.pc q).Waits)
    (hguard : s.turn = otherProcess q ∨ s.interested (otherProcess q) = false) :
    (s.enter q).History := by
  intro p pre mid hmid hno
  rcases append_singleton_eq_append_cons hmid with ⟨-, he⟩ | ⟨mid', rfl, hmid'⟩
  · cases he
  · have hne : p ≠ q := by
      rintro rfl
      exact hno (List.mem_append_right _ (List.mem_singleton_self _))
    have hp := h p pre mid' hmid' fun hmem => hno (List.mem_append_left _ hmem)
    obtain rfl : q = otherProcess p := eq_otherProcess_of_ne hne.symm
    rw [otherProcess_otherProcess] at hguard
    have hzero : mid'.count (.enter (otherProcess p)) = 0 := by
      by_contra hcount
      have hle := hp.count_le
      have hturn := hp.turn (by omega) hpc
      rcases hguard with hmine | hflag
      · exact otherProcess_ne p (hturn.symm.trans hmine)
      · have hset := hs.interested_of_waits hp.waits
        rw [hflag] at hset
        cases hset
    have hcount : (mid' ++ [RegionEvent.enter (otherProcess p)]).count
        (.enter (otherProcess p)) = 1 := by
      rw [List.count_append, hzero, List.count_singleton_self]
    refine ⟨?_, hcount.le, fun _ hwaits => ?_⟩
    · show (Function.update s.pc (otherProcess p) .critical p).Waits
      rw [Function.update_of_ne hne]
      exact hp.waits
    · rw [show (s.enter (otherProcess p)).pc (otherProcess p) = .critical from
        Function.update_self ..] at hwaits
      exact hwaits.elim

theorem History.step (h : s.History) (hs : s.Exclusive) (hm : Moves s q s') : s'.History := by
  cases hm with
  | setInterested hpc => exact h.quiet rfl rfl rfl (by rw [hpc]; exact Iff.rfl)
  | setTurn hpc => exact h.setTurn hpc
  | wait hpc hpc' => exact h.quiet rfl rfl rfl (iff_of_true hpc hpc')
  | enter hpc hguard => exact h.enter hs hpc hguard
  | leave hpc => exact h.quiet rfl rfl rfl (by rw [hpc]; exact Iff.rfl)

/-! ## Every run -/

/-- At every time, between an assignment `turn = p` and the entry of `p` behind it the other process
    has entered once at most. -/
def OvertakenOnce (log : List RegionEvent) : Prop :=
  ∀ p pre mid, pre ++ .turn p :: mid <+: log → .enter p ∉ mid →
    mid.count (.enter (otherProcess p)) ≤ 1

theorem Moves.log (hm : Moves s q s') : s'.log = s.log ∨ ∃ e, s'.log = s.log ++ [e] := by
  cases hm with
  | setInterested | wait | leave => exact Or.inl rfl
  | setTurn | enter => exact Or.inr ⟨_, rfl⟩

theorem OvertakenOnce.step (h : OvertakenOnce s.log) (hs' : s'.History) (hm : Moves s q s') :
    OvertakenOnce s'.log := by
  intro p pre mid hpre hno
  rcases hm.log with hlog | ⟨e, hlog⟩
  · rw [hlog] at hpre
    exact h p pre mid hpre hno
  · rw [hlog, List.prefix_concat_iff] at hpre
    rcases hpre with hnow | hbefore
    · exact (hs' p pre mid (hlog.trans hnow.symm) hno).count_le
    · exact h p pre mid hbefore hno

/-- What every step keeps. -/
structure Inv (s : Regions) : Prop where
  exclusive : s.Exclusive
  history : s.History
  once : OvertakenOnce s.log

theorem Inv.init : regions.init.Inv where
  exclusive := ⟨fun _ => iff_of_false nofun fun hne => hne rfl, nofun, nofun⟩
  history := by
    intro p pre mid hmid
    exact absurd hmid.symm (List.append_ne_nil_of_right_ne_nil _ (List.cons_ne_nil _ _))
  once := by
    intro p pre mid hpre
    have hnil := List.prefix_nil.mp hpre
    exact absurd hnil (List.append_ne_nil_of_right_ne_nil _ (List.cons_ne_nil _ _))

theorem Inv.step (h : s.Inv) (hs : Regions.step p s = some s') : s'.Inv where
  exclusive := h.exclusive.step (moves_of_step hs)
  history := h.history.step h.exclusive (moves_of_step hs)
  once := h.once.step (h.history.step h.exclusive (moves_of_step hs)) (moves_of_step hs)

/-- In every run the processes are never both in their critical sections, and none that has assigned
    `turn` is overtaken twice. -/
theorem enter_region_correct (s : Regions) (h : regions.Reach System.anyStep s) :
    ¬ (s.pc 0 = .critical ∧ s.pc 1 = .critical) ∧ OvertakenOnce s.log := by
  have hinv : s.Inv := h.invariant Inv.init fun _ _ _ hinv _ hs => hinv.step hs
  constructor
  · rintro ⟨hzero, hone⟩
    exact hinv.exclusive.alone 0 hzero hone
  · exact hinv.once

/-- Process 0 waits, process 1 overtakes it once and comes back, and process 0 enters. -/
theorem enter_region_correct_run :
    ∃ s, regions.run [1, 1, 0, 0, 0, 0, 1, 1, 1, 1, 1, 1, 0] regions.init = some s ∧
      s.log = [.turn 1, .turn 0, .enter 1, .turn 1, .enter 0] ∧ OvertakenOnce s.log := by
  have hlog : (regions.run [1, 1, 0, 0, 0, 0, 1, 1, 1, 1, 1, 1, 0] regions.init).map (·.log) =
      some [.turn 1, .turn 0, .enter 1, .turn 1, .enter 0] := by decide +kernel
  obtain ⟨s, hrun, hs⟩ := Option.map_eq_some_iff.mp hlog
  exact ⟨s, hrun, hs, (enter_region_correct s (System.reach_of_run hrun)).2⟩

end Regions

end IntroOS.Preparation
