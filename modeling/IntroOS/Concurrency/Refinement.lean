import IntroOS.Concurrency.System

/-!
# Programs and what they are for

A program `S` implements a specification `T` if what an observer sees of its runs, the operations
`event` of its steps, are runs of `T`.

Main results:

* `Simulation.run`: a simulation maps every run of `S` to a run of `T`.
* `Shows`: what `S` can do so that a given sequence of operations is seen.
* `traces_iff`: if moreover `S` can do each operation of `T` from states where it rests, it has
  exactly the traces of `T`.
-/

namespace IntroOS.Concurrency.System

variable {σ τ Act Op : Type*} (S : System σ Act) (T : System τ Op)

/-- What is seen of a schedule, as far as it can be executed. -/
def trace (event : Act → σ → Option Op) : List Act → σ → List Op
  | [], _ => []
  | a :: as, s => (event a s).toList ++ ((S.step a s).map (trace event as)).getD []

/-- The steps of `S` that are seen are steps of `T`, and the others are none. -/
structure Simulation (event : Act → σ → Option Op) (I : σ → Prop) (abstraction : σ → τ) :
    Prop where
  init : I S.init ∧ abstraction S.init = T.init
  inv : ∀ a s s', I s → S.step a s = some s' → I s'
  seen : ∀ a s s' b, I s → S.step a s = some s' → event a s = some b →
    T.step b (abstraction s) = some (abstraction s')
  unseen : ∀ a s s', I s → S.step a s = some s' → event a s = none → abstraction s' = abstraction s

variable {S T} {event : Act → σ → Option Op} {I : σ → Prop} {abstraction : σ → τ} {as bs : List Act}
  {s s' : σ}

theorem trace_cons {a : Act} (hs : S.step a s = some s') :
    S.trace event (a :: as) s = (event a s).toList ++ S.trace event as s' := by
  rw [trace, hs, Option.map_some, Option.getD_some]

theorem trace_append (hr : S.run as s = some s') :
    S.trace event (as ++ bs) s = S.trace event as s ++ S.trace event bs s' := by
  induction as generalizing s with
  | nil =>
    cases hr
    rfl
  | cons a as ih =>
    obtain ⟨u, hu, hr⟩ := Option.bind_eq_some_iff.mp hr
    rw [List.cons_append, trace_cons hu, trace_cons hu, ih hr, List.append_assoc]

theorem run_append_some (hr : S.run as s = some s') : S.run (as ++ bs) s = S.run bs s' := by
  rw [run_append, hr, Option.bind_some]

theorem Simulation.run (h : Simulation S T event I abstraction) (hs : I s)
    (hr : S.run as s = some s') :
    I s' ∧ T.run (S.trace event as s) (abstraction s) = some (abstraction s') := by
  induction as generalizing s with
  | nil =>
    cases hr
    exact ⟨hs, rfl⟩
  | cons a as ih =>
    obtain ⟨u, hu, hr⟩ := Option.bind_eq_some_iff.mp hr
    obtain ⟨hs', hrest⟩ := ih (h.inv a s u hs hu) hr
    refine ⟨hs', ?_⟩
    rw [trace_cons hu]
    cases hevent : event a s with
    | none =>
      rw [h.unseen a s u hs hu hevent] at hrest
      exact hrest
    | some b =>
      rw [Option.toList_some, List.singleton_append, System.run, h.seen a s u b hs hu hevent,
        Option.bind_some]
      exact hrest

variable (S event) in
/-- Some schedule leads from `s` to a state with the property `P`, and `ops` is seen of it. -/
def Shows (ops : List Op) (P : σ → Prop) (s : σ) : Prop :=
  ∃ as s', S.run as s = some s' ∧ S.trace event as s = ops ∧ P s'

theorem Shows.stop {P : σ → Prop} (h : P s) : S.Shows event [] P s := ⟨[], s, rfl, rfl, h⟩

theorem Shows.of_step {P : σ → Prop} {a : Act} {ops : List Op} (hs : S.step a s = some s')
    (h : S.Shows event ops P s') : S.Shows event ((event a s).toList ++ ops) P s := by
  obtain ⟨as, t, hr, rfl, ht⟩ := h
  refine ⟨a :: as, t, ?_, trace_cons hs, ht⟩
  rw [System.run, hs, Option.bind_some, hr]

theorem Shows.silent {P : σ → Prop} {a : Act} {ops : List Op} (hs : S.step a s = some s')
    (hevent : event a s = none) (h : S.Shows event ops P s') : S.Shows event ops P s := by
  have hstep := h.of_step hs
  rwa [hevent] at hstep

theorem Shows.seen {P : σ → Prop} {a : Act} {b : Op} {ops : List Op} (hs : S.step a s = some s')
    (hevent : event a s = some b) (h : S.Shows event ops P s') : S.Shows event (b :: ops) P s := by
  have hstep := h.of_step hs
  rwa [hevent] at hstep

theorem Shows.append {P Q : σ → Prop} {ops ops' : List Op} (h : S.Shows event ops P s)
    (hrest : ∀ s', P s' → S.Shows event ops' Q s') : S.Shows event (ops ++ ops') Q s := by
  obtain ⟨as, t, hr, rfl, ht⟩ := h
  obtain ⟨bs, t', hr', rfl, ht'⟩ := hrest t ht
  refine ⟨as ++ bs, t', ?_, trace_append hr, ht'⟩
  rw [run_append_some hr, hr']

/-- With the invariant, and with what the specification does meanwhile. -/
theorem Simulation.shows (h : Simulation S T event I abstraction) {P : σ → Prop} {ops : List Op}
    (hs : I s) (hshows : S.Shows event ops P s) :
    S.Shows event ops
      (fun s' => P s' ∧ I s' ∧ T.run ops (abstraction s) = some (abstraction s')) s := by
  obtain ⟨as, t, hr, rfl, ht⟩ := hshows
  exact ⟨as, t, hr, rfl, ht, h.run hs hr⟩

/-- From the states `Rests`, `S` can do by itself each operation that `T` can do, and comes to rest
    again. -/
def Offers (S : System σ Act) (T : System τ Op) (event : Act → σ → Option Op) (I : σ → Prop)
    (abstraction : σ → τ) (Rests : σ → Prop) : Prop :=
  ∀ s b t, I s → Rests s → T.step b (abstraction s) = some t → S.Shows event [b] Rests s

theorem Offers.run {Rests : σ → Prop} (h : Simulation S T event I abstraction)
    (hoffers : Offers S T event I abstraction Rests) {ops : List Op} {t : τ} (hs : I s)
    (hrests : Rests s) (ht : T.run ops (abstraction s) = some t) : S.Shows event ops Rests s := by
  induction ops generalizing s with
  | nil => exact .stop hrests
  | cons b ops ih =>
    obtain ⟨t', hb, ht⟩ := Option.bind_eq_some_iff.mp ht
    refine (h.shows hs (hoffers s b t' hs hrests hb)).append ?_
    rintro s' ⟨hrests', hs', hb'⟩
    rw [System.run, hb, Option.bind_some, System.run, Option.some.injEq] at hb'
    rw [hb'] at ht
    exact ih hs' hrests' ht

/-- What is seen of the runs of `S` are exactly the runs of `T`. -/
theorem traces_iff {Rests : σ → Prop} (h : Simulation S T event I abstraction)
    (hoffers : Offers S T event I abstraction Rests) (hrests : S.Shows event [] Rests S.init)
    (ops : List Op) :
    (∃ as s, S.run as S.init = some s ∧ S.trace event as S.init = ops) ↔
      ∃ t, T.run ops T.init = some t := by
  constructor
  · rintro ⟨as, s, hr, rfl⟩
    refine ⟨abstraction s, ?_⟩
    rw [← h.init.2]
    exact (h.run h.init.1 hr).2
  · rintro ⟨t, ht⟩
    have hshows : S.Shows event ([] ++ ops) Rests S.init := by
      refine (h.shows h.init.1 hrests).append ?_
      rintro s ⟨hs, hinv, habs⟩
      rw [System.run, Option.some.injEq] at habs
      rw [← h.init.2, habs] at ht
      exact hoffers.run h hinv hs ht
    obtain ⟨as, s, hr, htrace, -⟩ := hshows
    exact ⟨as, s, hr, htrace⟩

end IntroOS.Concurrency.System
