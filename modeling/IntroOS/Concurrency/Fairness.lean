import IntroOS.Concurrency.System

/-!
# Fair runs

A `Trace` is an infinite run of a system; at every time some action is taken, or nothing
happens. It is weakly fair to some actions if they do not stay possible from some time on without
one of them being taken.

Main results:

* `Trace.invariant`: what holds in every state that is reached holds at every time.
* `LeadsTo.of_rank`: in a fair run something happens at last if in every state before it some
  party can lower a rank, and the other parties do not raise it.
* `weaklyFair_ofSchedule`: schedules that are fair.
-/

namespace IntroOS.Concurrency

/-- An infinite run; `none` is a time at which nothing happens. -/
structure Trace {σ Act : Type*} (S : System σ Act) where
  state : ℕ → σ
  act : ℕ → Option Act
  init : state 0 = S.init
  stutter : ∀ n, act n = none → state (n + 1) = state n
  step : ∀ n a, act n = some a → S.step a (state n) = some (state (n + 1))

namespace Trace

variable {σ Act ι : Type*} {S : System σ Act} (t : Trace S)

/-- Some action in `A` is possible. -/
def Enabled (S : System σ Act) (A : Act → σ → Prop) (s : σ) : Prop :=
  ∃ a s', A a s ∧ S.step a s = some s'

/-- Again and again an action in `A` is taken, or none of them is possible. -/
def WeaklyFair (A : Act → σ → Prop) : Prop :=
  ∀ n, ∃ m, n ≤ m ∧ ((∃ a, t.act m = some a ∧ A a (t.state m)) ∨ ¬ Enabled S A (t.state m))

/-- Whenever `P` holds, `Q` holds then or later. -/
def LeadsTo (P Q : σ → Prop) : Prop := ∀ n, P (t.state n) → ∃ m, n ≤ m ∧ Q (t.state m)

variable {t}

theorem reach (n : ℕ) : S.Reach System.anyStep (t.state n) := by
  induction n with
  | zero =>
    rw [t.init]
    exact .init
  | succ n ih =>
    cases ha : t.act n with
    | none =>
      rw [t.stutter n ha]
      exact ih
    | some a => exact ih.step trivial (t.step n a ha)

theorem invariant {I : σ → Prop} (hI : ∀ s, S.Reach System.anyStep s → I s) (n : ℕ) :
    I (t.state n) := hI _ (reach n)

theorem LeadsTo.trans {P Q R : σ → Prop} (hPQ : t.LeadsTo P Q) (hQR : t.LeadsTo Q R) :
    t.LeadsTo P R := by
  intro n hP
  obtain ⟨m, hnm, hQ⟩ := hPQ n hP
  obtain ⟨k, hmk, hR⟩ := hQR m hQ
  exact ⟨k, hnm.trans hmk, hR⟩

theorem LeadsTo.mono {P P' Q Q' : σ → Prop} (h : t.LeadsTo P Q) (hP : ∀ s, P' s → P s)
    (hQ : ∀ s, Q s → Q' s) : t.LeadsTo P' Q' := by
  intro n hP'
  obtain ⟨m, hnm, hm⟩ := h n (hP _ hP')
  exact ⟨m, hnm, hQ _ hm⟩

/-- What the parties keep while `P` holds: a step reaches `Q`, or lowers the rank, or is not one of
    the helpful party and changes neither the rank nor who is helpful. -/
def Helps (S : System σ Act) (party : ι → Act → σ → Prop) (P Q : σ → Prop) (rank : σ → ℕ)
    (helpful : σ → ι) : Prop :=
  ∀ a s s', S.Reach System.anyStep s → P s → S.step a s = some s' →
    Q s' ∨ P s' ∧ (rank s' < rank s ∨
      rank s' = rank s ∧ helpful s' = helpful s ∧ ¬ party (helpful s) a s)

/-- From `n` on, until `Q` holds or the rank is lower, the rank and the helpful party stay. -/
theorem stays_of_helps {party : ι → Act → σ → Prop} {P Q : σ → Prop} {rank : σ → ℕ}
    {helpful : σ → ι} (hhelps : Helps S party P Q rank helpful) {n m : ℕ} (hnm : n ≤ m)
    (hP : P (t.state n)) :
    (∃ k, n ≤ k ∧ (Q (t.state k) ∨ P (t.state k) ∧ rank (t.state k) < rank (t.state n))) ∨
      P (t.state m) ∧ rank (t.state m) = rank (t.state n) ∧
        helpful (t.state m) = helpful (t.state n) := by
  induction m, hnm using Nat.le_induction with
  | base => exact .inr ⟨hP, rfl, rfl⟩
  | succ m hnm ih =>
    rcases ih with hdone | ⟨hPm, hrank, hhelpful⟩
    · exact .inl hdone
    cases ha : t.act m with
    | none =>
      rw [t.stutter m ha]
      exact .inr ⟨hPm, hrank, hhelpful⟩
    | some a =>
      rcases hhelps a _ _ (reach m) hPm (t.step m a ha) with hQ | ⟨hP', hlt | ⟨hrank', hh', -⟩⟩
      · exact .inl ⟨m + 1, hnm.trans (Nat.le_succ m), .inl hQ⟩
      · exact .inl ⟨m + 1, hnm.trans (Nat.le_succ m), .inr ⟨hP', hlt.trans_eq hrank⟩⟩
      · exact .inr ⟨hP', hrank'.trans hrank, hh'.trans hhelpful⟩

/-- In a run that is fair to every party, `P` leads to `Q` if the helpful party can always take a
    step. -/
theorem LeadsTo.of_rank {party : ι → Act → σ → Prop} (hfair : ∀ i, t.WeaklyFair (party i))
    {P Q : σ → Prop} (rank : σ → ℕ) (helpful : σ → ι)
    (henabled : ∀ s, S.Reach System.anyStep s → P s → Enabled S (party (helpful s)) s)
    (hhelps : Helps S party P Q rank helpful) : t.LeadsTo P Q := by
  suffices h : ∀ r n, rank (t.state n) = r → P (t.state n) → ∃ m, n ≤ m ∧ Q (t.state m) from
    fun n hP => h _ n rfl hP
  intro r
  induction r using Nat.strong_induction_on with
  | _ r ih =>
    intro n hr hP
    have hlower : ∀ k, n ≤ k → P (t.state k) → rank (t.state k) < rank (t.state n) →
        ∃ m, n ≤ m ∧ Q (t.state m) := by
      intro k hnk hPk hlt
      obtain ⟨m, hkm, hQ⟩ := ih _ (hlt.trans_eq hr) k rfl hPk
      exact ⟨m, hnk.trans hkm, hQ⟩
    obtain ⟨m, hnm, hm⟩ := hfair (helpful (t.state n)) n
    rcases stays_of_helps hhelps hnm hP with ⟨k, hnk, hQ | ⟨hPk, hlt⟩⟩ | ⟨hPm, hrank, hhelpful⟩
    · exact ⟨k, hnk, hQ⟩
    · exact hlower k hnk hPk hlt
    rw [← hhelpful] at hm
    rcases hm with ⟨a, ha, hparty⟩ | hdisabled
    · have hstep := t.step m a ha
      rcases hhelps a _ _ (reach m) hPm hstep with hQ | ⟨hP', hlt | ⟨-, -, hother⟩⟩
      · exact ⟨m + 1, hnm.trans (Nat.le_succ m), hQ⟩
      · exact hlower (m + 1) (hnm.trans (Nat.le_succ m)) hP' (hlt.trans_eq hrank)
      · exact absurd hparty hother
    · exact absurd (henabled _ (reach m) hPm) hdisabled

/-! ## The run of a schedule -/

/-- The states of the run that tries the actions of `schedule` in turn. -/
def after (S : System σ Act) (schedule : ℕ → Act) : ℕ → σ
  | 0 => S.init
  | n + 1 => (S.step (schedule n) (after S schedule n)).getD (after S schedule n)

/-- An action that is not possible is skipped. -/
def ofSchedule (S : System σ Act) (schedule : ℕ → Act) : Trace S where
  state := after S schedule
  act n := (S.step (schedule n) (after S schedule n)).map fun _ => schedule n
  init := rfl
  stutter n hn := by rw [after, Option.map_eq_none_iff.mp hn, Option.getD_none]
  step n a ha := by
    obtain ⟨s', hs', rfl⟩ := Option.map_eq_some_iff.mp ha
    rw [after, hs', Option.getD_some]

/-- A schedule is fair to actions if one of them that is possible is tried again and again. -/
theorem weaklyFair_ofSchedule {schedule : ℕ → Act} {A : Act → σ → Prop}
    (h : ∀ n, ∃ m, n ≤ m ∧
      ∀ s, Enabled S A s → A (schedule m) s ∧ ∃ s', S.step (schedule m) s = some s') :
    (ofSchedule S schedule).WeaklyFair A := by
  intro n
  obtain ⟨m, hnm, hm⟩ := h n
  refine ⟨m, hnm, ?_⟩
  by_cases henabled : Enabled S A ((ofSchedule S schedule).state m)
  · obtain ⟨hA, s', hs'⟩ := hm _ henabled
    refine .inl ⟨schedule m, ?_, hA⟩
    show (S.step (schedule m) (after S schedule m)).map (fun _ => schedule m) = _
    rw [show S.step (schedule m) (after S schedule m) = some s' from hs', Option.map_some]
  · exact .inr henabled

end Trace

end IntroOS.Concurrency
