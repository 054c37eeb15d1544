import Mathlib.Data.List.Basic

/-!
# A loop that serves one connection after the other

The state `σ` is what the process keeps from one connection to the next. A connection is answered,
or is a fault that ends the process; the loop returns when it cannot close a connection.

* `Answers.ok_iff`: if an invariant of the state alone decides what each connection is answered,
  the loop goes through a history exactly if no connection that it comes to is a fault, and each
  answer depends on its own connection only.
* `Answers.concat`: a loop that runs answers the next connection too.
-/

namespace IntroOS.Session

variable {C W σ φ : Type*}

/-- The loop over the connections of a history: the answers, and the state if it still runs. -/
def acceptLoop (one : C → σ → Except φ (W × σ)) (closed : C → Bool) :
    List C → σ → Except φ (List W × Option σ)
  | [], b => .ok ([], some b)
  | c :: cs, b => do
    let (w, b) ← one c b
    if closed c then
      let (ws, rest) ← acceptLoop one closed cs b
      return (w :: ws, rest)
    else
      return ([w], none)

/-- The connections up to the first one that cannot be closed. -/
def handled (closed : C → Bool) : List C → List C
  | [] => []
  | c :: cs => if closed c then c :: handled closed cs else [c]

/-- While `I` holds of the state, the connections with `ends` are answered by `answer`, and the
    others are faults. -/
structure Answers (one : C → σ → Except φ (W × σ)) (I : σ → Prop) (ends : C → Prop)
    (answer : C → W) : Prop where
  ok : ∀ c b, I b → ends c → ∃ b', one c b = .ok (answer c, b') ∧ I b'
  fails : ∀ c b, I b → ¬ ends c → ∃ f, one c b = .error f

namespace Answers

variable {one : C → σ → Except φ (W × σ)} {closed : C → Bool} {I : σ → Prop} {ends : C → Prop}
  {answer : C → W} {c : C} {cs : List C} {b : σ}

theorem cons_iff (h : Answers one I ends answer) (hb : I b) {ws : List W} {rest : Option σ} :
    acceptLoop one closed (c :: cs) b = .ok (ws, rest) ↔
      ends c ∧ ∃ b' ws', I b' ∧ one c b = .ok (answer c, b') ∧ ws = answer c :: ws' ∧
        (closed c = true ∧ acceptLoop one closed cs b' = .ok (ws', rest) ∨
          closed c = false ∧ ws' = [] ∧ rest = none) := by
  rw [acceptLoop]
  by_cases hends : ends c
  · obtain ⟨b', hone, hb'⟩ := h.ok c b hb hends
    rw [hone, and_iff_right hends]
    show (if closed c then acceptLoop one closed cs b' >>= _ else _) = _ ↔ _
    cases hclosed : closed c with
    | true =>
      rw [if_pos rfl]
      constructor
      · intro hrun
        cases hrest : acceptLoop one closed cs b' with
        | error f =>
          rw [hrest] at hrun
          cases hrun
        | ok r =>
          rw [hrest] at hrun
          cases hrun
          exact ⟨b', r.1, hb', rfl, rfl, .inl ⟨rfl, hrest⟩⟩
      · rintro ⟨b'', ws', -, hsame, rfl, ⟨-, hrest⟩ | ⟨hno, -⟩⟩
        · cases hsame
          rw [hrest]
          rfl
        · cases hno
    | false =>
      rw [if_neg Bool.false_ne_true]
      constructor
      · intro hrun
        cases hrun
        exact ⟨b', [], hb', rfl, rfl, .inr ⟨rfl, rfl, rfl⟩⟩
      · rintro ⟨b'', ws', -, -, rfl, ⟨hno, -⟩ | ⟨-, rfl, rfl⟩⟩
        · cases hno
        · rfl
  · obtain ⟨f, hf⟩ := h.fails c b hb hends
    rw [hf]
    constructor
    · intro hrun
      cases hrun
    · rintro ⟨hc, -⟩
      exact absurd hc hends

theorem ok_iff (h : Answers one I ends answer) (hb : I b) (ws : List W) :
    (∃ rest, acceptLoop one closed cs b = .ok (ws, rest)) ↔
      (∀ c ∈ handled closed cs, ends c) ∧ ws = (handled closed cs).map answer := by
  induction cs generalizing b ws with
  | nil =>
    constructor
    · rintro ⟨rest, hrun⟩
      cases hrun
      exact ⟨fun _ hc => absurd hc List.not_mem_nil, rfl⟩
    · rintro ⟨-, rfl⟩
      exact ⟨_, rfl⟩
  | cons c cs ih =>
    cases hclosed : closed c with
    | true =>
      rw [handled, if_pos hclosed, List.forall_mem_cons, List.map_cons]
      constructor
      · rintro ⟨rest, hrun⟩
        obtain ⟨hends, b', ws', hb', -, rfl, ⟨-, hrest⟩ | ⟨hno, -⟩⟩ := (h.cons_iff hb).mp hrun
        · obtain ⟨hall, rfl⟩ := (ih hb' ws').mp ⟨rest, hrest⟩
          exact ⟨⟨hends, hall⟩, rfl⟩
        · cases hclosed.symm.trans hno
      · rintro ⟨⟨hends, hall⟩, rfl⟩
        obtain ⟨b', hone, hb'⟩ := h.ok c b hb hends
        obtain ⟨rest, hrest⟩ := (ih hb' _).mpr ⟨hall, rfl⟩
        exact ⟨rest, (h.cons_iff hb).mpr ⟨hends, b', _, hb', hone, rfl, .inl ⟨hclosed, hrest⟩⟩⟩
    | false =>
      rw [handled, hclosed, if_neg Bool.false_ne_true, List.forall_mem_singleton,
        List.map_singleton]
      constructor
      · rintro ⟨rest, hrun⟩
        obtain ⟨hends, b', ws', -, -, rfl, ⟨hno, -⟩ | ⟨-, rfl, -⟩⟩ := (h.cons_iff hb).mp hrun
        · cases hclosed.symm.trans hno
        · exact ⟨hends, rfl⟩
      · rintro ⟨hends, rfl⟩
        obtain ⟨b', hone, hb'⟩ := h.ok c b hb hends
        exact ⟨none, (h.cons_iff hb).mpr
          ⟨hends, b', [], hb', hone, rfl, .inr ⟨hclosed, rfl, rfl⟩⟩⟩

theorem concat (h : Answers one I ends answer) (hb : I b) {ws : List W} {b' : σ}
    (hrun : acceptLoop one closed cs b = .ok (ws, some b')) (hends : ends c) :
    ∃ rest, acceptLoop one closed (cs ++ [c]) b = .ok (ws ++ [answer c], rest) := by
  induction cs generalizing b ws with
  | nil =>
    cases hrun
    obtain ⟨b₁, hone, hb₁⟩ := h.ok c _ hb hends
    refine ⟨if closed c then some b₁ else none,
      (h.cons_iff hb).mpr ⟨hends, b₁, [], hb₁, hone, rfl, ?_⟩⟩
    cases closed c with
    | true => exact .inl ⟨rfl, rfl⟩
    | false => exact .inr ⟨rfl, rfl, rfl⟩
  | cons d cs ih =>
    obtain ⟨hd, b₁, ws', hb₁, hone, rfl, ⟨hclosed, hrest⟩ | ⟨-, -, hno⟩⟩ :=
      (h.cons_iff hb).mp hrun
    · obtain ⟨rest, hlast⟩ := ih hb₁ hrest
      exact ⟨rest, (h.cons_iff hb).mpr ⟨hd, b₁, _, hb₁, hone, rfl, .inl ⟨hclosed, hlast⟩⟩⟩
    · cases hno

end Answers

end IntroOS.Session
