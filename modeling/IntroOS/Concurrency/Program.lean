import IntroOS.Concurrency.System

/-!
# Programs of atomic operations, alone and interleaved

A `Prog` is the text of one thread: a tree of atomic operations, each with a
continuation for every response. `alone` runs it without other threads; `threads`
is the system in which every thread has a program and the schedule picks the thread
that performs its next operation. A fault of one thread ends the process.

Main results:

* `alone_bind`: a sequence runs its parts one after the other.
* `Refines.bind`: the rule for sequences of the agreement with an abstract computation.
* `Within.bind`, `Within.safe`: the rules for the property that a program performs
  permitted operations only.
* `Isolates.run`: if the steps of the other threads do not change what a thread
  sees, then in every run each thread behaves as it does alone.
-/

namespace IntroOS.Concurrency

/-- A program over the operations `Op`, where `o` has a response of type `Res o`. -/
inductive Prog (Op : Type) (Res : Op → Type) (α : Type)
  | ret (a : α)
  | op (o : Op) (k : Res o → Prog Op Res α)

namespace Prog

variable {Op : Type} {Res : Op → Type} {α β : Type}

def bind : Prog Op Res α → (α → Prog Op Res β) → Prog Op Res β
  | ret a, f => f a
  | op o k, f => op o fun r => (k r).bind f

instance : Monad (Prog Op Res) where
  pure := ret
  bind := bind

/-- The program of one operation. -/
def perform (o : Op) : Prog Op Res (Res o) := op o ret

@[simp] theorem ret_bind (a : α) (f : α → Prog Op Res β) : (ret a >>= f) = f a := rfl

@[simp] theorem op_bind (o : Op) (k : Res o → Prog Op Res α) (f : α → Prog Op Res β) :
    (op o k >>= f) = op o fun r => k r >>= f := rfl

/-! ## One thread alone -/

section Alone

variable {ε σ : Type} (exec : (o : Op) → σ → Except ε (Res o × σ))

/-- The result of a program and the state it leaves, when nobody else runs. -/
def alone : Prog Op Res α → σ → Except ε (α × σ)
  | ret a, s => .ok (a, s)
  | op o k, s => (exec o s).bind fun rs => (k rs.1).alone rs.2

@[simp] theorem alone_ret (a : α) (s : σ) : (ret a : Prog Op Res α).alone exec s = .ok (a, s) := rfl

theorem alone_op (o : Op) (k : Res o → Prog Op Res α) (s : σ) :
    (op o k).alone exec s = (exec o s).bind fun rs => (k rs.1).alone exec rs.2 := rfl

theorem alone_op_ok {o : Op} {k : Res o → Prog Op Res α} {s s' : σ} {r : Res o}
    (h : exec o s = .ok (r, s')) : (op o k).alone exec s = (k r).alone exec s' := by
  rw [alone_op, h]; rfl

theorem alone_op_error {o : Op} {k : Res o → Prog Op Res α} {s : σ} {e : ε}
    (h : exec o s = .error e) : (op o k).alone exec s = .error e := by
  rw [alone_op, h]; rfl

theorem alone_bind (p : Prog Op Res α) (f : α → Prog Op Res β) (s : σ) :
    (p >>= f).alone exec s = (p.alone exec s).bind fun as => (f as.1).alone exec as.2 := by
  induction p generalizing s with
  | ret a => rfl
  | op o k ih =>
    rw [op_bind, alone_op, alone_op]
    cases exec o s with
    | error e => rfl
    | ok rs => exact ih rs.1 rs.2

/-- The run of `p` from `s` agrees with the abstract computation `m`: both end with the
    same fault, or both end and their results are related by `Φ`. -/
def Refines (p : Prog Op Res α) (s : σ) (m : Except ε β) (Φ : α → σ → β → Prop) : Prop :=
  match p.alone exec s, m with
  | .ok (a, s'), .ok b => Φ a s' b
  | .error e, .error e' => e = e'
  | _, _ => False

variable {exec}

theorem Refines.ret {a : α} {s : σ} {b : β} {Φ : α → σ → β → Prop} (h : Φ a s b) :
    Refines exec (ret a) s (.ok b) Φ := h

theorem Refines.op {o : Op} {k : Res o → Prog Op Res α} {s s' : σ} {r : Res o} {m : Except ε β}
    {Φ : α → σ → β → Prop} (he : exec o s = .ok (r, s')) (h : Refines exec (k r) s' m Φ) :
    Refines exec (op o k) s m Φ := by
  unfold Refines at h ⊢
  rwa [alone_op_ok exec he]

theorem Refines.fault {o : Op} {k : Res o → Prog Op Res α} {s : σ} {e : ε}
    {Φ : α → σ → β → Prop} (he : exec o s = .error e) :
    Refines exec (Prog.op o k) s (.error e) Φ := by
  unfold Refines
  rw [alone_op_error exec he]

/-- Sequences: refine the first part, then the second one from every related result. -/
theorem Refines.bind {γ : Type} {p : Prog Op Res α} {f : α → Prog Op Res γ} {s : σ}
    {m : Except ε β} {δ : Type} {g : β → Except ε δ} {Φ : α → σ → β → Prop}
    {Ψ : γ → σ → δ → Prop} (hp : Refines exec p s m Φ)
    (hf : ∀ a s' b, Φ a s' b → Refines exec (f a) s' (g b) Ψ) :
    Refines exec (p >>= f) s (m.bind g) Ψ := by
  unfold Refines at hp
  unfold Refines
  rw [alone_bind]
  cases ha : p.alone exec s with
  | error e =>
    cases m with
    | error e' => rw [ha] at hp; exact hp
    | ok b => rw [ha] at hp; exact hp.elim
  | ok as =>
    cases m with
    | error e' => rw [ha] at hp; exact hp.elim
    | ok b =>
      rw [ha] at hp
      exact hf _ _ _ hp

/-- A first part that ends without a fault. -/
theorem Refines.seq {γ δ : Type} {p : Prog Op Res α} {f : α → Prog Op Res γ} {s : σ} {b : β}
    {m : Except ε δ} {Φ : α → σ → β → Prop} {Ψ : γ → σ → δ → Prop}
    (hp : Refines exec p s (.ok b) Φ)
    (hf : ∀ a s', Φ a s' b → Refines exec (f a) s' m Ψ) : Refines exec (p >>= f) s m Ψ := by
  unfold Refines at hp
  cases ha : p.alone exec s with
  | error e => rw [ha] at hp; exact hp.elim
  | ok as =>
    rw [ha] at hp
    have := hf _ _ hp
    unfold Refines at this ⊢
    rwa [alone_bind, ha]

theorem Refines.mono {p : Prog Op Res α} {s : σ} {m : Except ε β} {Φ Ψ : α → σ → β → Prop}
    (hp : Refines exec p s m Φ) (h : ∀ a s' b, Φ a s' b → Ψ a s' b) : Refines exec p s m Ψ := by
  unfold Refines at hp ⊢
  cases ha : p.alone exec s with
  | error e =>
    cases m with
    | error e' => rwa [ha] at hp
    | ok b => simp [ha] at hp
  | ok as =>
    cases m with
    | error e' => simp [ha] at hp
    | ok b => rw [ha] at hp; exact h _ _ _ hp

/-- The related result is the one that the abstract computation gives. -/
theorem Refines.result {p : Prog Op Res α} {s : σ} {m : Except ε β} {Φ : α → σ → β → Prop}
    (hp : Refines exec p s m Φ) : Refines exec p s m fun a s' b => Φ a s' b ∧ m = .ok b := by
  unfold Refines at hp ⊢
  cases ha : p.alone exec s with
  | error e =>
    cases m with
    | error e' => rwa [ha] at hp
    | ok b => simp [ha] at hp
  | ok as =>
    cases m with
    | error e' => simp [ha] at hp
    | ok b => rw [ha] at hp; exact ⟨hp, rfl⟩

end Alone

/-! ## Permitted operations -/

/-- The program performs operations in `P` only and returns a value in `Q`, provided
    that every response is in `R`. -/
def Within (P : Op → Prop) (R : (o : Op) → Res o → Prop) :
    Prog Op Res α → (α → Prop) → Prop
  | ret a, Q => Q a
  | op o k, Q => P o ∧ ∀ r, R o r → (k r).Within P R Q

section Permitted

variable {P : Op → Prop} {R : (o : Op) → Res o → Prop} {ε σ : Type}
  {exec : (o : Op) → σ → Except ε (Res o × σ)}

@[simp] theorem within_ite {c : Prop} [Decidable c] {p q : Prog Op Res α} {Q : α → Prop} :
    (if c then p else q).Within P R Q ↔ (c → p.Within P R Q) ∧ (¬ c → q.Within P R Q) := by
  by_cases hc : c <;> simp [hc]

theorem Within.bind {p : Prog Op Res α} {f : α → Prog Op Res β} {Q : α → Prop} {Q' : β → Prop}
    (hp : p.Within P R Q) (hf : ∀ a, Q a → (f a).Within P R Q') : (p >>= f).Within P R Q' := by
  induction p with
  | ret a => exact hf a hp
  | op o k ih => exact ⟨hp.1, fun r hr => ih r (hp.2 r hr)⟩

theorem Within.mono {p : Prog Op Res α} {Q Q' : α → Prop} (hp : p.Within P R Q)
    (hQ : ∀ a, Q a → Q' a) : p.Within P R Q' := by
  induction p with
  | ret a => exact hQ a hp
  | op o k ih => exact ⟨hp.1, fun r hr => ih r (hp.2 r hr)⟩

/-- Alone from `s`, the program performs operations in `P` only. -/
def Safe (exec : (o : Op) → σ → Except ε (Res o × σ)) (P : Op → Prop) : Prog Op Res α → σ → Prop
  | ret _, _ => True
  | op o k, s => P o ∧ ∀ r s', exec o s = .ok (r, s') → (k r).Safe exec P s'

theorem Safe.bind {p : Prog Op Res α} {f : α → Prog Op Res β} {s : σ} (hp : p.Safe exec P s)
    (hf : ∀ a s', p.alone exec s = .ok (a, s') → (f a).Safe exec P s') :
    (p >>= f).Safe exec P s := by
  induction p generalizing s with
  | ret a => exact hf a s rfl
  | op o k ih =>
    refine ⟨hp.1, fun r s' he => ih r (hp.2 r s' he) fun a s'' ha => hf a s'' ?_⟩
    rw [alone_op_ok exec he, ha]

theorem Safe.mono {P' : Op → Prop} (hP : ∀ o, P o → P' o) {p : Prog Op Res α} {s : σ}
    (hp : p.Safe exec P s) : p.Safe exec P' s := by
  induction p generalizing s with
  | ret a => trivial
  | op o k ih => exact ⟨hP o hp.1, fun r s' he => ih r (hp.2 r s' he)⟩

/-- In the states in `I`, which the permitted operations keep, every response is in `R`. -/
theorem Within.safe {I : σ → Prop} {p : Prog Op Res α} {Q : α → Prop}
    (hI : ∀ o s r s', I s → P o → exec o s = .ok (r, s') → R o r ∧ I s')
    (hp : p.Within P R Q) {s : σ} (hs : I s) : p.Safe exec P s := by
  induction p generalizing s with
  | ret a => trivial
  | op o k ih =>
    refine ⟨hp.1, fun r s' he => ?_⟩
    obtain ⟨hr, hs'⟩ := hI o s r s' hs hp.1 he
    exact ih r (hp.2 r hr) hs'

theorem Within.result {I : σ → Prop} {p : Prog Op Res α} {Q : α → Prop}
    (hI : ∀ o s r s', I s → P o → exec o s = .ok (r, s') → R o r ∧ I s')
    (hp : p.Within P R Q) {s s' : σ} {a : α} (hs : I s) (ha : p.alone exec s = .ok (a, s')) :
    Q a ∧ I s' := by
  induction p generalizing s with
  | ret b =>
    cases ha
    exact ⟨hp, hs⟩
  | op o k ih =>
    cases he : exec o s with
    | error e => rw [alone_op_error exec he] at ha; cases ha
    | ok rs =>
      obtain ⟨r, u⟩ := rs
      rw [alone_op_ok exec he] at ha
      obtain ⟨hr, hu⟩ := hI o s r u hs hp.1 he
      exact ih r (hp.2 r hr) hu ha

end Permitted

end Prog

/-! ## Interleaved threads -/

/-- A process: what each thread still has to do, the shared state, and the fault that
    ended the process, if there was one. -/
structure Process (Tid Op : Type) (Res : Op → Type) (α ε σ : Type) where
  progs : Tid → Prog Op Res α
  store : σ
  fault : Option ε

section Threads

variable {Tid Op : Type} [DecidableEq Tid] {Res : Op → Type} {α ε σ : Type}
  (exec : Tid → (o : Op) → σ → Except ε (Res o × σ))

/-- Thread `t` performs its next operation. -/
def Process.step (t : Tid) (S : Process Tid Op Res α ε σ) : Option (Process Tid Op Res α ε σ) :=
  match S.fault, S.progs t with
  | none, .op o k =>
    match exec t o S.store with
    | .ok (r, s) => some { S with progs := Function.update S.progs t (k r), store := s }
    | .error e => some { S with fault := some e }
  | _, _ => none

/-- The system of the threads `progs` on the shared state `s`. -/
def threads (progs : Tid → Prog Op Res α) (s : σ) : System (Process Tid Op Res α ε σ) Tid where
  init := ⟨progs, s, none⟩
  step := Process.step exec

/-- The guard on the steps of `threads` given by a condition on the next operation and
    the shared state before it. -/
def opGuard (G : Tid → Op → σ → Prop) (t : Tid) (S : Process Tid Op Res α ε σ) : Prop :=
  ∀ o k, S.progs t = .op o k → G t o S.store

/-- The same guard from a test, as a test on the state of the process. -/
def opCheck (G : Tid → Op → σ → Bool) (t : Tid) (S : Process Tid Op Res α ε σ) : Bool :=
  match S.progs t with
  | .op o _ => G t o S.store
  | .ret _ => true

omit [DecidableEq Tid] in
theorem opGuard_of_opCheck {G : Tid → Op → σ → Bool} {t : Tid} {S : Process Tid Op Res α ε σ}
    (h : opCheck G t S = true) : opGuard (fun t o s => G t o s = true) t S := by
  intro o k hp
  rw [opCheck, hp] at h
  exact h

variable {exec}

theorem Process.step_cases {t : Tid} {S S' : Process Tid Op Res α ε σ}
    (h : Process.step exec t S = some S') :
    S.fault = none ∧ ∃ o k, S.progs t = .op o k ∧
      ((∃ r s, exec t o S.store = .ok (r, s) ∧
          S' = ⟨Function.update S.progs t (k r), s, none⟩) ∨
        ∃ e, exec t o S.store = .error e ∧ S' = ⟨S.progs, S.store, some e⟩) := by
  obtain ⟨progs, s, fault⟩ := S
  unfold Process.step at h
  dsimp only at h ⊢
  cases fault with
  | some e => simp at h
  | none =>
    refine ⟨rfl, ?_⟩
    cases hp : progs t with
    | ret a => simp [hp] at h
    | op o k =>
      refine ⟨o, k, rfl, ?_⟩
      simp only [hp] at h
      cases he : exec t o s with
      | ok rs =>
        rw [he] at h
        exact Or.inl ⟨rs.1, rs.2, rfl, by simpa using h.symm⟩
      | error e =>
        rw [he] at h
        exact Or.inr ⟨e, rfl, by simpa using h.symm⟩

/-- `Sim t s s₀` relates the shared state `s` to the state `s₀` in which thread `t` is
    alone. Under the condition `G`, the operations of `t` in `P t` have the same effect for
    `t` in both, and those of the other threads do not change what `t` sees. -/
structure Isolates (exec : Tid → (o : Op) → σ → Except ε (Res o × σ))
    (G : Tid → Op → σ → Prop) (P : Tid → Op → Prop) (Sim : Tid → σ → σ → Prop) : Prop where
  own {t o s s₀ r s'} : Sim t s s₀ → P t o → G t o s → exec t o s = .ok (r, s') →
    ∃ s₀', exec t o s₀ = .ok (r, s₀') ∧ Sim t s' s₀'
  fails {t o s s₀ e} : Sim t s s₀ → P t o → G t o s → exec t o s = .error e →
    exec t o s₀ = .error e
  frame {t u o s s₀ r s'} : t ≠ u → Sim t s s₀ → P u o → G u o s →
    exec u o s = .ok (r, s') → Sim t s' s₀

/-- What thread `t` still has to do agrees with its whole program `p` alone from `s₀`: it is at
    a state `s₁` of that run. -/
def InStep (exec : Tid → (o : Op) → σ → Except ε (Res o × σ)) (P : Tid → Op → Prop)
    (Sim : Tid → σ → σ → Prop) (t : Tid) (p : Prog Op Res α) (s₀ : σ)
    (S : Process Tid Op Res α ε σ) : Prop :=
  ∃ s₁, Sim t S.store s₁ ∧ (S.progs t).Safe (exec t) (P t) s₁ ∧
    (S.progs t).alone (exec t) s₁ = p.alone (exec t) s₀

/-- In every state of a run whose steps meet `G`, each thread is in step with the run that it
    has alone, and a fault of the process is a fault of some thread alone. -/
theorem Isolates.run {G : Tid → Op → σ → Prop} {P : Tid → Op → Prop} {Sim : Tid → σ → σ → Prop}
    (hI : Isolates exec G P Sim) {progs : Tid → Prog Op Res α} {s : σ} (s₀ : Tid → σ)
    (hP : ∀ t, (progs t).Safe (exec t) (P t) (s₀ t)) (hs : ∀ t, Sim t s (s₀ t))
    {S : Process Tid Op Res α ε σ} (h : (threads exec progs s).Reach (opGuard G) S) :
    (∀ t, InStep exec P Sim t (progs t) (s₀ t) S) ∧
      ∀ e, S.fault = some e → ∃ t, (progs t).alone (exec t) (s₀ t) = .error e := by
  refine h.invariant (I := fun S : Process Tid Op Res α ε σ =>
    (∀ t, InStep exec P Sim t (progs t) (s₀ t) S) ∧
      ∀ e, S.fault = some e → ∃ t, (progs t).alone (exec t) (s₀ t) = .error e)
    ⟨fun t => ⟨s₀ t, hs t, hP t, rfl⟩, fun _ he => by cases he⟩ ?_
  rintro u S S' ⟨ih, -⟩ hg hstep
  obtain ⟨su, hsu, hsafe, hau⟩ := ih u
  obtain ⟨-, o, k, hpu, ⟨r, s', he, rfl⟩ | ⟨e, he, rfl⟩⟩ := Process.step_cases hstep
  · rw [hpu] at hsafe hau
    refine ⟨fun t => ?_, fun _ => nofun⟩
    by_cases htu : t = u
    · subst htu
      obtain ⟨su', heu, hsim⟩ := hI.own hsu hsafe.1 (hg o k hpu) he
      refine ⟨su', hsim, ?_⟩
      dsimp only
      rw [Function.update_self]
      exact ⟨hsafe.2 r su' heu, (Prog.alone_op_ok _ heu).symm.trans hau⟩
    · obtain ⟨st, hst, hat⟩ := ih t
      refine ⟨st, hI.frame htu hst hsafe.1 (hg o k hpu) he, ?_⟩
      dsimp only
      rw [Function.update_of_ne htu]
      exact hat
  · rw [hpu] at hsafe hau
    refine ⟨ih, fun e' he' => ⟨u, ?_⟩⟩
    cases he'
    exact hau.symm.trans (Prog.alone_op_error _ (hI.fails hsu hsafe.1 (hg o k hpu) he))

end Threads

end IntroOS.Concurrency
