import IntroOS.Mtgf.Steque

/-!
# The steque is a list

Programs that call the functions of `steque.h` one after the other on a steque, next to the
same calls on a list of items.

Main results:

* `Represents.call`: one call does on the nodes what it does on the list.
* `refines_list`: so does a sequence of calls; an underflow ends both.
-/

namespace IntroOS.Mtgf

open LinkedList

/-- A call of a function of `steque.h`; where a node is allocated, with the address that
    `malloc` returns. -/
inductive StequeCall (ι : Type)
  | enqueue (node : ℕ) (item : ι)
  | push (node : ℕ) (item : ι)
  | pop
  | cycle
  | front
  | size
  | isempty

/-- What a call returns. -/
inductive StequeRet (ι : Type)
  | void
  | item (x : ι)
  | int (n : ℤ)
  | bool (b : Bool)
  deriving DecidableEq, Repr

namespace Steque

variable {ι : Type}

/-! ## Calls on the nodes and on the list -/

def call (q : Steque ι) : StequeCall ι → Except Halt (StequeRet ι × Steque ι)
  | .enqueue node item => (q.enqueue node item).map fun q => (.void, q)
  | .push node item => .ok (.void, q.push node item)
  | .pop => q.pop.map fun (x, q) => (.item x, q)
  | .cycle => q.cycle.map fun q => (.void, q)
  | .front => q.frontItem.map fun x => (.item x, q)
  | .size => .ok (.int q.size, q)
  | .isempty => .ok (.bool q.isempty, q)

def run (q : Steque ι) : List (StequeCall ι) → Except Halt (List (StequeRet ι) × Steque ι)
  | [] => .ok ([], q)
  | c :: cs => do
    let (ret, q) ← q.call c
    let (rets, q) ← q.run cs
    return (ret :: rets, q)

/-- The address that a call gets from `malloc` is free. -/
def Fits (q : Steque ι) : StequeCall ι → Prop
  | .enqueue node _ | .push node _ => q.heap node = none
  | _ => True

/-- Every call of a sequence gets a free address from `malloc`. -/
def Allocates (q : Steque ι) : List (StequeCall ι) → Prop
  | [] => True
  | c :: cs => q.Fits c ∧ ∀ ret q', q.call c = .ok (ret, q') → q'.Allocates cs

/-- What a call is for: on the list of items. -/
def listCall (l : List ι) : StequeCall ι → Except Halt (StequeRet ι × List ι)
  | .enqueue _ item => .ok (.void, l ++ [item])
  | .push _ item => .ok (.void, item :: l)
  | .pop =>
    match l with
    | [] => .error .underflow
    | x :: l => .ok (.item x, l)
  | .cycle =>
    match l with
    | [] => .ok (.void, [])
    | x :: l => .ok (.void, l ++ [x])
  | .front =>
    match l with
    | [] => .error .underflow
    | x :: l => .ok (.item x, x :: l)
  | .size => .ok (.int l.length, l)
  | .isempty => .ok (.bool l.isEmpty, l)

def listRun (l : List ι) : List (StequeCall ι) → Except Halt (List (StequeRet ι) × List ι)
  | [] => .ok ([], l)
  | c :: cs => do
    let (ret, l) ← listCall l c
    let (rets, l) ← listRun l cs
    return (ret :: rets, l)

/-! ## One call -/

/-- From `front` a finite chain of different nodes with the items of `l` leads to a null
    pointer; `back` is its last node, both are null if there is none, and `N` is its length. -/
def Represents (q : Steque ι) (l : List ι) : Prop :=
  ∃ cells, q.Repr cells ∧ (cells.map Prod.fst).Nodup ∧ cells.map Prod.snd = l ∧
    (q.front = none ↔ l = []) ∧ (q.back = none ↔ l = [])

/-- The results agree: both end in the same way, or return the same and leave the nodes of
    the list. -/
def Agree {α : Type} (m : Except Halt (α × Steque ι)) (m' : Except Halt (α × List ι)) : Prop :=
  match m' with
  | .ok (a, l) => ∃ q, m = .ok (a, q) ∧ q.Represents l
  | .error e => m = .error e

section Calls

variable {q : Steque ι} {l : List ι} {cells : List (ℕ × ι)}

theorem Repr.represents (h : q.Repr cells) : q.Represents (cells.map Prod.snd) := by
  refine ⟨cells, h, h.chain.nodup, rfl, ?_, ?_⟩
  · rw [h.front_eq_none, List.map_eq_nil_iff]
  · rw [h.back, last_eq_none, List.map_eq_nil_iff]

/-- A call on a steque that represents a list returns what it returns on the list, and
    leaves the list that it leaves there. -/
theorem Represents.call (h : q.Represents l) (c : StequeCall ι) (hfit : q.Fits c) :
    Agree (q.call c) (listCall l c) := by
  obtain ⟨cells, h, -, rfl, -⟩ := h
  cases c with
  | enqueue node item =>
    obtain ⟨q', hq, hrepr⟩ := h.enqueue hfit item
    have hcells := hrepr.represents
    rw [List.map_append] at hcells
    exact ⟨q', by rw [Steque.call, hq]; rfl, hcells⟩
  | push node item => exact ⟨_, rfl, (h.push hfit item).represents⟩
  | pop =>
    cases cells with
    | nil => exact congrArg (Except.map _) h.pop_nil
    | cons cell cells =>
      obtain ⟨q', hq, hrepr⟩ := h.pop
      exact ⟨q', by rw [Steque.call, hq]; rfl, hrepr.represents⟩
  | cycle =>
    cases cells with
    | nil => exact ⟨q, congrArg (Except.map _) h.cycle_nil, h.represents⟩
    | cons cell cells =>
      obtain ⟨q', hq, hrepr⟩ := h.cycle
      have hcells := hrepr.represents
      rw [List.map_append] at hcells
      exact ⟨q', by rw [Steque.call, hq]; rfl, hcells⟩
  | front =>
    cases cells with
    | nil => exact congrArg (Except.map _) h.front_nil
    | cons cell cells => exact ⟨q, congrArg (Except.map _) h.front_cons, h.represents⟩
  | size =>
    refine ⟨q, ?_, h.represents⟩
    rw [Steque.call, h.size, List.length_map]
  | isempty =>
    refine ⟨q, ?_, h.represents⟩
    have hempty : q.isempty = (cells.map Prod.snd).isEmpty := by
      rw [Bool.eq_iff_iff, h.isempty, List.isEmpty_iff, List.map_eq_nil_iff]
    rw [Steque.call, hempty]

end Calls

/-! ## Sequences of calls -/

theorem Represents.run {q : Steque ι} {l : List ι} (h : q.Represents l) (cs : List (StequeCall ι))
    (halloc : q.Allocates cs) : Agree (q.run cs) (listRun l cs) := by
  induction cs generalizing q l with
  | nil => exact ⟨q, rfl, h⟩
  | cons c cs ih =>
    obtain ⟨hfit, hrest⟩ := halloc
    have hcall := h.call c hfit
    cases hl : listCall l c with
    | error e =>
      rw [hl] at hcall
      have hq : q.call c = .error e := hcall
      rw [Steque.run, listRun, hl, hq]
      rfl
    | ok r =>
      obtain ⟨ret, l'⟩ := r
      rw [hl] at hcall
      obtain ⟨q', hq, hrepr⟩ := hcall
      have hagree := ih hrepr (hrest ret q' hq)
      rw [Steque.run, listRun, hl, hq]
      cases hl' : listRun l' cs with
      | error e =>
        rw [hl'] at hagree
        have hq' : q'.run cs = .error e := hagree
        simp only [bind, Except.bind, hl', hq']
        rfl
      | ok r =>
        obtain ⟨rets, l''⟩ := r
        rw [hl'] at hagree
        obtain ⟨q'', hq', hrepr'⟩ := hagree
        simp only [bind, Except.bind, hl', hq']
        exact ⟨q'', rfl, hrepr'⟩

/-- Every sequence of calls on a new steque does what it does on a list of items. -/
theorem refines_list (cs : List (StequeCall ι)) (halloc : (init : Steque ι).Allocates cs) :
    Agree ((init : Steque ι).run cs) (listRun [] cs) :=
  Represents.run Repr.init.represents cs halloc

/-- A node goes around, and the steque becomes empty. -/
theorem refines_list_around :
    Agree ((init : Steque ℕ).run [.enqueue 0 7, .cycle, .push 1 8, .cycle, .pop, .pop, .front])
      (listRun [] [.enqueue 0 7, .cycle, .push 1 8, .cycle, .pop, .pop, .front]) := by
  refine refines_list _ ⟨rfl, ?_⟩
  rintro _ _ ⟨⟩
  refine ⟨trivial, ?_⟩
  rintro _ _ ⟨⟩
  refine ⟨rfl, ?_⟩
  rintro _ _ ⟨⟩
  refine ⟨trivial, ?_⟩
  rintro _ _ ⟨⟩
  refine ⟨trivial, ?_⟩
  rintro _ _ ⟨⟩
  refine ⟨trivial, ?_⟩
  rintro _ _ ⟨⟩
  refine ⟨trivial, ?_⟩
  rintro _ _ ⟨⟩

end Steque

end IntroOS.Mtgf
