import IntroOS.LinkedList.Chain

/-!
# Model of the steque

Model of `pr1/mtgf/steque.c` (its interface is `steque.h`). The statements that access the
nodes are functions of their own, so that those of `steque_enqueue` and `steque_pop` can
also be interleaved.

* Nodes are cells of a heap. `malloc` succeeds, and which free address it returns is an
  argument.
* An access through a null pointer or to a freed node ends the process.
* `N` is an integer without bounds.

Main results:

* `Repr.enqueue`, `Repr.push`, `Repr.pop`, `Repr.cycle`: on a steque that represents a list,
  the functions append to the list, put an item in front of it, remove its head and move it
  to the end.
* `Repr.pop_nil`, `Repr.front_nil`: the underflows.
-/

namespace IntroOS.Mtgf

open LinkedList

/-- How the process can end. -/
inductive Halt
  /-- `exit(EXIT_FAILURE)` after "Error: underflow in steque_pop." or "… in steque_front." -/
  | underflow
  | badAccess
  deriving DecidableEq, Repr

/-- `steque_t` (`steque.h`, lines 11–15), with the heap of its nodes. -/
structure Steque (ι : Type) where
  heap : Heap ℕ ι
  front : Option ℕ
  back : Option ℕ
  N : ℤ

namespace Steque

variable {ι : Type}

/-- `steque_init` (lines 5–9). -/
def init : Steque ι := ⟨fun _ => none, none, none, 0⟩

/-- `steque_isempty` (lines 45–47). -/
def isempty (q : Steque ι) : Bool := q.N == 0

/-! ## Statements that access the nodes -/

/-- Lines 14–16: the new node, at the free address that `malloc` returns. -/
def newNode (q : Steque ι) (node : ℕ) (item : ι) : Steque ι :=
  { q with heap := Function.update q.heap node (some ⟨item, none⟩) }

/-- The node behind a pointer. -/
def deref (q : Steque ι) (p : Option ℕ) : Except Halt (ℕ × Cell ℕ ι) :=
  match p with
  | none => .error .badAccess
  | some a =>
    match q.heap a with
    | none => .error .badAccess
    | some c => .ok (a, c)

/-- `this->back->next = node` (line 21). -/
def linkBack (q : Steque ι) (node : ℕ) : Except Halt (Steque ι) :=
  (q.deref q.back).map fun (back, c) =>
    { q with heap := Function.update q.heap back (some { c with next := some node }) }

/-- `this->back->next = next` (lines 75 and 78). -/
def setBackNext (q : Steque ι) (next : Option ℕ) : Except Halt (Steque ι) :=
  (q.deref q.back).map fun (back, c) =>
    { q with heap := Function.update q.heap back (some { c with next := next }) }

/-- `ans = node->item` (line 60). -/
def nodeItem (q : Steque ι) (node : Option ℕ) : Except Halt ι :=
  (q.deref node).map fun (_, c) => c.item

/-- `this->front = this->front->next` (line 62). -/
def advance (q : Steque ι) : Except Halt (Steque ι) :=
  (q.deref q.front).map fun (_, c) => { q with front := c.next }

/-- `free(node)` (line 64): a null pointer is ignored. -/
def free (q : Steque ι) (node : Option ℕ) : Except Halt (Steque ι) :=
  match node with
  | none => .ok q
  | some _ => (q.deref node).map fun (a, _) => { q with heap := Function.update q.heap a none }

/-! ## The functions -/

/-- `steque_enqueue` (lines 11–25). -/
def enqueue (q : Steque ι) (node : ℕ) (item : ι) : Except Halt (Steque ι) := do
  let q := q.newNode node item
  let q ← if q.back = none then pure { q with front := some node } else q.linkBack node
  let q := { q with back := some node }
  return { q with N := q.N + 1 }

/-- `steque_pop` (lines 49–69). -/
def pop (q : Steque ι) : Except Halt (ι × Steque ι) :=
  if q.front = none then .error .underflow
  else do
    let node := q.front
    let ans ← q.nodeItem node
    let q ← q.advance
    let q := if q.front = none then { q with back := none } else q
    let q ← q.free node
    return (ans, { q with N := q.N - 1 })

/-- `steque_push` (lines 27–39). -/
def push (q : Steque ι) (node : ℕ) (item : ι) : Steque ι :=
  let q := { q with heap := Function.update q.heap node (some ⟨item, q.front⟩) }
  let q := if q.back = none then { q with back := some node } else q
  let q := { q with front := some node }
  { q with N := q.N + 1 }

/-- `steque_size` (lines 41–43). -/
def size (q : Steque ι) : ℤ := q.N

/-- `steque_cycle` (lines 71–79). -/
def cycle (q : Steque ι) : Except Halt (Steque ι) :=
  if q.back = none then .ok q
  else do
    let q ← q.setBackNext q.front
    let q := { q with back := q.front }
    let q ← q.advance
    q.setBackNext none

/-- `steque_front` (lines 81–89). -/
def frontItem (q : Steque ι) : Except Halt ι :=
  if q.front = none then .error .underflow else q.nodeItem q.front

/-! ## Nodes in use -/

section Access

variable {q : Steque ι} {a b : ℕ} {x : ι} {next : Option ℕ}

theorem deref_of_cell (h : q.heap a = some ⟨x, next⟩) : q.deref (some a) = .ok (a, ⟨x, next⟩) := by
  simp only [deref, h]

theorem linkBack_of_cell (hb : q.back = some b) (h : q.heap b = some ⟨x, next⟩) :
    q.linkBack a =
      .ok { q with heap := Function.update q.heap b (some ⟨x, some a⟩) } := by
  rw [linkBack, hb, deref_of_cell h]
  rfl

theorem setBackNext_of_cell (p : Option ℕ) (hb : q.back = some b)
    (h : q.heap b = some ⟨x, next⟩) :
    q.setBackNext p = .ok { q with heap := Function.update q.heap b (some ⟨x, p⟩) } := by
  rw [setBackNext, hb, deref_of_cell h]
  rfl

theorem nodeItem_of_cell (h : q.heap a = some ⟨x, next⟩) : q.nodeItem (some a) = .ok x := by
  rw [nodeItem, deref_of_cell h]
  rfl

theorem advance_of_cell (hf : q.front = some a) (h : q.heap a = some ⟨x, next⟩) :
    q.advance = .ok { q with front := next } := by
  rw [advance, hf, deref_of_cell h]
  rfl

theorem free_of_cell (h : q.heap a = some ⟨x, next⟩) :
    q.free (some a) = .ok { q with heap := Function.update q.heap a none } := by
  simp only [free, deref_of_cell h]
  rfl

end Access

/-! ## The list of requests -/

/-- A well-formed steque with the nodes `l`, given with their items: `back` is the last node,
    or both pointers are null, and `N` is the number of nodes. -/
structure Repr (q : Steque ι) (l : List (ℕ × ι)) : Prop where
  chain : Chain q.heap q.front l
  back : q.back = last l
  count : q.N = l.length

section Repr

variable {q : Steque ι} {l : List (ℕ × ι)} {a : ℕ} {x : ι}

theorem Repr.init : (init : Steque ι).Repr [] := ⟨rfl, rfl, rfl⟩

theorem Repr.isempty (h : q.Repr l) : q.isempty = true ↔ l = [] := by
  rw [Steque.isempty, h.count, beq_iff_eq, Nat.cast_eq_zero, List.length_eq_zero_iff]

theorem Repr.front_eq_none (h : q.Repr l) : q.front = none ↔ l = [] := h.chain.eq_nil_iff.symm

theorem Repr.enqueue (h : q.Repr l) (hfree : q.heap a = none) (x : ι) :
    ∃ q', q.enqueue a x = .ok q' ∧ q'.Repr (l ++ [(a, x)]) := by
  have hmem := h.chain.not_mem_of_free hfree
  have hchain : Chain (q.newNode a x).heap q.front l := h.chain.update_of_not_mem hmem _
  have hcell : (q.newNode a x).heap a = some ⟨x, none⟩ := Function.update_self ..
  have hlen : q.N + 1 = ((l ++ [(a, x)]).length : ℤ) := by simp [h.count]
  cases hb : q.back with
  | none =>
    obtain rfl : l = [] := last_eq_none.mp (h.back.symm.trans hb)
    refine ⟨⟨(q.newNode a x).heap, some a, some a, q.N + 1⟩, ?_, ?_, ?_, hlen⟩
    · have hnull : (q.newNode a x).back = none := hb
      simp only [Steque.enqueue, hnull, if_pos, pure, Except.pure, bind, Except.bind]
      rfl
    · exact ⟨rfl, none, hcell, rfl⟩
    · exact (last_concat [] (a, x)).symm
  | some b =>
    obtain ⟨m, y, rfl⟩ := eq_concat_of_last (h.back.symm.trans hb)
    have hnull : (q.newNode a x).back = some b := hb
    refine ⟨⟨Function.update (q.newNode a x).heap b (some ⟨y, some a⟩), q.front, some a, q.N + 1⟩,
      ?_, hchain.link hcell hmem, (last_concat _ (a, x)).symm, hlen⟩
    simp only [Steque.enqueue, linkBack_of_cell hnull hchain.last_cell, hnull, reduceCtorEq,
      if_false, pure, Except.pure, bind, Except.bind]
    rfl

theorem Repr.pop_nil (h : q.Repr []) : q.pop = .error .underflow := by
  rw [pop, if_pos (h.front_eq_none.mpr rfl)]

theorem Repr.pop (h : q.Repr ((a, x) :: l)) : ∃ q', q.pop = .ok (x, q') ∧ q'.Repr l := by
  obtain ⟨hfront, next, hcell, hrest⟩ := h.chain
  have hnotin := (List.nodup_cons.mp h.chain.nodup).1
  have hcount : q.N - 1 = l.length := by simp [h.count]
  refine ⟨⟨Function.update q.heap a none, next, last l, q.N - 1⟩, ?_,
    hrest.update_of_not_mem hnotin _, rfl, hcount⟩
  have hitem := nodeItem_of_cell hcell
  have hadvance := advance_of_cell hfront hcell
  rcases eq_or_ne l [] with rfl | hne
  · obtain rfl : next = none := hrest
    have hfree := @free_of_cell ι ⟨q.heap, none, none, q.N⟩ a x none hcell
    simp only [Steque.pop, hfront, hitem, hadvance, if_true, bind, Except.bind, hfree]
    rfl
  · have hnext : next ≠ none := fun hnull => hne (hrest.eq_nil_iff.mpr hnull)
    have hback : q.back = last l := by rw [h.back, last_cons _ hne]
    have hfree := @free_of_cell ι ⟨q.heap, next, q.back, q.N⟩ a x next hcell
    simp only [Steque.pop, hfront, hitem, hadvance, if_neg hnext, bind, Except.bind, hfree]
    rw [hback]
    rfl

theorem Repr.push (h : q.Repr l) (hfree : q.heap a = none) (x : ι) :
    (q.push a x).Repr ((a, x) :: l) := by
  have hmem := h.chain.not_mem_of_free hfree
  have hcell : Function.update q.heap a (some ⟨x, q.front⟩) a = some ⟨x, q.front⟩ :=
    Function.update_self ..
  have hchain : Chain (Function.update q.heap a (some ⟨x, q.front⟩)) (some a) ((a, x) :: l) :=
    ⟨rfl, q.front, hcell, h.chain.update_of_not_mem hmem _⟩
  have hlen : q.N + 1 = (((a, x) :: l).length : ℤ) := by simp [h.count]
  cases hb : q.back with
  | none =>
    obtain rfl : l = [] := last_eq_none.mp (h.back.symm.trans hb)
    rw [Steque.push, hb]
    exact ⟨hchain, rfl, hlen⟩
  | some b =>
    have hne : l ≠ [] := by
      rintro rfl
      rw [h.back] at hb
      cases hb
    rw [Steque.push, hb]
    exact ⟨hchain, by rw [last_cons _ hne, ← h.back, hb]; rfl, hlen⟩

theorem Repr.front_nil (h : q.Repr []) : q.frontItem = .error .underflow := by
  rw [frontItem, if_pos (h.front_eq_none.mpr rfl)]

theorem Repr.front_cons (h : q.Repr ((a, x) :: l)) : q.frontItem = .ok x := by
  obtain ⟨hfront, next, hcell, -⟩ := h.chain
  rw [frontItem, hfront]
  exact nodeItem_of_cell hcell

theorem Repr.size (h : q.Repr l) : q.size = l.length := h.count

theorem Repr.cycle_nil (h : q.Repr []) : q.cycle = .ok q := by
  have hback : q.back = none := h.back
  rw [Steque.cycle, if_pos hback]

/-- The only node is linked to itself, and the link is cut again. -/
theorem Repr.cycle_single (h : q.Repr [(a, x)]) : ∃ q', q.cycle = .ok q' ∧ q'.Repr [(a, x)] := by
  obtain ⟨hfront, next, hcell, -⟩ := h.chain
  have hback : q.back = some a := h.back
  have hlink := setBackNext_of_cell (some a) hback hcell
  have hself : Function.update q.heap a (some ⟨x, some a⟩) a = some ⟨x, some a⟩ :=
    Function.update_self ..
  have hadvance := @advance_of_cell ι
    ⟨Function.update q.heap a (some ⟨x, some a⟩), some a, some a, q.N⟩ a x (some a) rfl hself
  have hcut := @setBackNext_of_cell ι
    ⟨Function.update q.heap a (some ⟨x, some a⟩), some a, some a, q.N⟩ a x (some a) none rfl hself
  refine ⟨⟨Function.update q.heap a (some ⟨x, none⟩), some a, some a, q.N⟩, ?_,
    ⟨rfl, none, Function.update_self .., rfl⟩, rfl, h.count⟩
  simp only [Function.update_idem] at hcut
  simp only [Steque.cycle, hback, hfront, hlink, hadvance, hcut, reduceCtorEq, if_false, bind,
    Except.bind]

theorem Repr.cycle_many (h : q.Repr ((a, x) :: l)) (hne : l ≠ []) :
    ∃ q', q.cycle = .ok q' ∧ q'.Repr (l ++ [(a, x)]) := by
  obtain ⟨hfront, next, hcell, hrest⟩ := h.chain
  have hnotin := (List.nodup_cons.mp h.chain.nodup).1
  obtain ⟨b, hb⟩ : ∃ b, last l = some b :=
    Option.ne_none_iff_exists'.mp fun hnone => hne (last_eq_none.mp hnone)
  have hback : q.back = some b := by rw [h.back, last_cons _ hne, hb]
  obtain ⟨m, y, rfl⟩ := eq_concat_of_last hb
  have hba : a ≠ b := fun heq => hnotin (by simp [heq])
  have hlink := setBackNext_of_cell (some a) hback hrest.last_cell
  have hcell' : Function.update q.heap b (some ⟨y, some a⟩) a = some ⟨x, next⟩ := by
    rw [Function.update_of_ne hba, hcell]
  have hadvance := @advance_of_cell ι
    ⟨Function.update q.heap b (some ⟨y, some a⟩), some a, some a, q.N⟩ a x next rfl hcell'
  have hcut := @setBackNext_of_cell ι
    ⟨Function.update q.heap b (some ⟨y, some a⟩), next, some a, q.N⟩ a x next none rfl hcell'
  have hchain : Chain (Function.update (Function.update q.heap b (some ⟨y, some a⟩)) a
      (some ⟨x, none⟩)) next (m ++ [(b, y)] ++ [(a, x)]) := by
    rw [Function.update_comm hba.symm]
    exact (hrest.update_of_not_mem hnotin _).link (Function.update_self ..) hnotin
  have hlen : q.N = ((m ++ [(b, y)] ++ [(a, x)]).length : ℤ) := by
    rw [h.count]
    simp only [List.length_append, List.length_cons, List.length_nil]
  refine ⟨⟨Function.update (Function.update q.heap b (some ⟨y, some a⟩)) a (some ⟨x, none⟩), next,
    some a, q.N⟩, ?_, hchain, (last_concat _ (a, x)).symm, hlen⟩
  simp only [Steque.cycle, hback, hfront, hlink, hadvance, hcut, reduceCtorEq, if_false, bind,
    Except.bind]

theorem Repr.cycle (h : q.Repr ((a, x) :: l)) :
    ∃ q', q.cycle = .ok q' ∧ q'.Repr (l ++ [(a, x)]) := by
  rcases eq_or_ne l [] with rfl | hne
  · exact h.cycle_single
  · exact h.cycle_many hne

end Repr

end Steque

end IntroOS.Mtgf
