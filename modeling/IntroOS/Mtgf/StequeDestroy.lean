import IntroOS.Mtgf.StequeList

/-!
# Emptying the steque

`steque_destroy` pops while `N` is not zero, and `steque_pop` follows `front`. A ledger of the
nodes says what `malloc` has returned and what `free` has been given: the nodes in use are those
of the list.

Main results:

* `Repr.destroy`: on a list of `N` nodes, `steque_destroy` frees each of them and nothing else.
* `run_ledger`: over any calls, what is allocated is what is freed and the nodes of the list.
* `destroy_empties`: after any calls, `steque_destroy` leaves the steque as `steque_init` does.
-/

namespace IntroOS.Mtgf

open LinkedList

namespace Steque

variable {ι : Type}

/-! ## Model -/

/-- `steque_destroy` (lines 91–94), with the nodes that are given to `free`; `none` if the loop
    goes on after `tests` tests of its condition. -/
def destroy : ℕ → Steque ι → Option (Except Halt (List ℕ × Steque ι))
  | 0, _ => none
  | tests + 1, q =>
    if q.isempty then some (.ok ([], q))
    else
      match q.pop with
      | .error e => some (.error e)
      | .ok (_, q') =>
        (destroy tests q').map fun r => r.map fun (freed, r) => (q.front.toList ++ freed, r)

/-! ## The loop -/

/-- The heap without some nodes. -/
def without (h : Heap ℕ ι) (nodes : List ℕ) : Heap ℕ ι := fun a => if a ∈ nodes then none else h a

theorem without_nil (h : Heap ℕ ι) : without h [] = h := by
  funext a
  exact if_neg List.not_mem_nil

theorem without_cons (h : Heap ℕ ι) (a : ℕ) (nodes : List ℕ) :
    without (Function.update h a none) nodes = without h (a :: nodes) := by
  funext b
  simp only [without, Function.update_apply, List.mem_cons]
  split_ifs <;> simp_all

section Access

variable {q q' : Steque ι} {a b : ℕ} {x : ι} {p : Option ℕ}

/-- Only a node in use can be accessed. -/
theorem deref_ok {c : Cell ℕ ι} (h : q.deref p = .ok (a, c)) : p = some a ∧ q.heap a = some c := by
  cases p with
  | none => cases h
  | some b =>
    cases hcell : q.heap b with
    | none => simp [deref, hcell] at h
    | some d =>
      simp only [deref, hcell, Except.ok.injEq, Prod.mk.injEq] at h
      obtain ⟨rfl, rfl⟩ := h
      exact ⟨rfl, hcell⟩

/-- `steque_pop` gives the front node to `free`, and changes no other node. -/
theorem pop_heap (h : q.pop = .ok (x, q')) :
    ∃ a, q.front = some a ∧ q'.heap = Function.update q.heap a none := by
  cases hfront : q.front with
  | none => simp [pop, hfront] at h
  | some a =>
    refine ⟨a, rfl, ?_⟩
    cases hcell : q.heap a with
    | none => simp [pop, nodeItem, deref, hfront, hcell, Except.map, bind, Except.bind] at h
    | some c =>
      have hitem := @nodeItem_of_cell ι q a c.item c.next hcell
      have hadvance := @advance_of_cell ι q a c.item c.next hfront hcell
      have hfree : ∀ back, Steque.free ⟨q.heap, c.next, back, q.N⟩ (some a) =
          .ok ⟨Function.update q.heap a none, c.next, back, q.N⟩ :=
        fun back => @free_of_cell ι ⟨q.heap, c.next, back, q.N⟩ a c.item c.next hcell
      simp only [pop, hfront, reduceCtorEq, if_false, hitem, hadvance, bind, Except.bind] at h
      split_ifs at h <;> rw [hfree] at h <;> cases h <;> rfl

end Access

/-- On a steque with the nodes `cells`, the loop tests its condition once for each node and once
    more. It frees the nodes in the order of the list. -/
theorem Repr.destroy {q : Steque ι} {cells : List (ℕ × ι)} (h : q.Repr cells) (tests : ℕ) :
    q.destroy tests =
      if cells.length < tests then
        some (.ok (cells.map Prod.fst, ⟨without q.heap (cells.map Prod.fst), none, none, 0⟩))
      else none := by
  induction cells generalizing q tests with
  | nil =>
    cases tests with
    | zero => rfl
    | succ tests =>
      have hempty : q.isempty = true := h.isempty.mpr rfl
      have hq : q = ⟨without q.heap [], none, none, 0⟩ := by
        obtain ⟨heap, front, back, N⟩ := q
        obtain ⟨hfront, hback, hcount⟩ := h
        cases hfront
        cases hback
        cases hcount
        exact congrArg (fun h => (⟨h, none, none, 0⟩ : Steque ι)) (without_nil heap).symm
      rw [Steque.destroy, if_pos hempty, List.length_nil, if_pos (Nat.succ_pos tests)]
      exact congrArg (fun r => some (Except.ok ([], r))) hq
  | cons cell cells ih =>
    obtain ⟨a, x⟩ := cell
    cases tests with
    | zero => rfl
    | succ tests =>
      have hempty : ¬ q.isempty = true := fun he => List.cons_ne_nil _ _ (h.isempty.mp he)
      obtain ⟨q', hpop, hrepr⟩ := h.pop
      obtain ⟨b, hfront, hheap⟩ := pop_heap hpop
      obtain rfl : a = b := Option.some.inj (h.chain.1.symm.trans hfront)
      have hwithout : without q'.heap (cells.map Prod.fst) =
          without q.heap (a :: cells.map Prod.fst) := by rw [hheap, without_cons]
      rw [Steque.destroy, if_neg hempty, hpop]
      simp only [ih hrepr, hfront, hwithout, List.length_cons, Nat.add_lt_add_iff_right,
        List.map_cons]
      split_ifs <;> rfl

/-! ## The nodes in use -/

section InUse

variable {q q' : Steque ι} {a b : ℕ} {x : ι} {p : Option ℕ}

theorem update_ne_none (h : Heap ℕ ι) (a : ℕ) (c : Cell ℕ ι) (b : ℕ) :
    Function.update h a (some c) b ≠ none ↔ b = a ∨ h b ≠ none := by
  rw [Function.update_apply]
  split_ifs with hb
  · exact iff_of_true (Option.some_ne_none c) (Or.inl hb)
  · exact (or_iff_right hb).symm

theorem setBackNext_inUse (h : q.setBackNext p = .ok q') (b : ℕ) :
    q'.heap b ≠ none ↔ q.heap b ≠ none := by
  unfold setBackNext at h
  cases hderef : q.deref q.back with
  | error e => rw [hderef] at h; cases h
  | ok r =>
    obtain ⟨a, c⟩ := r
    rw [hderef] at h
    cases h
    have hused : q.heap a ≠ none := by
      rw [(deref_ok hderef).2]
      exact Option.some_ne_none c
    rw [update_ne_none]
    exact or_iff_right_of_imp fun heq => heq ▸ hused

theorem advance_heap (h : q.advance = .ok q') : q'.heap = q.heap := by
  unfold advance at h
  cases hderef : q.deref q.front with
  | error e => rw [hderef] at h; cases h
  | ok r =>
    rw [hderef] at h
    cases h
    rfl

theorem enqueue_inUse (h : q.enqueue a x = .ok q') (b : ℕ) :
    q'.heap b ≠ none ↔ b = a ∨ q.heap b ≠ none := by
  rw [← update_ne_none q.heap a ⟨x, none⟩ b]
  unfold enqueue at h
  dsimp only at h
  split_ifs at h with hback
  · cases h
    rfl
  · -- `linkBack` is the assignment to `back->next` with the new node
    cases hlink : (q.newNode a x).setBackNext (some a) with
    | error e =>
      rw [show (q.newNode a x).linkBack a = .error e from hlink] at h
      cases h
    | ok r =>
      rw [show (q.newNode a x).linkBack a = .ok r from hlink] at h
      cases h
      exact setBackNext_inUse hlink b

theorem push_inUse (q : Steque ι) (a : ℕ) (x : ι) (b : ℕ) :
    (q.push a x).heap b ≠ none ↔ b = a ∨ q.heap b ≠ none := by
  have hheap : (q.push a x).heap = Function.update q.heap a (some ⟨x, q.front⟩) := by
    unfold push
    dsimp only
    split_ifs <;> rfl
  rw [hheap, update_ne_none]

theorem cycle_inUse (h : q.cycle = .ok q') (b : ℕ) : q'.heap b ≠ none ↔ q.heap b ≠ none := by
  unfold cycle at h
  split_ifs at h with hback
  · cases h
    exact Iff.rfl
  · cases hlink : q.setBackNext q.front with
    | error e => rw [hlink] at h; cases h
    | ok q₁ =>
      rw [hlink] at h
      cases hadvance : ({ q₁ with back := q₁.front } : Steque ι).advance with
      | error e => simp only [bind, Except.bind, hadvance, reduceCtorEq] at h
      | ok q₂ =>
        simp only [bind, Except.bind, hadvance] at h
        rw [setBackNext_inUse h b, advance_heap hadvance]
        exact setBackNext_inUse hlink b

theorem pop_inUse (h : q.pop = .ok (x, q')) :
    ∃ a, q.front = some a ∧ ∀ b, q'.heap b ≠ none ↔ b ≠ a ∧ q.heap b ≠ none := by
  obtain ⟨a, hfront, hheap⟩ := pop_heap h
  refine ⟨a, hfront, fun b => ?_⟩
  rw [hheap, Function.update_apply]
  split_ifs with hb
  · exact iff_of_false (fun hne => hne rfl) fun hne => hne.1 hb
  · exact (and_iff_right hb).symm

end InUse

/-! ## The ledger -/

/-- The nodes that `malloc` returns to a call. -/
def callMallocs : StequeCall ι → List ℕ
  | .enqueue node _ | .push node _ => [node]
  | _ => []

/-- The nodes that a call gives to `free`: `node = this->front` in `steque_pop`. -/
def callFrees (q : Steque ι) : StequeCall ι → List ℕ
  | .pop => q.front.toList
  | _ => []

/-- The nodes that `malloc` returns to a sequence of calls. -/
def mallocs (cs : List (StequeCall ι)) : List ℕ := cs.flatMap callMallocs

/-- The nodes that a sequence of calls gives to `free`. -/
def frees (q : Steque ι) : List (StequeCall ι) → List ℕ
  | [] => []
  | c :: cs =>
    q.callFrees c ++
      match q.call c with
      | .error _ => []
      | .ok (_, q') => q'.frees cs

/-- A steque with the nodes `cells`; no other node is in use. -/
structure Holds (q : Steque ι) (cells : List (ℕ × ι)) : Prop extends q.Repr cells where
  inUse : ∀ a, q.heap a ≠ none ↔ a ∈ cells.map Prod.fst

section Ledger

variable {q q' : Steque ι} {cells : List (ℕ × ι)} {ret : StequeRet ι} {c : StequeCall ι} {a : ℕ}
  {x : ι}

theorem Holds.init : (init : Steque ι).Holds [] := ⟨Repr.init, fun _ => by simp [Steque.init]⟩

theorem Holds.enqueue (h : q.Holds cells) (hfree : q.heap a = none) (hr : q.enqueue a x = .ok q') :
    q'.Holds (cells ++ [(a, x)]) := by
  obtain ⟨r, heq, hrepr⟩ := h.toRepr.enqueue hfree x
  rw [hr] at heq
  cases heq
  refine ⟨hrepr, fun b => ?_⟩
  rw [enqueue_inUse hr, h.inUse, List.map_append, List.mem_append, or_comm]
  exact or_congr_right List.mem_singleton.symm

theorem Holds.push (h : q.Holds cells) (hfree : q.heap a = none) (x : ι) :
    (q.push a x).Holds ((a, x) :: cells) := by
  refine ⟨h.toRepr.push hfree x, fun b => ?_⟩
  rw [push_inUse, h.inUse, List.map_cons, List.mem_cons]

/-- `steque_pop` takes the first node out of the list, and it is no longer in use. -/
theorem Holds.pop (h : q.Holds ((a, x) :: cells)) {y : ι} (hr : q.pop = .ok (y, q')) :
    q.front = some a ∧ q'.Holds cells := by
  obtain ⟨r, heq, hrepr⟩ := h.toRepr.pop
  rw [hr] at heq
  cases heq
  obtain ⟨b, hfront, hinUse⟩ := pop_inUse hr
  obtain rfl : a = b := Option.some.inj (h.chain.1.symm.trans hfront)
  have hnotin := (List.nodup_cons.mp h.chain.nodup).1
  refine ⟨hfront, hrepr, fun b => ?_⟩
  rw [hinUse, h.inUse, List.map_cons, List.mem_cons]
  constructor
  · rintro ⟨hne, heq | hmem⟩
    · exact absurd heq hne
    · exact hmem
  · intro hmem
    exact ⟨fun heq => hnotin (heq ▸ hmem), Or.inr hmem⟩

theorem Holds.cycle (h : q.Holds ((a, x) :: cells)) (hr : q.cycle = .ok q') :
    q'.Holds (cells ++ [(a, x)]) := by
  obtain ⟨r, heq, hrepr⟩ := h.toRepr.cycle
  rw [hr] at heq
  cases heq
  refine ⟨hrepr, fun b => ?_⟩
  rw [cycle_inUse hr, h.inUse]
  exact ((List.perm_append_singleton (a, x) cells).map Prod.fst).mem_iff.symm

/-- One call: the nodes of the list and the new ones are the freed ones and those of the list
    behind it. -/
theorem Holds.call (h : q.Holds cells) (hfit : q.Fits c) (hcall : q.call c = .ok (ret, q')) :
    ∃ cells', q'.Holds cells' ∧
      (cells.map Prod.fst ++ callMallocs c).Perm (q.callFrees c ++ cells'.map Prod.fst) := by
  cases c with
  | enqueue node item =>
    cases hr : q.enqueue node item with
    | error e => rw [Steque.call, hr] at hcall; cases hcall
    | ok r =>
      rw [Steque.call, hr] at hcall
      cases hcall
      refine ⟨cells ++ [(node, item)], h.enqueue hfit hr, ?_⟩
      rw [List.map_append]
      exact List.Perm.refl _
  | push node item =>
    cases hcall
    exact ⟨(node, item) :: cells, h.push hfit item, List.perm_append_singleton node _⟩
  | pop =>
    cases hr : q.pop with
    | error e => rw [Steque.call, hr] at hcall; cases hcall
    | ok r =>
      rw [Steque.call, hr] at hcall
      cases hcall
      cases cells with
      | nil => rw [h.pop_nil] at hr; cases hr
      | cons cell cells =>
        obtain ⟨hfront, hholds⟩ := h.pop hr
        refine ⟨cells, hholds, ?_⟩
        rw [show q.callFrees .pop = [cell.1] from congrArg Option.toList hfront]
        exact List.Perm.of_eq (List.append_nil _)
  | cycle =>
    cases hr : q.cycle with
    | error e => rw [Steque.call, hr] at hcall; cases hcall
    | ok r =>
      rw [Steque.call, hr] at hcall
      cases hcall
      cases cells with
      | nil =>
        rw [h.cycle_nil] at hr
        cases hr
        exact ⟨[], h, List.Perm.refl _⟩
      | cons cell cells =>
        refine ⟨cells ++ [cell], h.cycle hr, ?_⟩
        have hperm := (List.perm_append_singleton cell cells).map Prod.fst
        exact (List.Perm.of_eq (List.append_nil _)).trans hperm.symm
  | front =>
    cases hfront : q.frontItem with
    | error e => rw [Steque.call, hfront] at hcall; cases hcall
    | ok x =>
      rw [Steque.call, hfront] at hcall
      cases hcall
      exact ⟨cells, h, by simp [callMallocs, callFrees]⟩
  | size =>
    cases hcall
    exact ⟨cells, h, by simp [callMallocs, callFrees]⟩
  | isempty =>
    cases hcall
    exact ⟨cells, h, by simp [callMallocs, callFrees]⟩

theorem run_ok_cons {cs : List (StequeCall ι)} {rets : List (StequeRet ι)}
    (h : q.run (c :: cs) = .ok (rets, q')) :
    ∃ ret q₁ rets', q.call c = .ok (ret, q₁) ∧ q₁.run cs = .ok (rets', q') := by
  cases hcall : q.call c with
  | error e => simp [run, hcall, bind, Except.bind] at h
  | ok r =>
    obtain ⟨ret, q₁⟩ := r
    cases hrest : q₁.run cs with
    | error e => simp [run, hcall, hrest, bind, Except.bind] at h
    | ok r =>
      obtain ⟨rets', q₂⟩ := r
      simp only [run, hcall, hrest, bind, Except.bind, pure, Except.pure] at h
      cases h
      exact ⟨ret, q₁, rets', rfl, hrest⟩

/-- Over any calls, the nodes of the list and the new ones are the freed ones and those of the
    list at the end. -/
theorem run_ledger {cs : List (StequeCall ι)} {rets : List (StequeRet ι)} (h : q.Holds cells)
    (halloc : q.Allocates cs) (hrun : q.run cs = .ok (rets, q')) :
    ∃ cells', q'.Holds cells' ∧
      (cells.map Prod.fst ++ mallocs cs).Perm (q.frees cs ++ cells'.map Prod.fst) := by
  induction cs generalizing q cells rets with
  | nil =>
    cases hrun
    exact ⟨cells, h, List.Perm.of_eq (List.append_nil _)⟩
  | cons c cs ih =>
    obtain ⟨ret, q₁, rets', hcall, hrest⟩ := run_ok_cons hrun
    obtain ⟨cells₁, h₁, hperm₁⟩ := h.call halloc.1 hcall
    obtain ⟨cells', h', hperm'⟩ := ih h₁ (halloc.2 ret q₁ hcall) hrest
    refine ⟨cells', h', ?_⟩
    have hfrees : q.frees (c :: cs) = q.callFrees c ++ q₁.frees cs := by
      rw [frees, hcall]
    rw [hfrees, mallocs, List.flatMap_cons, ← List.append_assoc, List.append_assoc (callFrees q c)]
    apply (hperm₁.append_right _).trans
    rw [List.append_assoc]
    exact hperm'.append_left _

end Ledger

/-! ## Emptying -/

/-- After any sequence of calls on a new steque, `steque_destroy` ends after `N` pops. Each node
    that has been allocated and not popped is freed, once; the steque is as after `steque_init`.
    Whatever has become of the other nodes, they are not accessed. -/
theorem destroy_empties (cs : List (StequeCall ι)) (halloc : (init : Steque ι).Allocates cs)
    (rets : List (StequeRet ι)) (q : Steque ι) (hrun : (init : Steque ι).run cs = .ok (rets, q)) :
    ∃ freed : List ℕ, (freed.length : ℤ) = q.N ∧
      (∀ tests, q.destroy tests =
        if freed.length < tests then some (.ok (freed, init)) else none) ∧
      freed.Nodup ∧ (mallocs cs).Perm (frees init cs ++ freed) ∧
      ∀ heap : Heap ℕ ι, (∀ a ∈ freed, heap a = q.heap a) → ∀ tests, freed.length < tests →
        destroy tests { q with heap := heap } =
          some (.ok (freed, { (init : Steque ι) with heap := without heap freed })) := by
  obtain ⟨cells, h, hperm⟩ := run_ledger Holds.init halloc hrun
  have hempty : (⟨without q.heap (cells.map Prod.fst), none, none, 0⟩ : Steque ι) = init := by
    refine congrArg (fun h => (⟨h, none, none, 0⟩ : Steque ι)) (funext fun a => ?_)
    rw [without]
    split_ifs with ha
    · rfl
    · exact not_not.mp fun hne => ha ((h.inUse a).mp hne)
  refine ⟨cells.map Prod.fst, ?_, fun tests => ?_, h.chain.nodup, hperm, ?_⟩
  · rw [h.count, List.length_map]
  · rw [h.toRepr.destroy tests, hempty, List.length_map]
  · intro heap hheap tests htests
    have hrepr : ({ q with heap := heap } : Steque ι).Repr cells :=
      ⟨h.chain.frame hheap, h.back, h.count⟩
    rw [hrepr.destroy tests, if_pos (by rwa [List.length_map] at htests)]
    rfl

/-- Two nodes, of which one has been popped and its address used again. -/
theorem destroy_empties_again : ∃ rets, ∃ q : Steque ℕ,
    (init : Steque ℕ).run [.enqueue 0 7, .enqueue 1 8, .pop, .push 0 9] = .ok (rets, q) ∧
      ∃ freed : List ℕ, (freed.length : ℤ) = q.N ∧ (∀ tests, q.destroy tests =
        if freed.length < tests then some (.ok (freed, init)) else none) := by
  have halloc : (init : Steque ℕ).Allocates [.enqueue 0 7, .enqueue 1 8, .pop, .push 0 9] := by
    refine ⟨rfl, ?_⟩
    rintro _ _ ⟨⟩
    refine ⟨rfl, ?_⟩
    rintro _ _ ⟨⟩
    refine ⟨trivial, ?_⟩
    rintro _ _ ⟨⟩
    refine ⟨rfl, ?_⟩
    rintro _ _ ⟨⟩
    trivial
  obtain ⟨freed, hlen, hdestroy, -⟩ := destroy_empties _ halloc _ _ rfl
  exact ⟨_, _, rfl, freed, hlen, hdestroy⟩

end Steque

end IntroOS.Mtgf
