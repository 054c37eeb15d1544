import Mathlib

/-!
# Singly linked lists in a heap

A heap maps the addresses in use to cells; each cell has an item and a `next` pointer.
`Chain h p l` says that the pointer `p` leads through the cells `l` of the heap `h` to a
null pointer.

Main results:

* `Chain.unique`, `Chain.nodup`: the cells of a chain, without repetition.
* `Chain.frame`: a chain does not see changes outside its cells.
* `Chain.link`: a new cell behind the last one.
-/

namespace IntroOS.LinkedList

/-- A cell of the heap. -/
structure Cell (Addr α : Type*) where
  item : α
  next : Option Addr

/-- The cells in use; a free address has none. -/
abbrev Heap (Addr α : Type*) := Addr → Option (Cell Addr α)

variable {Addr α : Type*}

/-- `p` leads through the cells `l`, given with their items, to a null pointer. -/
def Chain (h : Heap Addr α) : Option Addr → List (Addr × α) → Prop
  | p, [] => p = none
  | p, (a, x) :: l => p = some a ∧ ∃ next, h a = some ⟨x, next⟩ ∧ Chain h next l

/-- The pointer to the last cell; null if there is none. -/
def last (l : List (Addr × α)) : Option Addr := l.getLast?.map Prod.fst

@[simp] theorem last_concat (l : List (Addr × α)) (c : Addr × α) : last (l ++ [c]) = some c.1 := by
  simp [last]

theorem last_cons (c : Addr × α) {l : List (Addr × α)} (hl : l ≠ []) : last (c :: l) = last l := by
  obtain ⟨d, m, rfl⟩ := List.exists_cons_of_ne_nil hl
  simp [last, List.getLast?_cons_cons]

theorem last_eq_none {l : List (Addr × α)} : last l = none ↔ l = [] := by
  simp [last]

/-- A list with a last cell. -/
theorem eq_concat_of_last {a : Addr} {l : List (Addr × α)} (h : last l = some a) :
    ∃ m x, l = m ++ [(a, x)] := by
  rcases List.eq_nil_or_concat l with rfl | ⟨m, c, rfl⟩
  · cases h
  · rw [List.concat_eq_append, last_concat] at h
    cases h
    exact ⟨m, c.2, List.concat_eq_append⟩

namespace Chain

variable {h h' : Heap Addr α} {p : Option Addr} {a b : Addr} {x y : α} {l m : List (Addr × α)}

@[simp] theorem nil_iff : Chain h p [] ↔ p = none := Iff.rfl

/-- A null pointer has the empty chain only. -/
theorem eq_nil_iff (hc : Chain h p l) : l = [] ↔ p = none := by
  cases l with
  | nil => simpa using hc
  | cons c l =>
    obtain ⟨rfl, -⟩ := hc
    simp

theorem exists_of_some (hc : Chain h (some a) l) : ∃ x m, l = (a, x) :: m := by
  cases l with
  | nil => cases hc
  | cons c l =>
    obtain ⟨ha, -⟩ := hc
    cases ha
    exact ⟨c.2, l, rfl⟩

/-- Each cell of a chain is in use. -/
theorem in_use (hc : Chain h p l) (hmem : (a, x) ∈ l) : ∃ next, h a = some ⟨x, next⟩ := by
  induction l generalizing p with
  | nil => cases hmem
  | cons c l ih =>
    obtain ⟨-, next, hcell, hrest⟩ := hc
    rcases List.mem_cons.mp hmem with rfl | hmem
    · exact ⟨next, hcell⟩
    · exact ih hrest hmem

/-- A free address is not in a chain. -/
theorem not_mem_of_free (hc : Chain h p l) (ha : h a = none) : a ∉ l.map Prod.fst := by
  rw [List.mem_map]
  rintro ⟨⟨b, x⟩, hmem, rfl⟩
  obtain ⟨next, hcell⟩ := hc.in_use hmem
  rw [ha] at hcell
  cases hcell

theorem drop_front (hc : Chain h p (m ++ (a, x) :: l)) : Chain h (some a) ((a, x) :: l) := by
  induction m generalizing p with
  | nil =>
    obtain ⟨rfl, -⟩ := id hc
    exact hc
  | cons c m ih =>
    obtain ⟨-, next, -, hrest⟩ := hc
    exact ih hrest

theorem unique (hc : Chain h p l) (hc' : Chain h p m) : l = m := by
  induction l generalizing p m with
  | nil =>
    obtain rfl := nil_iff.mp hc
    exact ((hc'.eq_nil_iff).mpr rfl).symm
  | cons c l ih =>
    obtain ⟨rfl, next, hcell, hrest⟩ := hc
    obtain ⟨x, m, rfl⟩ := hc'.exists_of_some
    obtain ⟨-, next', hcell', hrest'⟩ := hc'
    rw [hcell] at hcell'
    cases hcell'
    rw [ih hrest hrest']

/-- A chain does not run through a cell twice: it would never end. -/
theorem nodup (hc : Chain h p l) : (l.map Prod.fst).Nodup := by
  induction l generalizing p with
  | nil => exact List.nodup_nil
  | cons c l ih =>
    obtain ⟨a, x⟩ := c
    obtain ⟨-, next, hcell, hrest⟩ := id hc
    refine List.nodup_cons.mpr ⟨fun hmem => ?_, ih hrest⟩
    obtain ⟨⟨b, y⟩, hcellmem, rfl⟩ := List.mem_map.mp hmem
    obtain ⟨m₁, m₂, rfl⟩ := List.append_of_mem hcellmem
    -- the chain from the second visit is shorter than the one from the first
    have hfirst : Chain h (some b) ((b, x) :: (m₁ ++ (b, y) :: m₂)) := ⟨rfl, next, hcell, hrest⟩
    have hlen := congrArg List.length (hfirst.unique (drop_front hrest))
    simp only [List.length_cons, List.length_append] at hlen
    omega

/-- Changes to other cells leave a chain as it is. -/
theorem frame (hc : Chain h p l) (heq : ∀ a ∈ l.map Prod.fst, h' a = h a) : Chain h' p l := by
  induction l generalizing p with
  | nil => exact hc
  | cons c l ih =>
    obtain ⟨rfl, next, hcell, hrest⟩ := hc
    refine ⟨rfl, next, ?_, ih hrest fun b hb => heq b (List.mem_cons_of_mem _ hb)⟩
    rw [heq c.1 List.mem_cons_self, hcell]

/-- Behind the last cell there is a null pointer. -/
theorem last_cell (hc : Chain h p (l ++ [(a, x)])) : h a = some ⟨x, none⟩ := by
  obtain ⟨-, next, hcell, hrest⟩ := hc.drop_front
  rw [nil_iff.mp hrest] at hcell
  exact hcell

variable [DecidableEq Addr]

theorem update_of_not_mem (hc : Chain h p l) (ha : a ∉ l.map Prod.fst)
    (c : Option (Cell Addr α)) : Chain (Function.update h a c) p l :=
  hc.frame fun _ hb => Function.update_of_ne (ne_of_mem_of_not_mem hb ha) _ _

/-- The last cell is linked to a cell outside the chain that has no next one. -/
theorem link (hc : Chain h p (l ++ [(a, x)])) (hb : h b = some ⟨y, none⟩)
    (hmem : b ∉ (l ++ [(a, x)]).map Prod.fst) :
    Chain (Function.update h a (some ⟨x, some b⟩)) p (l ++ [(a, x)] ++ [(b, y)]) := by
  induction l generalizing p with
  | nil =>
    obtain ⟨rfl, next, -, -⟩ := hc
    have hne : b ≠ a := fun heq => hmem (by simp [heq])
    refine ⟨rfl, some b, Function.update_self .., rfl, none, ?_, rfl⟩
    rw [Function.update_of_ne hne, hb]
  | cons c l ih =>
    have hnodup := hc.nodup
    obtain ⟨rfl, next, hcell, hrest⟩ := hc
    have hne : c.1 ≠ a := fun heq => (List.nodup_cons.mp hnodup).1 (by simp [heq])
    refine ⟨rfl, next, ?_, ih hrest fun hb => hmem (List.mem_cons_of_mem _ hb)⟩
    rw [Function.update_of_ne hne, hcell]

end Chain

end IntroOS.LinkedList
