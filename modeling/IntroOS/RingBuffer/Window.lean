import Mathlib

/-!
# Queues in a ring of cells

A ring of `N` cells with the indices `lo`, where the next value is taken, and `hi`, where the next
one is put. The values are in the cells from `lo` on, around the end.

Main results:

* `Holds.insert`, `Holds.remove`: the operations are those of a queue.
-/

namespace IntroOS.RingBuffer

variable {α : Type*} {N lo hi n : ℕ} {cells : ℕ → α} {l : List α} {v : α}

/-- The `n` values from `lo` on. -/
def window (N : ℕ) (cells : ℕ → α) (lo n : ℕ) : List α :=
  (List.range n).map fun k => cells ((lo + k) % N)

/-- Different cells of the window are different cells of the ring. -/
theorem index_ne {j k : ℕ} (hj : j < N) (hk : k < j) : (lo + k) % N ≠ (lo + j) % N := by
  intro heq
  have hmod : k ≡ j [MOD N] := Nat.ModEq.add_left_cancel' lo heq
  exact hk.ne (hmod.eq_of_lt_of_lt (hk.trans hj) hj)

theorem window_update (hn : n < N) (cells : ℕ → α) (lo : ℕ) (v : α) :
    window N (Function.update cells ((lo + n) % N) v) lo (n + 1) = window N cells lo n ++ [v] := by
  unfold window
  rw [List.range_succ, List.map_append, List.map_singleton, Function.update_self]
  congr 1
  refine List.map_congr_left fun k hk => ?_
  exact Function.update_of_ne (index_ne hn (List.mem_range.mp hk)) ..

theorem window_succ (hlo : lo < N) (cells : ℕ → α) (n : ℕ) :
    window N cells lo (n + 1) = cells lo :: window N cells ((lo + 1) % N) n := by
  unfold window
  rw [List.range_succ_eq_map, List.map_cons, List.map_map, Nat.add_zero, Nat.mod_eq_of_lt hlo]
  congr 1
  refine List.map_congr_left fun k _ => ?_
  rw [Function.comp_apply, Nat.mod_add_mod, Nat.succ_eq_add_one, Nat.add_assoc, Nat.add_comm 1 k]

/-- The ring holds the values `l`. -/
structure Holds (N : ℕ) (cells : ℕ → α) (lo hi : ℕ) (l : List α) : Prop where
  lo_lt : lo < N
  length_le : l.length ≤ N
  hi_eq : hi = (lo + l.length) % N
  window_eq : window N cells lo l.length = l

theorem Holds.nil (hN : 0 < N) (cells : ℕ → α) : Holds N cells 0 0 [] :=
  ⟨hN, Nat.zero_le N, (Nat.zero_mod N).symm, rfl⟩

theorem Holds.insert (h : Holds N cells lo hi l) (hlt : l.length < N) (v : α) :
    Holds N (Function.update cells hi v) lo ((hi + 1) % N) (l ++ [v]) where
  lo_lt := h.lo_lt
  length_le := by
    rw [List.length_append, List.length_singleton]
    exact hlt
  hi_eq := by
    rw [h.hi_eq, List.length_append, List.length_singleton, Nat.mod_add_mod, Nat.add_assoc]
  window_eq := by
    rw [h.hi_eq, List.length_append, List.length_singleton, window_update hlt, h.window_eq]

theorem Holds.head (h : Holds N cells lo hi (v :: l)) : cells lo = v := by
  have hwindow := h.window_eq
  rw [List.length_cons, window_succ h.lo_lt] at hwindow
  exact List.head_eq_of_cons_eq hwindow

theorem Holds.remove (h : Holds N cells lo hi (v :: l)) : Holds N cells ((lo + 1) % N) hi l where
  lo_lt := Nat.mod_lt _ (Nat.zero_lt_of_lt h.lo_lt)
  length_le := (Nat.le_succ _).trans h.length_le
  hi_eq := by
    rw [h.hi_eq, List.length_cons, Nat.mod_add_mod, Nat.add_assoc, Nat.add_comm 1]
  window_eq := by
    have hwindow := h.window_eq
    rw [List.length_cons, window_succ h.lo_lt] at hwindow
    exact List.tail_eq_of_cons_eq hwindow

end IntroOS.RingBuffer
