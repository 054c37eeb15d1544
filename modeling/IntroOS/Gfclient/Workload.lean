import IntroOS.CString.Number
import IntroOS.CString.Compare

/-!
# The workload of the sequential client

Model of `pr1/gflib/workload.c`. `workload_init` reads the words of a file into an array of 100
pointers, `workload_get_path` goes through the array with a counter.

* A file is the list of its bytes; what `fscanf` delivers is copied by `strdup`. A word of more
  than 255 characters does not fit into `temp_buf`.
* The stores are recorded with their indices, also those that do not lie in the array.
* `__sync_fetch_and_add` on an `int` wraps around. In `entry % gUniqueWorkloadPaths` the number of
  paths is an `unsigned short` and becomes an `int`, so the remainder has the sign of `entry`.
* `mode` is `WORKLOAD_SEQ`: nothing sets it.

Main results:

* `initLoop_eq`: the words of the file are stored in their order.
* `getPaths_listed_iff`: when the calls of `workload_get_path` stay in the list.
* `workload_listed_iff`: when a workload is right for a number of calls.
-/

namespace IntroOS.Gfclient

open CString

/-! ## Model -/

/-- `fscanf(file_handle, "%s", temp_buf)`: the word and what remains; none for `EOF`. -/
def fscanf (input : List Byte) : Option (List Byte × List Byte) :=
  match input.dropWhile isSpace with
  | [] => none
  | x :: r =>
    some ((x :: r).takeWhile fun y => !isSpace y, (x :: r).dropWhile fun y => !isSpace y)

theorem fscanf_length {input temp_buf rest : List Byte} (h : fscanf input = some (temp_buf, rest)) :
    rest.length < input.length := by
  unfold fscanf at h
  split at h
  · cases h
  · rename_i x r hdrop
    simp only [Option.some.injEq, Prod.mk.injEq] at h
    obtain ⟨-, rfl⟩ := h
    have hx : isSpace x = false := of_dropWhile_eq_cons hdrop
    have hle := (List.dropWhile_sublist (l := input) isSpace).length_le
    have hrest := (List.dropWhile_sublist (l := r) fun y => !isSpace y).length_le
    rw [hdrop, List.length_cons] at hle
    rw [List.dropWhile_cons_of_pos (by simp [hx])]
    omega

/-- The loop of `workload_init` (lines 26–27): the stores into `gWorkloadPathArray`. -/
def initLoop (input : List Byte) (i : ℕ) : Except Fault (List (ℕ × List Byte)) :=
  match _h : fscanf input with
  | none => .ok []
  | some (temp_buf, rest) =>
    if 256 ≤ temp_buf.length then .error .overflow
    else (initLoop rest (i + 1)).map ((i, cstring temp_buf) :: ·)
termination_by input.length
decreasing_by exact fscanf_length ‹_›

/-- What `workload_init` leaves behind. -/
structure WorkloadPaths where
  /-- the stores into `gWorkloadPathArray` -/
  stores : List (ℕ × List Byte)
  /-- an `unsigned short` -/
  gUniqueWorkloadPaths : ℕ
  deriving DecidableEq, Repr

/-- `workload_init` (lines 14–36); none for `EXIT_FAILURE`. -/
def workloadInit (file : Option (List Byte)) : Except Fault (Option WorkloadPaths) :=
  match file with
  | none => .ok none
  | some input => (initLoop input 0).map fun stores => some ⟨stores, stores.length % 2 ^ 16⟩

/-- `workload_get_path` (lines 42–53): the index, and `counter` after it; none if the division is
    one by zero. -/
def getPath (gUniqueWorkloadPaths : ℕ) (counter : ℤ) : Option ℤ × ℤ :=
  let entry := counter
  (if gUniqueWorkloadPaths = 0 then none else some (entry.tmod gUniqueWorkloadPaths),
    int32 (counter + 1))

/-- The indices of `m` calls. -/
def getPaths (gUniqueWorkloadPaths : ℕ) : ℕ → ℤ → List (Option ℤ)
  | 0, _ => []
  | m + 1, counter =>
    let r := getPath gUniqueWorkloadPaths counter
    r.1 :: getPaths gUniqueWorkloadPaths m r.2

/-! ## The words of a file -/

/-- The words of a file: what is between its white space. -/
def words (input : List Byte) : List (List Byte) := (input.splitOnP isSpace).filter (· ≠ [])

section Words

variable {input t r : List Byte} {x : Byte}

theorem words_space (hx : isSpace x = true) : words (x :: r) = words r := by
  have hsplit := @List.splitOnP_append_cons_of_forall_mem _ isSpace [] nofun x hx r
  rw [List.nil_append] at hsplit
  rw [words, hsplit, List.filter_cons_of_neg (by simp), words]

theorem words_dropWhile (input : List Byte) : words (input.dropWhile isSpace) = words input := by
  induction input with
  | nil => rfl
  | cons x r ih =>
    cases hx : isSpace x with
    | true => rw [List.dropWhile_cons_of_pos hx, ih, words_space hx]
    | false => rw [List.dropWhile_cons_of_neg (by simp [hx])]

/-- A word at the front. -/
theorem words_cons (ht : t ≠ []) (hall : ∀ y ∈ t, isSpace y = false)
    (hr : ∀ y, r.head? = some y → isSpace y = true) : words (t ++ r) = t :: words r := by
  cases r with
  | nil =>
    rw [List.append_nil, words, List.splitOnP_eq_singleton hall, List.filter_cons_of_pos (by simpa)]
    rfl
  | cons y r =>
    have hy := hr y rfl
    rw [words_space hy, words, List.splitOnP_append_cons_of_forall_mem hall y hy,
      List.filter_cons_of_pos (by simpa), words]

theorem fscanf_none (h : fscanf input = none) : words input = [] := by
  unfold fscanf at h
  split at h
  · rename_i hdrop
    rw [← words_dropWhile, hdrop]
    rfl
  · cases h

theorem fscanf_some (h : fscanf input = some (t, r)) : words input = t :: words r := by
  unfold fscanf at h
  split at h
  · cases h
  · rename_i x u hdrop
    simp only [Option.some.injEq, Prod.mk.injEq] at h
    obtain ⟨rfl, rfl⟩ := h
    have hx : isSpace x = false := of_dropWhile_eq_cons hdrop
    have hsplit := List.takeWhile_append_dropWhile (p := fun y => !isSpace y) (l := x :: u)
    rw [← words_dropWhile, hdrop, ← hsplit]
    refine (words_cons ?_ (fun y hy => ?_) fun y hy => ?_).trans ?_
    · rw [List.takeWhile_cons_of_pos (by simp [hx])]
      exact List.cons_ne_nil _ _
    · simpa using List.mem_takeWhile_imp hy
    · obtain ⟨v, hv⟩ := List.head?_eq_some_iff.mp hy
      simpa using of_dropWhile_eq_cons hv
    · rw [hsplit]

/-- The words of the file are stored in their order. -/
theorem initLoop_eq (hlen : ∀ t ∈ words input, t.length ≤ 255) (i : ℕ) :
    initLoop input i = .ok (((words input).map cstring).zipIdx i |>.map Prod.swap) := by
  fun_induction initLoop input i with
  | case1 input i h => rw [fscanf_none h]; rfl
  | case2 input i temp_buf rest h hlong =>
    rw [fscanf_some h] at hlen
    have := hlen temp_buf List.mem_cons_self
    omega
  | case3 input i temp_buf rest h hshort ih =>
    rw [fscanf_some h] at hlen ⊢
    rw [ih fun t ht => hlen t (List.mem_cons_of_mem _ ht)]
    rfl

end Words

/-! ## The calls -/

/-- What a call returns when it is right: an index of the list, at which a path has been stored. -/
def Listed (w : WorkloadPaths) (r : Option ℤ) : Prop :=
  ∃ i : ℕ, r = some (i : ℤ) ∧ i < w.gUniqueWorkloadPaths ∧ i ∈ w.stores.map Prod.fst

/-- What is right about a workload that has been read from `input`, for `m` calls. -/
structure AlwaysListed (w : WorkloadPaths) (input : List Byte) (m : ℕ) : Prop where
  /-- `gWorkloadPathArray` has 100 entries -/
  stores : ∀ s ∈ w.stores, s.1 < 100
  count : w.gUniqueWorkloadPaths = (words input).length
  calls : ∀ r ∈ getPaths w.gUniqueWorkloadPaths m 0, Listed w r

section Calls

variable {g m k : ℕ} {w : WorkloadPaths}

theorem int32_succ (x : ℤ) : int32 (int32 x + 1) = int32 (x + 1) := by
  unfold int32
  exact Int.bmod_add_bmod

/-- The index of the `k`-th call; `counter` has wrapped around when `k` has reached `2^31`. -/
theorem getPaths_eq (g m : ℕ) (c : ℤ) :
    getPaths g m (int32 c) =
      (List.range m).map fun k : ℕ => if g = 0 then none else some ((int32 (c + k)).tmod g) := by
  induction m generalizing c with
  | zero => rfl
  | succ m ih =>
    rw [getPaths, List.range_succ_eq_map, List.map_cons, List.map_map]
    simp only [getPath, int32_succ, ih, Nat.cast_zero, add_zero]
    refine congrArg _ (List.map_congr_left fun k _ => ?_)
    simp only [Function.comp, Nat.cast_succ, add_assoc, add_comm (1 : ℤ)]

theorem getPaths_listed_iff (hg : ∀ i < w.gUniqueWorkloadPaths, i ∈ w.stores.map Prod.fst) :
    (∀ r ∈ getPaths w.gUniqueWorkloadPaths m 0, Listed w r) ↔
      m = 0 ∨ 1 ≤ w.gUniqueWorkloadPaths ∧
        ∀ k < m, 0 ≤ (int32 (k : ℕ)).tmod w.gUniqueWorkloadPaths := by
  have hzero : int32 0 = 0 := int32_natCast (by decide : 0 < 2 ^ 31)
  rw [← hzero, getPaths_eq, hzero]
  simp only [zero_add, List.forall_mem_map, List.mem_range]
  constructor
  · intro h
    rcases Nat.eq_zero_or_pos m with rfl | hm
    · exact Or.inl rfl
    · have hpos : 1 ≤ w.gUniqueWorkloadPaths := by
        obtain ⟨i, -, hi, -⟩ := h 0 hm
        omega
      refine Or.inr ⟨hpos, fun k hk => ?_⟩
      obtain ⟨i, hi, -⟩ := h k hk
      rw [if_neg (by omega), Option.some.injEq] at hi
      omega
  · rintro (rfl | ⟨hpos, h⟩) k hk
    · omega
    · have hlt := Int.tmod_lt_of_pos (int32 (k : ℕ)) (by omega : (0 : ℤ) < w.gUniqueWorkloadPaths)
      have hcast := Int.toNat_of_nonneg (h k hk)
      rw [← hcast] at hlt
      have hi := Int.ofNat_lt.mp hlt
      exact ⟨_, by rw [if_neg (by omega), hcast], hi, hg _ hi⟩

/-- `2^31 - 1` has no divisor among the lengths of a list that fits. -/
theorem not_dvd_max (h2 : 2 ≤ g) (h100 : g ≤ 100) : ¬ g ∣ 2 ^ 31 - 1 := by
  have hall : ∀ d ∈ Finset.Icc 2 100, ¬ d ∣ 2 ^ 31 - 1 := by decide +kernel
  exact hall g (Finset.mem_Icc.mpr ⟨h2, h100⟩)

/-- A negative counter leads to an index of the list only if the length divides it. -/
theorem neg_tmod_nonneg_iff (n : ℕ) : 0 ≤ (-(n : ℤ)).tmod g ↔ g ∣ n := by
  rw [Int.neg_tmod, ← Int.ofNat_tmod, Nat.dvd_iff_mod_eq_zero]
  omega

/-- With at least two paths the calls stay in the list up to the `2^31`-th one; the next one does
    if their number divides `2^31`, and the one behind it does not. -/
theorem indices_nonneg_iff (h2 : 2 ≤ g) (h100 : g ≤ 100) :
    (∀ k < m, 0 ≤ (int32 (k : ℕ)).tmod g) ↔ m ≤ 2 ^ 31 + if g ∣ 2 ^ 31 then 1 else 0 := by
  have hmin : int32 ((2 ^ 31 : ℕ) : ℤ) = -((2 ^ 31 : ℕ) : ℤ) := by unfold int32; decide
  have hnext : int32 ((2 ^ 31 + 1 : ℕ) : ℤ) = -((2 ^ 31 - 1 : ℕ) : ℤ) := by unfold int32; decide
  have hlow : ∀ k < 2 ^ 31, 0 ≤ (int32 (k : ℕ)).tmod g := by
    intro k hk
    rw [int32_natCast hk, ← Int.ofNat_tmod]
    exact Int.natCast_nonneg _
  constructor
  · intro h
    split_ifs with hdvd
    · by_contra hm
      have hlast := h (2 ^ 31 + 1) (by omega)
      rw [hnext, neg_tmod_nonneg_iff] at hlast
      exact not_dvd_max h2 h100 hlast
    · by_contra hm
      have hlast := h (2 ^ 31) (by omega)
      rw [hmin, neg_tmod_nonneg_iff] at hlast
      exact hdvd hlast
  · intro hm k hk
    rcases Nat.lt_or_ge k (2 ^ 31) with hlt | hge
    · exact hlow k hlt
    · split_ifs at hm with hdvd
      · obtain rfl : k = 2 ^ 31 := by omega
        rw [hmin, neg_tmod_nonneg_iff]
        exact hdvd
      · omega

/-- The condition on a number of paths and of calls. -/
theorem calls_iff (h100 : g ≤ 100) :
    (m = 0 ∨ 1 ≤ g ∧ ∀ k < m, 0 ≤ (int32 (k : ℕ)).tmod g) ↔
      (m = 0 ∨ 1 ≤ g) ∧ (g ≤ 1 ∨ m ≤ 2 ^ 31 + if g ∣ 2 ^ 31 then 1 else 0) := by
  rcases Nat.lt_or_ge g 2 with hlt | hge
  · rw [and_iff_left (Or.inl (by omega))]
    refine or_congr_right (and_iff_left_of_imp fun hpos k _ => ?_)
    obtain rfl : g = 1 := by omega
    exact (Int.tmod_one _).ge
  · rw [indices_nonneg_iff hge h100]
    have hpos : 1 ≤ g := by omega
    have hmany : ¬ g ≤ 1 := by omega
    simp only [hpos, hmany, true_and, or_true, false_or]
    exact or_iff_right_of_imp fun hm => by rw [hm]; exact Nat.zero_le _

end Calls

/-- A workload is right for `m` calls exactly if it has at most 100 words, at least one if there
    are calls at all, and `counter` does not lead out of the list, which it does behind the
    `2^31`-th call if there are two words or more. -/
theorem workload_listed_iff (input : List Byte) (hlen : ∀ t ∈ words input, t.length ≤ 255)
    (m : ℕ) :
    ∃ w, workloadInit (some input) = .ok (some w) ∧
      (AlwaysListed w input m ↔
        (words input).length ≤ 100 ∧ (m = 0 ∨ 1 ≤ (words input).length) ∧
          ((words input).length ≤ 1 ∨
            m ≤ 2 ^ 31 + if (words input).length ∣ 2 ^ 31 then 1 else 0)) := by
  have hinit := initLoop_eq hlen 0
  generalize hstores : (((words input).map cstring).zipIdx 0).map Prod.swap = stores at hinit
  have hfst : stores.map Prod.fst = List.range (words input).length := by
    rw [← hstores, List.map_map, List.range_eq_range']
    exact (List.zipIdx_map_snd ..).trans (by rw [List.length_map])
  have hlength : stores.length = (words input).length := by
    rw [← List.length_map, hfst, List.length_range]
  refine ⟨⟨stores, stores.length % 2 ^ 16⟩, by rw [workloadInit, hinit]; rfl, ?_⟩
  have hstored : (∀ s ∈ stores, s.1 < 100) ↔ (words input).length ≤ 100 := by
    rw [← List.forall_mem_map (f := Prod.fst) (P := (· < 100)), hfst]
    simp only [List.mem_range]
    exact ⟨fun h => not_lt.mp fun hlt => lt_irrefl _ (h 100 hlt), fun h i hi => hi.trans_le h⟩
  have hwrap : (words input).length ≤ 100 → stores.length % 2 ^ 16 = (words input).length := by
    intro h
    rw [hlength, Nat.mod_eq_of_lt (by omega)]
  have hcalls : (words input).length ≤ 100 →
      ((∀ r ∈ getPaths (stores.length % 2 ^ 16) m 0, Listed ⟨stores, stores.length % 2 ^ 16⟩ r) ↔
        (m = 0 ∨ 1 ≤ (words input).length) ∧ ((words input).length ≤ 1 ∨
          m ≤ 2 ^ 31 + if (words input).length ∣ 2 ^ 31 then 1 else 0)) := by
    intro h
    rw [← calls_iff h, hwrap h]
    refine @getPaths_listed_iff m ⟨stores, (words input).length⟩ fun i hi => ?_
    rw [hfst]
    exact List.mem_range.mpr hi
  constructor
  · rintro ⟨hlt, -, hlisted⟩
    have h := hstored.mp hlt
    exact ⟨h, (hcalls h).mp hlisted⟩
  · rintro ⟨h, hrest⟩
    exact ⟨hstored.mpr h, hwrap h, (hcalls h).mpr hrest⟩

/-- Two words and three calls. -/
theorem workload_listed_iff_two : ∃ w,
    workloadInit (some (ascii " /a\n/b")) = .ok (some w) ∧ AlwaysListed w (ascii " /a\n/b") 3 := by
  have hwords : words (ascii " /a\n/b") = [ascii "/a", ascii "/b"] := by decide +kernel
  obtain ⟨w, hinit, hiff⟩ := workload_listed_iff (ascii " /a\n/b") (by rw [hwords]; decide) 3
  exact ⟨w, hinit, hiff.mpr (by rw [hwords]; decide)⟩

/-- A file without words, and one call. -/
theorem empty_workload_divides :
    ¬ ∀ (input : List Byte) (w : WorkloadPaths), (∀ t ∈ words input, t.length ≤ 255) →
      workloadInit (some input) = .ok (some w) → ∀ m, AlwaysListed w input m := by
  intro h
  have hlisted := h [] ⟨[], 0⟩ (by decide) (by decide +kernel) 1
  obtain ⟨i, hi, -⟩ := hlisted.calls none (by decide +kernel)
  cases hi

end IntroOS.Gfclient
