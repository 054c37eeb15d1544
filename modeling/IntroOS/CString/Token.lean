import Mathlib

/-!
# Tokens of a list

`token d s` is the token a tokeniser with delimiter set `d` finds in `s`: the
delimiters at the front are skipped, the longest run of non-delimiters is the
token, and the delimiter that ends it is dropped from the rest.

Main results:

* `token_eq_none_iff`, `token_eq_some_iff`: `token` described by the shape of its
  argument.
* `token_append_open`, `token_append_rest`: what happens to the first token when
  the list is extended on the right.
* `afterTokens_append_length`: a chain of tokens that the extension `x` completes
  leaves at most `|x|` elements.
-/

namespace IntroOS.CString

variable {α : Type*} [DecidableEq α]

/-- The first token of `s` for the delimiters `d`, and the rest of `s` behind the
    delimiter that ends it; `none` if `s` holds delimiters only. -/
def token (d s : List α) : Option (List α × List α) :=
  match s.dropWhile (· ∈ d) with
  | [] => none
  | a :: r => some ((a :: r).takeWhile (· ∉ d), ((a :: r).dropWhile (· ∉ d)).tail)

/-- The token that `strtok` returns. -/
def firstToken (d s : List α) : Option (List α) := (token d s).map Prod.fst

/-- The string that `strtok` goes on with. -/
def restToken (d s : List α) : List α := ((token d s).map Prod.snd).getD []

theorem token_eq_some {d s t : List α} (h : firstToken d s = some t) :
    token d s = some (t, restToken d s) := by
  obtain ⟨⟨t', r⟩, htr, rfl⟩ := Option.map_eq_some_iff.mp h
  simp [restToken, htr]

theorem firstToken_eq_none {d s : List α} : firstToken d s = none ↔ token d s = none :=
  Option.map_eq_none_iff

theorem restToken_of_none {d s : List α} (h : firstToken d s = none) : restToken d s = [] := by
  simp [restToken, firstToken_eq_none.mp h]

theorem firstToken_of_token {d s t r : List α} (h : token d s = some (t, r)) :
    firstToken d s = some t ∧ restToken d s = r := by
  simp [firstToken, restToken, h]

/-! ## The shape of a tokenised list -/

theorem of_dropWhile_eq_cons {β : Type*} {p : β → Bool} {s r : List β} {a : β}
    (h : s.dropWhile p = a :: r) : p a = false := by
  have := List.head_dropWhile_not p (l := s) (by rw [h]; simp)
  simpa only [h, List.head_cons] using this

theorem token_eq_none_iff {d s : List α} : token d s = none ↔ ∀ a ∈ s, a ∈ d := by
  unfold token
  cases h : s.dropWhile (· ∈ d) with
  | nil => simpa using List.dropWhile_eq_nil_iff.mp h
  | cons a r =>
    simp only [reduceCtorEq, false_iff]
    intro hall
    have : s.dropWhile (· ∈ d) = [] := List.dropWhile_eq_nil_iff.mpr (by simpa using hall)
    rw [this] at h
    cases h

@[simp] theorem token_nil (d : List α) : token d [] = none :=
  token_eq_none_iff.mpr (by simp)

@[simp] theorem firstToken_nil (d : List α) : firstToken d [] = none := by simp [firstToken]

@[simp] theorem restToken_nil (d : List α) : restToken d [] = [] := by simp [restToken]

/-- A token that reaches the end of the list. -/
theorem token_open {d sp t : List α} (hsp : ∀ a ∈ sp, a ∈ d) (ht : t ≠ [])
    (htd : ∀ a ∈ t, a ∉ d) : token d (sp ++ t) = some (t, []) := by
  obtain ⟨a, r, rfl⟩ := List.exists_cons_of_ne_nil ht
  have ha : a ∉ d := htd a (by simp)
  unfold token
  rw [List.dropWhile_append_of_pos (by simpa using hsp), List.dropWhile_cons_of_neg (by simpa using ha)]
  have hall : ∀ b ∈ a :: r, (decide (b ∉ d)) = true := by simpa using htd
  simp only [List.takeWhile_eq_self_iff.mpr hall, List.dropWhile_eq_nil_iff.mpr hall, List.tail_nil]

/-- A token that a delimiter ends. -/
theorem token_ended {d sp t r : List α} {y : α} (hsp : ∀ a ∈ sp, a ∈ d) (ht : t ≠ [])
    (htd : ∀ a ∈ t, a ∉ d) (hy : y ∈ d) : token d (sp ++ t ++ y :: r) = some (t, r) := by
  obtain ⟨a, u, rfl⟩ := List.exists_cons_of_ne_nil ht
  have ha : a ∉ d := htd a (by simp)
  have hall : ∀ b ∈ a :: u, (decide (b ∉ d)) = true := by simpa using htd
  unfold token
  rw [List.append_assoc, List.dropWhile_append_of_pos (by simpa using hsp), List.cons_append,
    List.dropWhile_cons_of_neg (by simpa using ha)]
  simp only [← List.cons_append]
  rw [List.takeWhile_append_of_pos hall, List.dropWhile_append_of_pos hall,
    List.takeWhile_cons_of_neg (by simpa using hy), List.dropWhile_cons_of_neg (by simpa using hy),
    List.append_nil, List.tail_cons]

/-- A token at the front of the list. -/
theorem token_front {d t r : List α} {y : α} (ht : t ≠ []) (htd : ∀ a ∈ t, a ∉ d) (hy : y ∈ d) :
    token d (t ++ y :: r) = some (t, r) :=
  @token_ended α _ d [] t r y (by simp) ht htd hy

/-- A token that is the whole list. -/
theorem token_whole {d t : List α} (ht : t ≠ []) (htd : ∀ a ∈ t, a ∉ d) :
    token d t = some (t, []) :=
  @token_open α _ d [] t (by simp) ht htd

theorem token_eq_some_iff {d s t r : List α} :
    token d s = some (t, r) ↔
      ∃ sp, (∀ a ∈ sp, a ∈ d) ∧ t ≠ [] ∧ (∀ a ∈ t, a ∉ d) ∧
        (s = sp ++ t ∧ r = [] ∨ ∃ y ∈ d, s = sp ++ t ++ y :: r) := by
  constructor
  · intro h
    unfold token at h
    cases hs : s.dropWhile (· ∈ d) with
    | nil => rw [hs] at h; cases h
    | cons a u =>
      rw [hs] at h
      simp only [Option.some.injEq, Prod.mk.injEq] at h
      obtain ⟨rfl, rfl⟩ := h
      have ha : a ∉ d := by simpa using of_dropWhile_eq_cons hs
      have hsplit : s = s.takeWhile (· ∈ d) ++ (a :: u) := by
        rw [← hs, List.takeWhile_append_dropWhile]
      refine ⟨s.takeWhile (· ∈ d), fun b hb => by simpa using List.mem_takeWhile_imp hb,
        by rw [List.takeWhile_cons_of_pos (by simpa using ha)]; simp,
        fun b hb => by simpa using List.mem_takeWhile_imp hb, ?_⟩
      have hau := List.takeWhile_append_dropWhile (p := (· ∉ d)) (l := a :: u)
      cases hr : (a :: u).dropWhile (· ∉ d) with
      | nil =>
        left
        rw [hr, List.append_nil] at hau
        exact ⟨by rw [hau]; exact hsplit, by simp⟩
      | cons y r =>
        right
        have hy : y ∈ d := by simpa using of_dropWhile_eq_cons hr
        refine ⟨y, hy, ?_⟩
        rw [hr] at hau
        rw [List.append_assoc, List.tail_cons, hau]
        exact hsplit
  · rintro ⟨sp, hsp, ht, htd, ⟨rfl, rfl⟩ | ⟨y, hy, rfl⟩⟩
    · exact token_open hsp ht htd
    · exact token_ended hsp ht htd hy

theorem token_length_lt {d s t r : List α} (h : token d s = some (t, r)) :
    t.length + r.length ≤ s.length := by
  obtain ⟨sp, -, -, -, ⟨rfl, rfl⟩ | ⟨y, -, rfl⟩⟩ := token_eq_some_iff.mp h
  · simp
  · simp; omega

/-! ## Extending the list on the right -/

/-- Delimiters only: the token is searched in the extension. -/
theorem token_append_of_none {d s : List α} (h : token d s = none) (x : List α) :
    token d (s ++ x) = token d x := by
  have hs := token_eq_none_iff.mp h
  unfold token
  rw [List.dropWhile_append_of_pos (by simpa using hs)]

/-- A token with something behind it does not change. -/
theorem token_append_rest {d s t r : List α} (h : token d s = some (t, r)) (hr : r ≠ [])
    (x : List α) : token d (s ++ x) = some (t, r ++ x) := by
  obtain ⟨sp, hsp, ht, htd, ⟨-, rfl⟩ | ⟨y, hy, rfl⟩⟩ := token_eq_some_iff.mp h
  · exact absurd rfl hr
  · rw [List.append_assoc, List.cons_append]
    exact token_ended hsp ht htd hy

/-- A token that reaches the end of `s` absorbs the front of the extension. -/
theorem token_append_open {d sp t : List α} (hsp : ∀ a ∈ sp, a ∈ d) (ht : t ≠ [])
    (htd : ∀ a ∈ t, a ∉ d) (x : List α) :
    token d (sp ++ t ++ x) = some (t ++ x.takeWhile (· ∉ d), (x.dropWhile (· ∉ d)).tail) := by
  have hx := List.takeWhile_append_dropWhile (p := (· ∉ d)) (l := x)
  have htd' : ∀ a ∈ t ++ x.takeWhile (· ∉ d), a ∉ d := by
    intro a ha
    rcases List.mem_append.mp ha with h | h
    · exact htd a h
    · simpa using List.mem_takeWhile_imp h
  refine token_eq_some_iff.mpr ⟨sp, hsp, by simp [ht], htd', ?_⟩
  cases hr : x.dropWhile (· ∉ d) with
  | nil =>
    left
    rw [hr, List.append_nil] at hx
    exact ⟨by rw [hx, List.append_assoc], rfl⟩
  | cons y r =>
    right
    have hy : y ∈ d := by simpa using of_dropWhile_eq_cons hr
    refine ⟨y, hy, ?_⟩
    rw [hr] at hx
    rw [List.tail_cons]
    conv_lhs => rw [← hx]
    simp only [List.append_assoc]

/-! ## Chains of tokens -/

/-- What is left of `s` after one token for each delimiter set of `ds`; `none` if one of
    the tokens is missing or does not meet its condition. -/
def afterTokens : List (List α × (List α → Bool)) → List α → Option (List α)
  | [], s => some s
  | (d, p) :: ds, s => (token d s).bind fun tr => if p tr.1 then afterTokens ds tr.2 else none

theorem afterTokens_cons_some {d : List α} {p : List α → Bool}
    {ds : List (List α × (List α → Bool))} {s r : List α} :
    afterTokens ((d, p) :: ds) s = some r ↔
      ∃ t u, token d s = some (t, u) ∧ p t = true ∧ afterTokens ds u = some r := by
  simp only [afterTokens, Option.bind_eq_some_iff, Prod.exists, Option.ite_none_right_eq_some]

theorem afterTokens_length {ds : List (List α × (List α → Bool))} {s r : List α}
    (h : afterTokens ds s = some r) : r.length ≤ s.length := by
  induction ds generalizing s with
  | nil => cases h; exact le_rfl
  | cons dp ds ih =>
    obtain ⟨t, u, htu, -, hu⟩ := afterTokens_cons_some.mp h
    have h1 : t.length + u.length ≤ s.length := token_length_lt htu
    have h2 : r.length ≤ u.length := ih hu
    omega

/-- If the tokens are not all there in `s` and the extension `x` brings the missing
    ones, then what is left behind them is part of `x`. -/
theorem afterTokens_append_length {ds : List (List α × (List α → Bool))} {s x r : List α}
    (hs : afterTokens ds s = none) (h : afterTokens ds (s ++ x) = some r) :
    r.length ≤ x.length := by
  induction ds generalizing s with
  | nil => cases hs
  | cons dp ds ih =>
    obtain ⟨d, p⟩ := dp
    obtain ⟨t', u', htu', hp', hu'⟩ := afterTokens_cons_some.mp h
    cases hts : token d s with
    | none =>
      rw [token_append_of_none hts] at htu'
      have h1 : t'.length + u'.length ≤ x.length := token_length_lt htu'
      have h2 : r.length ≤ u'.length := afterTokens_length hu'
      omega
    | some tr =>
      obtain ⟨t, u⟩ := tr
      obtain ⟨sp, hsp, ht, htd, ⟨rfl, rfl⟩ | ⟨y, hy, rfl⟩⟩ := token_eq_some_iff.mp hts
      · -- the token reaches the end of `s`: the rest lies in `x`
        rw [token_append_open hsp ht htd] at htu'
        simp only [Option.some.injEq, Prod.mk.injEq] at htu'
        have h1 : u'.length ≤ x.length := by
          rw [← htu'.2, List.length_tail]
          exact (Nat.sub_le _ _).trans (List.length_dropWhile_le _ x)
        exact (afterTokens_length hu').trans h1
      · -- the token is the same in both, so a later one is missing in `s`
        rw [List.append_assoc, List.cons_append, token_ended hsp ht htd hy] at htu'
        simp only [Option.some.injEq, Prod.mk.injEq] at htu'
        obtain ⟨rfl, rfl⟩ := htu'
        rw [afterTokens, hts, Option.bind_some, if_pos hp'] at hs
        exact ih hs hu'

end IntroOS.CString
