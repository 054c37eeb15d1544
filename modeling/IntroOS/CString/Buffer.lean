import IntroOS.CString.Compare

/-!
# Copies to the start of a buffer

A copy changes the bytes that it covers and keeps the others: what a string function finds in the
buffer afterwards is partly what was there before.
-/

namespace IntroOS.CString

variable {b s x m : List Byte}

/-- The buffer `b` with the bytes `x` copied to its start. -/
def overlay (x b : List Byte) : List Byte := x ++ b.drop x.length

/-- `strcpy(b, s)`. -/
def strcpy (s b : List Byte) : Except Fault (List Byte) :=
  if s.length < b.length then .ok (overlay (s ++ [0]) b) else .error .overflow

/-- `strcmp(b, m)` of two buffers: it reads both up to the first bytes that differ or a NUL, and
    goes on behind the end of a buffer that has neither. -/
def strcmpBuffer : List Byte → List Byte → Except Fault ℤ
  | x :: b, y :: m =>
    if x ≠ y then .ok ((x.toNat : ℤ) - y.toNat) else if x = 0 then .ok 0 else strcmpBuffer b m
  | _, _ => .error .unterminated

theorem length_overlay (h : x.length ≤ b.length) : (overlay x b).length = b.length := by
  rw [overlay, List.length_append, List.length_drop]
  omega

/-- What is already there changes nothing. -/
theorem overlay_of_start (h : x <+: b) : overlay x b = b := by
  obtain ⟨t, rfl⟩ := h
  rw [overlay, List.drop_left]

theorem prefix_overlay (x b : List Byte) : x <+: overlay x b := List.prefix_append _ _

/-- A copy leaves the start of a buffer as it was exactly if the two agree as far as both go. -/
theorem prefix_overlay_iff {u t : List Byte} :
    u <+: overlay x (u ++ t) ↔ x <+: u ∨ u <+: x := by
  constructor
  · intro h
    exact List.prefix_or_prefix_of_prefix (prefix_overlay x _) h
  · rintro (h | h)
    · rw [overlay_of_start (h.trans (List.prefix_append _ _))]
      exact List.prefix_append _ _
    · exact h.trans (prefix_overlay x _)

theorem overlay_of_length_eq (h : x.length = b.length) : overlay x b = x := by
  rw [overlay, h, List.drop_length, List.append_nil]

theorem cstr_terminated (h : 0 ∉ s) : cstr (s ++ 0 :: m) 0 = .ok s := by
  rw [cstr, List.drop_zero, if_pos (by simp), takeWhile_ne_zero h]

/-- A string with its end hides the rest of the buffer. -/
theorem cstr_overlay_string (h : 0 ∉ s) (b : List Byte) : cstr (overlay (s ++ [0]) b) 0 = .ok s := by
  rw [overlay, List.append_assoc, List.singleton_append]
  exact cstr_terminated h

theorem strcpy_of_lt (h : s.length < b.length) : strcpy s b = .ok (overlay (s ++ [0]) b) :=
  if_pos h

theorem strcpy_eq_ok_iff {b' : List Byte} :
    strcpy s b = .ok b' ↔ s.length < b.length ∧ overlay (s ++ [0]) b = b' := by
  unfold strcpy
  split_ifs with h
  · rw [Except.ok.injEq, and_iff_right h]
  · exact iff_of_false nofun fun hlt => h hlt.1

/-- A string takes its NUL with it. -/
theorem take_of_cstr (h : cstr b 0 = .ok s) : b.take (s.length + 1) = s ++ [0] := by
  obtain ⟨-, m, hm⟩ := cstr_eq_ok_iff.mp h
  rw [List.drop_zero] at hm
  have hb : b = (s ++ [0]) ++ m := by rw [hm, List.append_assoc, List.singleton_append]
  rw [hb, List.take_left' (by rw [List.length_append, List.length_singleton])]

theorem cstr_zero_of_mem (h : 0 ∈ b) : cstr b 0 = .ok (cstring b) := by
  rw [cstr, List.drop_zero, if_pos h]
  rfl

theorem cstring_of_not_mem (h : 0 ∉ s) : cstring s = s :=
  List.takeWhile_eq_self_iff.mpr fun _ ha => decide_eq_true (ne_of_mem_of_not_mem ha h)

/-- The string of a buffer that is longer than the string. -/
theorem cstring_eq_iff (hs : 0 ∉ s) (hlt : s.length < b.length) :
    cstring b = s ↔ s ++ [0] <+: b := by
  constructor
  · intro h
    have h0 : 0 ∈ b := by
      by_contra hopen
      rw [← h, cstring_of_not_mem hopen] at hlt
      exact absurd hlt (lt_irrefl _)
    obtain ⟨-, m, hm⟩ := cstr_eq_ok_iff.mp (cstr_zero_of_mem h0)
    rw [List.drop_zero, h] at hm
    exact ⟨m, by rw [hm, List.append_assoc, List.singleton_append]⟩
  · rintro ⟨m, rfl⟩
    rw [List.append_assoc, List.singleton_append, cstring_append hs]

theorem cstring_cons {y : Byte} (hy : y ≠ 0) (b : List Byte) : cstring (y :: b) = y :: cstring b :=
  List.takeWhile_cons_of_pos (decide_eq_true hy)

/-- Against a string with its NUL, a buffer is read past its end exactly if it is a part of the
    string. -/
theorem strcmpBuffer_string (hs : 0 ∉ s) (b : List Byte) :
    strcmpBuffer b (s ++ [0]) =
      if b <+: s then .error .unterminated else .ok (strcmp (cstring b) s) := by
  induction s generalizing b with
  | nil =>
    cases b with
    | nil => rfl
    | cons y b =>
      rw [if_neg (by simp)]
      by_cases hy : y = 0
      · subst hy
        rfl
      · rw [cstring_cons hy, List.nil_append, strcmpBuffer, if_pos hy, strcmp]
        simp
  | cons z s ih =>
    obtain ⟨hz, hopen⟩ := not_or.mp (List.mem_cons.not.mp hs)
    cases b with
    | nil => rfl
    | cons y b =>
      rw [List.cons_append, strcmpBuffer]
      by_cases hyz : y = z
      · subst hyz
        rw [if_neg (not_not.mpr rfl), if_neg (Ne.symm hz), ih hopen, cstring_cons (Ne.symm hz),
          strcmp, if_pos rfl]
        simp only [List.cons_prefix_cons, true_and]
      · have hpart : ¬ y :: b <+: z :: s := fun h => hyz (List.cons_prefix_cons.mp h).1
        rw [if_pos hyz, if_neg hpart]
        by_cases hy : y = 0
        · subst hy
          show Except.ok _ = Except.ok (-(z.toNat : ℤ))
          simp
        · rw [cstring_cons hy, strcmp, if_neg hyz]

theorem cstring_append_of_mem (h : 0 ∈ x) (m : List Byte) : cstring (x ++ m) = cstring x := by
  obtain ⟨s, t, rfl, hs⟩ := List.eq_append_cons_of_mem h
  rw [List.append_assoc, List.cons_append, cstring_append hs, cstring_append hs]

/-- A part of a buffer holds a part of its string. -/
theorem cstring_of_start (h : 0 ∉ s) (hx : x <+: s ++ 0 :: m) : cstring x = s.take x.length := by
  have htake : x = (s ++ 0 :: m).take x.length := List.prefix_iff_eq_take.mp hx
  by_cases hle : x.length ≤ s.length
  · rw [List.take_append_of_le_length hle] at htake
    have hopen : 0 ∉ x := by
      rw [htake]
      exact fun hmem => h (List.mem_of_mem_take hmem)
    rw [← htake, cstring_of_not_mem hopen]
  · obtain ⟨k, hk⟩ : ∃ k, x.length = s.length + (k + 1) := ⟨x.length - s.length - 1, by omega⟩
    rw [hk, List.take_length_add_append, List.take_succ_cons] at htake
    rw [htake, cstring_append h, List.take_of_length_le (by simp)]

/-- In a buffer of zeros a string ends unless it takes the whole buffer. -/
theorem cstr_overlay_zeros {n : ℕ} (hx : 0 ∈ x ∨ x.length < n) :
    cstr (overlay x (List.replicate n 0)) 0 = .ok (cstring x) := by
  have hzeros : overlay x (List.replicate n 0) = x ++ List.replicate (n - x.length) 0 := by
    rw [overlay, List.drop_replicate]
  by_cases h : 0 ∈ x
  · rw [hzeros, cstr_zero_of_mem (List.mem_append_left _ h), cstring_append_of_mem h]
  · have hlt : x.length < n := hx.resolve_left h
    have hfirst : List.replicate (n - x.length) (0 : Byte) =
        0 :: List.replicate (n - x.length - 1) 0 := by
      rw [← List.replicate_succ, Nat.sub_add_cancel (by omega)]
    rw [hzeros, hfirst, cstr_terminated h, cstring_of_not_mem h]

theorem cstr_overlay_zeros_full {n : ℕ} (hlen : x.length = n) (h : 0 ∉ x) :
    cstr (overlay x (List.replicate n 0)) 0 = .error .unterminated := by
  rw [overlay_of_length_eq (hlen.trans List.length_replicate.symm), cstr, List.drop_zero, if_neg h]

end IntroOS.CString
