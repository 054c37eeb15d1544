import IntroOS.CString.Token

/-!
# C strings in a buffer, and `strtok`

A buffer is a list of bytes. A C string is a position in a buffer from which a NUL
is reached before the buffer ends; a string function that does not find one runs
off the end, which is the fault `unterminated`.

`strtokAt b i d` is one call of `strtok` whose search starts at position `i` of `b`:
it returns the position of the token (if there is one), the position that `strtok`
saves for its next call, and the buffer with the NUL that ends the token.

Main results:

* `cstr_eq_ok_iff`: the C string at a position, by the shape of the buffer.
* `strtokAt_blank`, `strtokAt_open`, `strtokAt_ended`, `strtokAt_overrun`: the four
  outcomes of a call.
* `strtokAt_refines`: on a C string, `strtok` finds the token that `token` finds,
  saves the position of the rest and keeps every string in front of it.
-/

namespace IntroOS.CString

abbrev Byte := UInt8

/-- The bytes of an ASCII string literal. -/
def ascii (s : String) : List Byte := s.toList.map fun c => UInt8.ofNat c.toNat

/-- Undefined behaviour of a string operation. -/
inductive Fault
  /-- a null pointer is dereferenced, called or passed to a string function -/
  | nullPointer
  /-- a string function reads past the end of the buffer -/
  | unterminated
  /-- a string function writes past the end of the buffer -/
  | overflow
  /-- a pointer to no allocated buffer is used -/
  | wildPointer
  deriving DecidableEq, Repr

/-- The C string at position `i` of the buffer `b`. -/
def cstr (b : List Byte) (i : ℕ) : Except Fault (List Byte) :=
  if 0 ∈ b.drop i then .ok ((b.drop i).takeWhile (· ≠ 0)) else .error .unterminated

/-- `strtok` searching from position `i` of `b` with the delimiters `d`: the start of
    the token, the saved position and the new buffer. -/
def strtokAt (b : List Byte) (i : ℕ) (d : List Byte) :
    Except Fault (Option ℕ × ℕ × List Byte) :=
  -- strspn
  let j := i + ((b.drop i).takeWhile fun x => x ≠ 0 ∧ x ∈ d).length
  match b.drop j with
  | [] => .error .unterminated
  | x :: m =>
    if x = 0 then .ok (none, j, b)
    else
      -- strcspn
      let k := j + ((x :: m).takeWhile fun x => x ≠ 0 ∧ x ∉ d).length
      match b.drop k with
      | [] => .error .unterminated
      | y :: _ => if y = 0 then .ok (some j, k, b) else .ok (some j, k + 1, b.set k 0)

/-! ## C strings -/

theorem takeWhile_ne_zero {s m : List Byte} (h : 0 ∉ s) :
    (s ++ 0 :: m).takeWhile (· ≠ 0) = s := by
  rw [List.takeWhile_append_of_pos (by simpa using fun a ha => ne_of_mem_of_not_mem ha h),
    List.takeWhile_cons_of_neg (by simp), List.append_nil]

theorem cstr_eq_ok_iff {b s : List Byte} {i : ℕ} :
    cstr b i = .ok s ↔ 0 ∉ s ∧ ∃ m, b.drop i = s ++ 0 :: m := by
  unfold cstr
  constructor
  · intro h
    split_ifs at h with h0
    cases h
    refine ⟨fun h => by simpa using List.mem_takeWhile_imp h, ?_⟩
    have hsplit := List.takeWhile_append_dropWhile (p := fun x : Byte => x ≠ 0) (l := b.drop i)
    cases hd : (b.drop i).dropWhile (fun x : Byte => x ≠ 0) with
    | nil =>
      have := List.dropWhile_eq_nil_iff.mp hd 0 h0
      simp at this
    | cons y m =>
      have hy : y = 0 := by simpa using of_dropWhile_eq_cons hd
      rw [hd, hy] at hsplit
      exact ⟨m, hsplit.symm⟩
  · rintro ⟨h0, m, hm⟩
    rw [hm, if_pos (by simp), takeWhile_ne_zero h0]

theorem cstr_eq_error_iff {b : List Byte} {i : ℕ} {f : Fault} :
    cstr b i = .error f ↔ f = .unterminated ∧ 0 ∉ b.drop i := by
  unfold cstr
  split_ifs with h
  · simp [h]
  · simp only [Except.error.injEq, h, not_false_eq_true, and_true]
    exact eq_comm

theorem cstr_length_le {b s : List Byte} {i : ℕ} (h : cstr b i = .ok s) :
    i + s.length < b.length := by
  obtain ⟨-, m, hm⟩ := cstr_eq_ok_iff.mp h
  have := congrArg List.length hm
  simp at this
  omega

/-- The first byte of a string that is not empty. -/
theorem cstr_head {b u : List Byte} {i : ℕ} {x : Byte} (h : cstr b i = .ok (x :: u)) :
    b.getD i 0 = x := by
  obtain ⟨-, m, hm⟩ := cstr_eq_ok_iff.mp h
  have hfirst := congrArg List.head? hm
  rw [List.head?_drop, List.cons_append, List.head?_cons] at hfirst
  rw [List.getD_eq_getElem?_getD, hfirst, Option.getD_some]

/-! ## The outcomes of `strtok` -/

section Outcomes

variable {b d sp t m : List Byte} {i : ℕ} {y : Byte}

/-- The run of `strspn`, and of `strcspn`, up to the byte `y` that stops it. -/
theorem takeWhile_stop {p : Byte → Bool} {u : List Byte} (hu : ∀ a ∈ u, p a = true)
    (hy : p y = false) : (u ++ y :: m).takeWhile p = u := by
  rw [List.takeWhile_append_of_pos hu, List.takeWhile_cons_of_neg (by simp [hy]), List.append_nil]

theorem drop_after {u : List Byte} (h : b.drop i = u ++ m) : b.drop (i + u.length) = m := by
  rw [← List.drop_drop, h, List.drop_left]

/-- Delimiters only up to the NUL: no token. -/
theorem strtokAt_blank (hb : b.drop i = sp ++ 0 :: m) (hsp : ∀ a ∈ sp, a ∈ d) (h0 : 0 ∉ sp) :
    strtokAt b i d = .ok (none, i + sp.length, b) := by
  have hskip : (b.drop i).takeWhile (fun x => x ≠ 0 ∧ x ∈ d) = sp := by
    rw [hb]
    exact takeWhile_stop (fun a ha => by simp [hsp a ha, ne_of_mem_of_not_mem ha h0]) (by simp)
  simp only [strtokAt, hskip, drop_after hb, if_true]

/-- What `strtok` does behind the delimiters at the front, when `t` is the token. -/
theorem strtokAt_token (hb : b.drop i = sp ++ (t ++ m)) (hsp : ∀ a ∈ sp, a ∈ d) (h0 : 0 ∉ sp)
    (ht : t ≠ []) (htd : ∀ a ∈ t, a ∉ d) (ht0 : 0 ∉ t)
    (hm : (t ++ m).takeWhile (fun x => x ≠ 0 ∧ x ∉ d) = t) :
    strtokAt b i d = match m with
      | [] => .error .unterminated
      | y :: _ =>
        if y = 0 then .ok (some (i + sp.length), i + sp.length + t.length, b)
        else .ok (some (i + sp.length), i + sp.length + t.length + 1,
          b.set (i + sp.length + t.length) 0) := by
  obtain ⟨x, u, rfl⟩ := List.exists_cons_of_ne_nil ht
  have hx : x ≠ 0 := fun h => ht0 (by simp [h])
  have hskip : (b.drop i).takeWhile (fun x => x ≠ 0 ∧ x ∈ d) = sp := by
    rw [hb, List.cons_append]
    exact takeWhile_stop (fun a ha => by simp [hsp a ha, ne_of_mem_of_not_mem ha h0])
      (by simp [htd x (by simp)])
  have hj := drop_after hb
  have hk : b.drop (i + sp.length + (x :: u).length) = m := drop_after hj
  rw [List.cons_append] at hj hm
  simp only [strtokAt, hskip, hj, if_neg hx, hm, hk]

/-- A token that the NUL of the string ends. -/
theorem strtokAt_open (hb : b.drop i = sp ++ (t ++ 0 :: m)) (hsp : ∀ a ∈ sp, a ∈ d) (h0 : 0 ∉ sp)
    (ht : t ≠ []) (htd : ∀ a ∈ t, a ∉ d) (ht0 : 0 ∉ t) :
    strtokAt b i d = .ok (some (i + sp.length), i + sp.length + t.length, b) := by
  rw [strtokAt_token hb hsp h0 ht htd ht0 (takeWhile_stop
    (fun a ha => by simp [htd a ha, ne_of_mem_of_not_mem ha ht0]) (by simp))]
  simp

/-- A token that the delimiter `y` ends: `y` becomes a NUL. -/
theorem strtokAt_ended (hb : b.drop i = sp ++ (t ++ y :: m)) (hsp : ∀ a ∈ sp, a ∈ d) (h0 : 0 ∉ sp)
    (ht : t ≠ []) (htd : ∀ a ∈ t, a ∉ d) (ht0 : 0 ∉ t) (hy : y ∈ d) (hy0 : y ≠ 0) :
    strtokAt b i d = .ok (some (i + sp.length), i + sp.length + t.length + 1,
      b.set (i + sp.length + t.length) 0) := by
  rw [strtokAt_token hb hsp h0 ht htd ht0 (takeWhile_stop
    (fun a ha => by simp [htd a ha, ne_of_mem_of_not_mem ha ht0]) (by simp [hy]))]
  simp [hy0]

/-- Neither a NUL nor a delimiter behind the token: `strtok` leaves the buffer. -/
theorem strtokAt_overrun (hb : b.drop i = sp ++ t) (hsp : ∀ a ∈ sp, a ∈ d) (h0 : 0 ∉ sp)
    (htd : ∀ a ∈ t, a ∉ d) (ht0 : 0 ∉ t) : strtokAt b i d = .error .unterminated := by
  rcases t with - | ⟨x, u⟩
  · rw [List.append_nil] at hb
    have hskip : (b.drop i).takeWhile (fun x => x ≠ 0 ∧ x ∈ d) = sp := by
      rw [hb, List.takeWhile_eq_self_iff]
      exact fun a ha => by simp [hsp a ha, ne_of_mem_of_not_mem ha h0]
    have hj : b.drop (i + sp.length) = [] := drop_after (by rw [hb, List.append_nil])
    simp only [strtokAt, hskip, hj]
  · rw [← List.append_nil (x :: u)] at hb
    rw [strtokAt_token hb hsp h0 (by simp) htd ht0]
    rw [List.append_nil, List.takeWhile_eq_self_iff]
    exact fun a ha => by simp [htd a ha, ne_of_mem_of_not_mem ha ht0]

/-- Every buffer, seen from position `i`, has one of the four shapes. -/
theorem strtokAt_shape (b : List Byte) (i : ℕ) (d : List Byte) :
    ∃ sp t m, b.drop i = sp ++ (t ++ m) ∧ (∀ a ∈ sp, a ∈ d) ∧ 0 ∉ sp ∧ (∀ a ∈ t, a ∉ d) ∧ 0 ∉ t ∧
      ((m = []) ∨ (∃ m', m = 0 :: m') ∨ (t ≠ [] ∧ ∃ y m', m = y :: m' ∧ y ∈ d ∧ y ≠ 0)) := by
  set sp := (b.drop i).takeWhile (fun x => x ≠ 0 ∧ x ∈ d) with hsp
  set u := (b.drop i).dropWhile (fun x => x ≠ 0 ∧ x ∈ d) with hu
  set t := u.takeWhile (fun x => x ≠ 0 ∧ x ∉ d) with ht
  set m := u.dropWhile (fun x => x ≠ 0 ∧ x ∉ d) with hm
  have hspm : ∀ a ∈ sp, a ≠ 0 ∧ a ∈ d := fun a ha => by simpa using List.mem_takeWhile_imp ha
  have htm : ∀ a ∈ t, a ≠ 0 ∧ a ∉ d := fun a ha => by simpa using List.mem_takeWhile_imp ha
  refine ⟨sp, t, m, ?_, fun a ha => (hspm a ha).2, fun h => (hspm 0 h).1 rfl,
    fun a ha => (htm a ha).2, fun h => (htm 0 h).1 rfl, ?_⟩
  · rw [List.takeWhile_append_dropWhile, List.takeWhile_append_dropWhile]
  · cases hmc : m with
    | nil => exact Or.inl rfl
    | cons y m' =>
      have hstop := of_dropWhile_eq_cons (hm ▸ hmc)
      have hy : ¬ (y ≠ 0 ∧ y ∉ d) := of_decide_eq_false hstop
      by_cases hy0 : y = 0
      · exact Or.inr (Or.inl ⟨m', by rw [hy0]⟩)
      · have hyd : y ∈ d := by by_contra h; exact hy ⟨hy0, h⟩
        refine Or.inr (Or.inr ⟨?_, y, m', rfl, hyd, hy0⟩)
        intro htnil
        -- otherwise `y` would have been skipped as a delimiter
        have hum : u = y :: m' := by
          rw [← List.takeWhile_append_dropWhile (p := fun x => x ≠ 0 ∧ x ∉ d) (l := u), ← ht, ← hm,
            htnil, hmc, List.nil_append]
        have hskip := of_dropWhile_eq_cons (hu ▸ hum)
        exact of_decide_eq_false hskip ⟨hy0, hyd⟩

end Outcomes

/-! ## `strtok` on a C string -/

theorem drop_set_le {b : List Byte} {j k : ℕ} (x : Byte) (h : j ≤ k) :
    (b.set k x).drop j = (b.drop j).set (k - j) x := by
  rw [List.drop_set, if_neg (by omega)]

/-- `strtok` at position `i` keeps the strings that end before `i`. -/
theorem strtokAt_keeps {b b' d s : List Byte} {i j k : ℕ} {o : Option ℕ}
    (h : strtokAt b i d = .ok (o, k, b')) (hs : cstr b j = .ok s) (hj : j + s.length ≤ i) :
    cstr b' j = .ok s := by
  obtain ⟨sp, t, m, hb, hsp, h0, htd, ht0, hm⟩ := strtokAt_shape b i d
  rcases hm with rfl | ⟨m', rfl⟩ | ⟨ht, y, m', rfl, hyd, hy0⟩
  · rw [List.append_nil] at hb
    rw [strtokAt_overrun hb hsp h0 htd ht0] at h
    cases h
  · rcases eq_or_ne t [] with rfl | ht
    · rw [strtokAt_blank hb hsp h0] at h
      cases h
      exact hs
    · rw [strtokAt_open hb hsp h0 ht htd ht0] at h
      cases h
      exact hs
  · rw [strtokAt_ended hb hsp h0 ht htd ht0 hyd hy0] at h
    cases h
    obtain ⟨hs0, m, hm⟩ := cstr_eq_ok_iff.mp hs
    have hpos := List.length_pos_of_ne_nil ht
    refine cstr_eq_ok_iff.mpr
      ⟨hs0, m.set (i + sp.length + t.length - j - s.length - 1) 0, ?_⟩
    rw [drop_set_le _ (by omega), hm, List.set_append_right _ _ (by omega),
      show i + sp.length + t.length - j - s.length =
        i + sp.length + t.length - j - s.length - 1 + 1 by omega, List.set_cons_succ]
    rfl

/-- On the C string `s` at position `i`, `strtok` finds the token that `token` finds. It
    saves the position of the rest, and the token ends before the saved position. -/
theorem strtokAt_refines {b s d : List Byte} {i : ℕ} (h : cstr b i = .ok s) :
    ∃ o k b', strtokAt b i d = .ok (o, k, b') ∧ b'.length = b.length ∧ i ≤ k ∧
      cstr b' k = .ok (restToken d s) ∧
      match o, firstToken d s with
      | none, none => True
      | some j, some t => cstr b' j = .ok t ∧ j + t.length ≤ k
      | _, _ => False := by
  obtain ⟨hs0, m, hm⟩ := cstr_eq_ok_iff.mp h
  cases htok : token d s with
  | none =>
    have hfirst := firstToken_eq_none.mpr htok
    refine ⟨_, _, b, strtokAt_blank hm (token_eq_none_iff.mp htok) hs0, rfl, by omega, ?_, ?_⟩
    · rw [restToken_of_none hfirst]
      exact cstr_eq_ok_iff.mpr ⟨by simp, m, drop_after hm⟩
    · rw [hfirst]
      trivial
  | some tr =>
    obtain ⟨t, r⟩ := tr
    obtain ⟨hfirst, hrest⟩ := firstToken_of_token htok
    rw [hfirst, hrest]
    obtain ⟨sp, hsp, ht, htd, ⟨rfl, rfl⟩ | ⟨y, hyd, rfl⟩⟩ := token_eq_some_iff.mp htok
    · have h0 : 0 ∉ sp := fun h => hs0 (by simp [h])
      have ht0 : 0 ∉ t := fun h => hs0 (by simp [h])
      rw [List.append_assoc] at hm
      have htm := drop_after hm
      have hend := drop_after htm
      exact ⟨_, _, b, strtokAt_open hm hsp h0 ht htd ht0, rfl, by omega,
        cstr_eq_ok_iff.mpr ⟨by simp, m, hend⟩, cstr_eq_ok_iff.mpr ⟨ht0, m, htm⟩, le_rfl⟩
    · have h0 : 0 ∉ sp := fun h => hs0 (by simp [h])
      have ht0 : 0 ∉ t := fun h => hs0 (by simp [h])
      have hr0 : 0 ∉ r := fun h => hs0 (by simp [h])
      have hy0 : y ≠ 0 := fun h => hs0 (by simp [h])
      simp only [List.append_assoc, List.cons_append] at hm
      have htm := drop_after hm
      have hyr := drop_after htm
      refine ⟨_, _, _, strtokAt_ended hm hsp h0 ht htd ht0 hyd hy0, List.length_set, by omega,
        ?_, ?_, by omega⟩
      · refine cstr_eq_ok_iff.mpr ⟨hr0, m, ?_⟩
        rw [List.drop_set_of_lt (by omega), ← List.drop_drop, hyr, List.drop_one, List.tail_cons]
      · refine cstr_eq_ok_iff.mpr ⟨ht0, r ++ 0 :: m, ?_⟩
        rw [drop_set_le _ (by omega), htm, List.set_append_right _ _ (by omega)]
        simp

end IntroOS.CString
