import IntroOS.CString.Strtok

/-!
# C numbers and their decimal strings

`size_t` and `int` arithmetic on a machine with 64-bit `long` and `size_t` and 32-bit
`int`, the digits that `%zu` prints, and `atol`.

* `atol_decimal`: `atol` reads back what `%zu` prints, up to `LONG_MAX`.
-/

namespace IntroOS.CString

/-- Conversion to `size_t`. -/
@[irreducible] def sizeT (x : ℤ) : ℕ := (x % 2 ^ 64).toNat

/-- Conversion to `int`. -/
@[irreducible] def int32 (x : ℤ) : ℤ := x.bmod (2 ^ 32)

theorem sizeT_natCast {n : ℕ} (h : n < 2 ^ 64) : sizeT n = n := by
  unfold sizeT
  omega

theorem sizeT_add {a b : ℕ} (h : a + b < 2 ^ 64) : sizeT ((a : ℤ) + b) = a + b := by
  exact_mod_cast sizeT_natCast h

theorem sizeT_add_right (a : ℤ) (b : ℕ) : sizeT (sizeT a + b) = sizeT (a + b) := by
  unfold sizeT
  omega

theorem sizeT_natCast_add (a b : ℕ) : sizeT ((sizeT a : ℤ) + b) = sizeT ((a + b : ℕ) : ℤ) := by
  rw [sizeT_add_right, Nat.cast_add]

theorem sizeT_lt (x : ℤ) : sizeT x < 2 ^ 64 := by
  unfold sizeT
  omega

theorem int32_natCast {n : ℕ} (h : n < 2 ^ 31) : int32 n = n := by
  unfold int32
  exact Int.bmod_eq_of_le (by omega) (by omega)

/-! ## Decimal strings -/

/-- The string that `%zu` prints for `n`. -/
def decimal (n : ℕ) : List Byte :=
  if n = 0 then ascii "0" else (Nat.digits 10 n).reverse.map fun d => UInt8.ofNat (48 + d)

/-- `isdigit`. -/
def isDigit (x : Byte) : Bool := 48 ≤ x.toNat && x.toNat ≤ 57

/-- `isspace` in the C locale. -/
def isSpace (x : Byte) : Bool := x.toNat = 32 || (9 ≤ x.toNat && x.toNat ≤ 13)

/-- The value of a string of decimal digits. -/
def digitsValue (s : List Byte) : ℕ := s.foldl (fun v x => 10 * v + (x.toNat - 48)) 0

/-- `atol`, which is `strtol` with base 10: white space, an optional sign, digits; out of
    range values give `LONG_MAX` or `LONG_MIN`. -/
def atol (s : List Byte) : ℤ :=
  match s.dropWhile isSpace with
  | 45 :: v => max (-(digitsValue (v.takeWhile isDigit) : ℤ)) (-(2 ^ 63))
  | 43 :: v => min (digitsValue (v.takeWhile isDigit) : ℤ) (2 ^ 63 - 1)
  | v => min (digitsValue (v.takeWhile isDigit) : ℤ) (2 ^ 63 - 1)

theorem decimal_ne_nil (n : ℕ) : decimal n ≠ [] := by
  unfold decimal
  split_ifs with h
  · decide
  · simpa [Nat.digits_ne_nil_iff_ne_zero] using h

theorem isDigit_of_mem_decimal {n : ℕ} {x : Byte} (h : x ∈ decimal n) : isDigit x = true := by
  unfold decimal at h
  split_ifs at h with h0
  · obtain rfl : x = 48 := by simpa [ascii] using h
    decide
  · obtain ⟨d, hd, rfl⟩ := List.mem_map.mp h
    have := Nat.digits_lt_base (by norm_num) (List.mem_reverse.mp hd)
    simp only [isDigit, UInt8.toNat_ofNat', Bool.and_eq_true, decide_eq_true_eq]
    omega

theorem digitsValue_decimal (n : ℕ) : digitsValue (decimal n) = n := by
  unfold decimal
  split_ifs with h
  · subst h; decide
  · unfold digitsValue
    rw [List.foldl_map, List.foldl_reverse]
    conv_rhs => rw [← Nat.ofDigits_digits 10 n, Nat.ofDigits_eq_foldr]
    have hlt : ∀ d ∈ Nat.digits 10 n, d < 10 := fun d hd => Nat.digits_lt_base (by norm_num) hd
    generalize Nat.digits 10 n = l at hlt
    induction l with
    | nil => rfl
    | cons d l ih =>
      have hd := hlt d (by simp)
      have hval : (UInt8.ofNat (48 + d)).toNat - 48 = d := by
        rw [UInt8.toNat_ofNat']
        omega
      rw [List.foldr_cons, List.foldr_cons, ih fun x hx => hlt x (by simp [hx]), hval]
      simp [add_comm]

/-- `atol` reads back what `%zu` prints; values beyond `LONG_MAX` are cut. -/
theorem atol_decimal (n : ℕ) : atol (decimal n) = min (n : ℤ) (2 ^ 63 - 1) := by
  have hall : ∀ x ∈ decimal n, isDigit x = true := fun x => isDigit_of_mem_decimal
  have htake := List.takeWhile_eq_self_iff.mpr hall
  have hval := digitsValue_decimal n
  obtain ⟨a, v, hav⟩ := List.exists_cons_of_ne_nil (decimal_ne_nil n)
  have ha : 48 ≤ a.toNat ∧ a.toNat ≤ 57 := by
    simpa [isDigit] using hall a (by simp [hav])
  have hspace : isSpace a = false := by
    simp only [isSpace, Bool.or_eq_false_iff, Bool.and_eq_false_iff, decide_eq_false_iff_not]
    omega
  have hdrop : (decimal n).dropWhile isSpace = a :: v := by
    rw [hav, List.dropWhile_cons_of_neg (by simp [hspace])]
  rw [hav] at htake hval
  unfold atol
  rw [hdrop]
  split
  · rename_i h; cases h; simp at ha
  · rename_i h; cases h; simp at ha
  · rw [htake, hval]

theorem decimal_length_le {n : ℕ} (h : n < 2 ^ 64) : (decimal n).length ≤ 20 := by
  unfold decimal
  split_ifs with h0
  · decide
  · rw [List.length_map, List.length_reverse]
    exact (Nat.digits_length_le_iff (by norm_num) n).mpr (h.trans (by norm_num))

/-- Digits are neither delimiters nor NUL. -/
theorem decimal_not_mem {n : ℕ} {x : Byte} (h : x ∈ decimal n) : x ∉ ascii " \r\n" ∧ x ≠ 0 := by
  have hx : 48 ≤ x.toNat := by
    have := isDigit_of_mem_decimal h
    simp only [isDigit, Bool.and_eq_true, decide_eq_true_eq] at this
    exact this.1
  constructor
  · intro hmem
    have hsep : ∀ y ∈ ascii " \r\n", y.toNat < 48 := by decide +kernel
    exact absurd (hsep x hmem) (by omega)
  · rintro rfl
    simp at hx

end IntroOS.CString
