import IntroOS.CString.Strtok

/-!
# Comparing C strings

`strcmp` compares two strings byte by byte, the bytes being unsigned. On strings without a NUL
it decides the lexicographic order of their codes.

* `strcmp_neg_iff`, `strcmp_pos_iff`, `strcmp_eq_zero_iff`: the sign of the value.
-/

namespace IntroOS.CString

/-- The C string at the front of a buffer that holds a NUL. -/
def cstring (b : List Byte) : List Byte := b.takeWhile (· ≠ 0)

/-- `strcmp`: the difference of the first bytes that differ; a NUL ends each string. -/
def strcmp : List Byte → List Byte → ℤ
  | [], [] => 0
  | [], b :: _ => -b.toNat
  | a :: _, [] => a.toNat
  | a :: s, b :: t => if a = b then strcmp s t else (a.toNat : ℤ) - b.toNat

/-- The values of the bytes, for their lexicographic order. -/
def codes (s : List Byte) : List ℕ := s.map UInt8.toNat

theorem codes_injective : Function.Injective codes :=
  Function.Injective.list_map fun _ _ h => UInt8.toNat_inj.mp h

theorem zero_not_mem_cstring (b : List Byte) : 0 ∉ cstring b :=
  fun h => by simpa using List.mem_takeWhile_imp h

theorem cstring_append {s m : List Byte} (h : 0 ∉ s) : cstring (s ++ 0 :: m) = s :=
  takeWhile_ne_zero h

section Strcmp

variable {s t : List Byte}

theorem toNat_pos_of_not_mem {a : Byte} (h : 0 ∉ a :: s) : 0 < a.toNat := by
  refine Nat.pos_of_ne_zero fun ha => h ?_
  rw [show a = 0 from UInt8.toNat_inj.mp ha]
  exact List.mem_cons_self

theorem strcmp_neg_iff (hs : 0 ∉ s) (ht : 0 ∉ t) : strcmp s t < 0 ↔ codes s < codes t := by
  induction s generalizing t with
  | nil =>
    cases t with
    | nil => simp [strcmp, codes]
    | cons b t =>
      have := toNat_pos_of_not_mem ht
      simp only [strcmp, codes, List.map_nil, List.map_cons, List.nil_lt_cons, iff_true]
      omega
  | cons a s ih =>
    cases t with
    | nil => simp [strcmp, codes]
    | cons b t =>
      have hrec := ih (fun h => hs (List.mem_cons_of_mem _ h)) (t := t)
        fun h => ht (List.mem_cons_of_mem _ h)
      simp only [codes, List.map_cons, List.cons_lt_cons_iff] at hrec ⊢
      unfold strcmp
      split_ifs with hab
      · subst hab
        simp [hrec]
      · have hne : a.toNat ≠ b.toNat := fun h => hab (UInt8.toNat_inj.mp h)
        simp only [hne, false_and, or_false]
        omega

theorem strcmp_swap (s t : List Byte) : strcmp t s = -strcmp s t := by
  induction s generalizing t with
  | nil => cases t <;> simp [strcmp]
  | cons a s ih =>
    cases t with
    | nil => simp [strcmp]
    | cons b t =>
      unfold strcmp
      by_cases hab : a = b
      · rw [if_pos hab, if_pos hab.symm, ih]
      · rw [if_neg hab, if_neg fun h => hab h.symm]
        omega

theorem strcmp_pos_iff (hs : 0 ∉ s) (ht : 0 ∉ t) : 0 < strcmp s t ↔ codes t < codes s := by
  rw [← strcmp_neg_iff ht hs, strcmp_swap]
  omega

theorem strcmp_nonpos_iff (hs : 0 ∉ s) (ht : 0 ∉ t) : strcmp s t ≤ 0 ↔ codes s ≤ codes t := by
  rw [← not_lt, strcmp_pos_iff hs ht, not_lt]

theorem strcmp_eq_zero_iff (hs : 0 ∉ s) (ht : 0 ∉ t) : strcmp s t = 0 ↔ s = t := by
  rw [← codes_injective.eq_iff, le_antisymm_iff (a := codes s), ← strcmp_nonpos_iff hs ht,
    ← strcmp_nonpos_iff ht hs, strcmp_swap t s]
  omega

end Strcmp

end IntroOS.CString
