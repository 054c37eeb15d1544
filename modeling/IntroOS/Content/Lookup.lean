import IntroOS.Content.Model

/-!
# The lookup of the content library

The table that `content_init` builds from a file of rows, and what `content_get` finds in it.

Main results:

* `addRows_rows`: below 2^30 rows, each row is in the table, and the table has room.
* `contentInit_overflow`: with 2^30 rows, `capacity` overflows and the table is lost.
* `contentGetLoop_spec`: the binary search.
* `lookup_exact_iff`: the files for which the lookup is exact.
-/

namespace IntroOS.Content

open CString

/-! ## Rows -/

/-- A row of a content file, without the LF at its end. -/
structure Row where
  key : List Byte
  sep : Byte
  path : List Byte
  isSep : sep = 32 ∨ sep = 9
  clean : ∀ a ∈ key ++ path, a ≠ 32 ∧ a ≠ 9 ∧ a ≠ 0 ∧ a ≠ 10
  le : key.length + 1 + path.length ≤ 254

/-- The text of a row. -/
def Row.text (r : Row) : List Byte := r.key ++ r.sep :: r.path

/-- The file with the rows, each with an LF at its end. -/
def fileOf (rows : List Row) : List Byte := (rows.map fun r => r.text ++ [10]).flatten

/-- The buffer `key` of a row in the table. -/
def Row.buffer (r : Row) : List Byte := r.key ++ 0 :: (r.path ++ [0, 0])

section Rows

variable {openResults : OpenResults} {r : Row} {rows : List Row} {t : Table}

theorem Row.text_clean (r : Row) : ∀ a ∈ r.text, a ≠ 0 ∧ a ≠ 10 := by
  intro a ha
  have hsep : r.sep ≠ 0 ∧ r.sep ≠ 10 := by
    rcases r.isSep with h | h <;> rw [h] <;> decide
  simp only [Row.text, List.mem_append, List.mem_cons] at ha
  rcases ha with h | rfl | h
  · exact (r.clean a (List.mem_append_left _ h)).2.2
  · exact hsep
  · exact (r.clean a (List.mem_append_right _ h)).2.2

/-- A line that fits into the buffer. -/
theorem takeLine_row {u : List Byte} {n : ℕ} (rest : List Byte) (hu : ∀ a ∈ u, a ≠ 10) (hn : u.length < n) :
    takeLine n (u ++ 10 :: rest) = (u ++ [10], rest) := by
  induction u generalizing n with
  | nil =>
    obtain ⟨n, rfl⟩ := Nat.exists_eq_add_of_lt hn
    rfl
  | cons x u ih =>
    obtain ⟨n, rfl⟩ : ∃ k, n = k + 1 := ⟨n - 1, by simp at hn; omega⟩
    have hx : x ≠ 10 := hu x List.mem_cons_self
    have hrec := ih (fun a ha => hu a (List.mem_cons_of_mem _ ha)) (n := n) (by simpa using hn)
    rw [List.cons_append, takeLine, if_neg hx, hrec]
    rfl

theorem fgets_row (r : Row) (rows : List Row) :
    fgets MAX_KEYLEN (fileOf (r :: rows)) = some (r.text ++ [10, 0], fileOf rows) := by
  have hfile : fileOf (r :: rows) = r.text ++ 10 :: fileOf rows := by simp [fileOf]
  have hlen : r.text.length < 255 := by
    have := r.le
    simp only [Row.text, List.length_append, List.length_cons]
    omega
  have hline := takeLine_row (fileOf rows) (fun a ha => (r.text_clean a ha).2) hlen
  obtain ⟨x, u, hx⟩ : ∃ x u, fileOf (r :: rows) = x :: u := by
    cases htext : fileOf (r :: rows) with
    | nil =>
      rw [hfile] at htext
      simp at htext
    | cons x u => exact ⟨x, u, rfl⟩
  rw [← hfile, hx] at hline
  rw [hx, fgets, show MAX_KEYLEN - 1 = 255 from rfl, hline]
  simp

/-- `strsep` at a field that the byte `y` ends. -/
theorem strsep_field {b u w m : List Byte} {y : Byte} (hb : b = u ++ (w ++ y :: m))
    (hw : ∀ a ∈ w, a ≠ 0 ∧ a ∉ ascii " \t") (hy : y = 0 ∨ y ∈ ascii " \t") :
    strsep b (some u.length) (ascii " \t") =
      if y = 0 then (some u.length, none, b)
      else (some u.length, some (u.length + w.length + 1), u ++ (w ++ 0 :: m)) := by
  subst hb
  have hrun : ((u ++ (w ++ y :: m)).drop u.length).takeWhile
      (fun x => x ≠ 0 ∧ x ∉ ascii " \t") = w := by
    rw [List.drop_left]
    refine takeWhile_stop (fun a ha => by simpa using hw a ha) ?_
    rcases hy with rfl | hy
    · simp
    · simp [hy]
  have hget : (u ++ (w ++ y :: m)).getD (u.length + w.length) 0 = y := by
    rw [← List.append_assoc, List.getD_eq_getElem?_getD, ← List.length_append,
      List.getElem?_append_right le_rfl]
    simp
  have hset : (u ++ (w ++ y :: m)).set (u.length + w.length) 0 = u ++ (w ++ 0 :: m) := by
    rw [← List.append_assoc, ← List.length_append, List.set_append_right _ _ le_rfl]
    simp
  unfold strsep
  simp only [hrun, hget, hset]

/-- A line with two fields and a last byte `x`, which `dropEol` takes out. -/
theorem splitRow_fields {key path : List Byte} {sep x : Byte} (hisSep : sep = 32 ∨ sep = 9)
    (hclean : ∀ a ∈ key ++ path, a ≠ 32 ∧ a ≠ 9 ∧ a ≠ 0 ∧ a ≠ 10) (hx : x ≠ 0) :
    splitRow (key ++ sep :: path ++ [x, 0]) = .ok (key ++ 0 :: (path ++ [0, 0]), some path) := by
  have hsep : sep ≠ 0 := by rcases hisSep with h | h <;> rw [h] <;> decide
  have hblank : ∀ a : Byte, a ∈ ascii " \t" ↔ a = 32 ∨ a = 9 := by
    intro a
    rw [show ascii " \t" = [32, 9] by decide]
    simp
  have hfield : ∀ a ∈ key ++ path, a ≠ 0 ∧ a ∉ ascii " \t" := fun a ha =>
    ⟨(hclean a ha).2.2.1, fun h => ((hblank a).mp h).elim (hclean a ha).1 (hclean a ha).2.1⟩
  have hnoNul : (0 : Byte) ∉ key ++ sep :: path ++ [x] := by
    simp only [List.mem_append, List.mem_cons, List.not_mem_nil, or_false, not_or]
    exact ⟨⟨fun h => (hfield 0 (List.mem_append_left _ h)).1 rfl, hsep.symm,
      fun h => (hfield 0 (List.mem_append_right _ h)).1 rfl⟩, hx.symm⟩
  have hstr : cstring (key ++ sep :: path ++ [x, 0]) = key ++ sep :: path ++ [x] := by
    have h := cstring_append (s := key ++ sep :: path ++ [x]) (m := []) hnoNul
    simpa using h
  have hdrop : dropEol (key ++ sep :: path ++ [x, 0]) = .ok (key ++ sep :: path ++ [0, 0]) := by
    unfold dropEol
    rw [hstr, List.length_append, List.length_singleton]
    show Except.ok ((key ++ sep :: path ++ [x, 0]).set (key ++ sep :: path).length 0) = _
    rw [List.set_append_right _ _ le_rfl]
    simp
  have hfirst : strsep (key ++ sep :: path ++ [0, 0]) (some 0) (ascii " \t") =
      (some 0, some (key.length + 1), key ++ 0 :: (path ++ [0, 0])) := by
    have h := strsep_field (b := key ++ sep :: path ++ [0, 0]) (u := []) (w := key) (y := sep)
      (m := path ++ [0, 0]) (by simp)
      (fun a ha => hfield a (List.mem_append_left _ ha)) (Or.inr ((hblank _).mpr hisSep))
    rw [if_neg hsep] at h
    simpa using h
  have hsecond : strsep (key ++ 0 :: (path ++ [0, 0])) (some (key.length + 1)) (ascii " \t") =
      (some (key.length + 1), none, key ++ 0 :: (path ++ [0, 0])) := by
    have h := strsep_field (b := key ++ 0 :: (path ++ [0, 0])) (u := key ++ [0]) (w := path) (y := 0)
      (m := [0]) (by simp) (fun a ha => hfield a (List.mem_append_right _ ha)) (Or.inl rfl)
    rw [if_pos rfl] at h
    simpa using h
  have hpath : cstring ((key ++ 0 :: (path ++ [0, 0])).drop (key.length + 1)) = path := by
    have hsplit : key ++ 0 :: (path ++ [0, 0]) = (key ++ [0]) ++ (path ++ 0 :: [0]) := by simp
    rw [hsplit, List.drop_left' (by simp)]
    exact cstring_append fun h => (hfield 0 (List.mem_append_right _ h)).1 rfl
  simp only [splitRow, hdrop, bind, Except.bind, hfirst, hsecond, pure, Except.pure,
    Option.map_some, hpath]

theorem splitRow_row (r : Row) : splitRow (r.text ++ [10, 0]) = .ok (r.buffer, some r.path) :=
  splitRow_fields r.isSep r.clean (by decide)

/-! ## The size of the table -/

/-- The table has room for a row, and its capacity has not overflowed. -/
def Table.Sized (t : Table) : Prop :=
  ∃ j ≤ 26, t.allocated = some (16 * 2 ^ j) ∧ t.capacity = 16 * 2 ^ j ∧
    t.items.length < 16 * 2 ^ j

theorem pow_bound {j : ℕ} (hj : j ≤ 26) : 16 * 2 ^ j ≤ 2 ^ 30 := by
  have h : 2 ^ j ≤ 2 ^ 26 := Nat.pow_le_pow_right (by decide) hj
  omega

theorem allocate_rows {j : ℕ} (hj : j ≤ 26) :
    allocate (sizeT (((16 * 2 ^ j : ℕ) : ℤ) * sizeofItem)) = some (16 * 2 ^ j) := by
  have hpow := pow_bound hj
  have hsize : sizeT (((16 * 2 ^ j : ℕ) : ℤ) * sizeofItem) = 16 * 2 ^ j * sizeofItem := by
    rw [← Nat.cast_mul]
    exact sizeT_natCast (by unfold sizeofItem; omega)
  rw [hsize, allocate, if_pos (by unfold sizeofItem; omega), Nat.mul_div_cancel _ (by decide)]

theorem Table.new_sized : Table.new.Sized := by
  refine ⟨0, by omega, ?_, rfl, by simp [Table.new]⟩
  exact allocate_rows (j := 0) (by omega)

@[simp] theorem Table.grow_items (t : Table) : t.grow.items = t.items := by
  unfold Table.grow
  split_ifs <;> rfl

/-- The table after one more row, below 2^30 rows. -/
theorem Table.Sized.grow {it : Item} (h : t.Sized) (hlen : t.items.length + 1 < 2 ^ 30) :
    (Table.grow { t with items := t.items ++ [it] }).Sized := by
  obtain ⟨j, hj, halloc, hcap, hlt⟩ := h
  unfold Table.grow
  split_ifs with hfull
  · -- the table is full: it is doubled
    simp only [List.length_append, List.length_singleton, hcap] at hfull
    have hj' : j + 1 ≤ 26 := by
      by_contra hcon
      obtain rfl : j = 26 := by omega
      omega
    have hpow := pow_bound hj'
    have hdouble : int32 (t.capacity * 2) = ((16 * 2 ^ (j + 1) : ℕ) : ℤ) := by
      rw [hcap, show (16 * 2 ^ j * 2 : ℤ) = ((16 * 2 ^ (j + 1) : ℕ) : ℤ) by push_cast; ring]
      exact int32_natCast (by omega)
    refine ⟨j + 1, hj', ?_, ?_, ?_⟩
    · dsimp only
      rw [hdouble, allocate_rows hj']
    · dsimp only
      rw [hdouble]
      push_cast
      rfl
    · simp only [List.length_append, List.length_singleton]
      rw [pow_succ]
      omega
  · refine ⟨j, hj, halloc, hcap, ?_⟩
    simp only [List.length_append, List.length_singleton, hcap] at hfull ⊢
    have : t.items.length + 1 ≠ 16 * 2 ^ j := fun h => hfull (by exact_mod_cast h)
    omega

/-- The 2^30-th row: `capacity` becomes -2^31, and `realloc` fails. -/
theorem Table.Sized.overflow (it : Item) (h : t.Sized) (hlen : t.items.length + 1 = 2 ^ 30) :
    (Table.grow { t with items := t.items ++ [it] }).allocated = none := by
  obtain ⟨j, hj, halloc, hcap, hlt⟩ := h
  have hpow := pow_bound hj
  have hcap' : t.capacity = 2 ^ 30 := by
    have h : (16 * 2 ^ j : ℕ) = 2 ^ 30 := by omega
    rw [hcap]
    exact_mod_cast h
  unfold Table.grow
  rw [if_pos (by simp only [List.length_append, List.length_singleton, hcap']; omega)]
  dsimp only
  have hneg : int32 (t.capacity * 2) = -2 ^ 31 := by
    rw [hcap']
    unfold int32
    decide
  have hsize : sizeT (-2 ^ 31 * (sizeofItem : ℤ)) = 2 ^ 64 - 2 ^ 31 * 260 := by
    unfold sizeT sizeofItem
    decide
  rw [hneg, hsize, allocate, if_neg (by omega)]

variable (openResults) in
theorem addRow_row {fildes : ℤ} (r : Row) (ht : t.Sized)
    (hopen : openResults t.items.length r.path = fildes) (hpos : 0 ≤ fildes) :
    addRow openResults (r.text ++ [10, 0]) t =
      .ok (Table.grow { t with items := t.items ++ [⟨fildes, r.buffer⟩] }) := by
  obtain ⟨j, -, halloc, -, hlt⟩ := ht
  unfold addRow
  rw [halloc]
  dsimp only
  rw [if_neg (by omega), splitRow_row]
  dsimp only
  rw [hopen, if_neg (by omega)]

theorem addRows_nil (t : Table) : addRows openResults (fileOf []) t = .ok t := by
  rw [addRows]
  split
  · rfl
  · rename_i h
    cases h

theorem addRows_cons (r : Row) (rows : List Row) (t : Table) :
    addRows openResults (fileOf (r :: rows)) t =
      (addRow openResults (r.text ++ [10, 0]) t).bind (addRows openResults (fileOf rows)) := by
  rw [addRows]
  split
  · rename_i h
    rw [fgets_row] at h
    cases h
  · rename_i key rest h
    rw [fgets_row] at h
    cases h
    rfl

variable (openResults) in
/-- The table after some rows, below 2^30 of them. -/
theorem addRows_rows (ht : t.Sized) (hlen : t.items.length + rows.length < 2 ^ 30)
    (hopen : ∀ i r, rows[i]? = some r → 0 ≤ openResults (t.items.length + i) r.path) :
    ∃ t', addRows openResults (fileOf rows) t = .ok t' ∧ t'.Sized ∧
      t'.items = t.items ++ rows.mapIdx fun i r =>
        ⟨openResults (t.items.length + i) r.path, r.buffer⟩ := by
  induction rows generalizing t with
  | nil => exact ⟨t, addRows_nil t, ht, by simp⟩
  | cons r rows ih =>
    rw [List.length_cons] at hlen
    have hrow := addRow_row openResults r ht rfl (by simpa using hopen 0 r rfl)
    set t₁ := Table.grow { t with
      items := t.items ++ [⟨openResults t.items.length r.path, r.buffer⟩] } with ht₁
    have hitems : t₁.items = t.items ++ [⟨openResults t.items.length r.path, r.buffer⟩] := by
      rw [ht₁, Table.grow_items]
    have hlen₁ : t₁.items.length = t.items.length + 1 := by
      rw [hitems, List.length_append, List.length_singleton]
    obtain ⟨t', haddRows, hsized, hitems'⟩ := ih (t := t₁) (ht.grow (by omega)) (by omega)
      fun i r' hr' => by
        rw [hlen₁, Nat.add_assoc, Nat.add_comm 1]
        exact hopen (i + 1) r' hr'
    refine ⟨t', ?_, hsized, ?_⟩
    · rw [addRows_cons, hrow]
      exact haddRows
    · rw [hitems', hlen₁, hitems, List.mapIdx_cons, List.append_assoc]
      simp only [List.singleton_append, Nat.add_zero, Nat.add_assoc, Nat.add_comm 1]

theorem addRows_append (xs ys : List Row) (t : Table) :
    addRows openResults (fileOf (xs ++ ys)) t =
      (addRows openResults (fileOf xs) t).bind (addRows openResults (fileOf ys)) := by
  induction xs generalizing t with
  | nil =>
    rw [addRows_nil]
    rfl
  | cons r xs ih =>
    rw [List.cons_append, addRows_cons, addRows_cons]
    cases addRow openResults (r.text ++ [10, 0]) t with
    | error f => rfl
    | ok t₁ => exact ih t₁

variable (openResults) in
/-- With no table, `fgets` writes through a null pointer, or there is no row any more. -/
theorem addRows_null (h : t.allocated = none) (rows : List Row) :
    addRows openResults (fileOf rows) t = .error (.fault .nullPointer) ∨
      addRows openResults (fileOf rows) t = .ok t := by
  cases rows with
  | nil => exact Or.inr (addRows_nil t)
  | cons r rows =>
    apply Or.inl
    rw [addRows_cons, addRow, h]
    rfl

end Rows

/-! ## `content_init` -/

section Init

variable {openResults : OpenResults} {qsort : List Item → List Item} {rows : List Row}

/-- The rows of the table before they are sorted. -/
def rowItems (openResults : OpenResults) (rows : List Row) : List Item :=
  rows.mapIdx fun i r => ⟨openResults i r.path, r.buffer⟩

/-- Every path can be opened. -/
def Openable (openResults : OpenResults) (rows : List Row) : Prop :=
  ∀ i r, rows[i]? = some r → 0 ≤ openResults i r.path

variable (qsort) in
theorem contentInit_rows (hlen : rows.length < 2 ^ 30) (hopen : Openable openResults rows) :
    ∃ t, contentInit openResults qsort (some (fileOf rows)) = .ok t ∧
      t.items = qsort (rowItems openResults rows) := by
  have hzero : Table.new.items.length = 0 := rfl
  obtain ⟨t, hadd, ⟨j, -, halloc, -⟩, hitems⟩ := @addRows_rows openResults rows _
    Table.new_sized (by omega) fun i r hr => by
      rw [hzero, Nat.zero_add]
      exact hopen i r hr
  have hitems' : t.items = rowItems openResults rows := by
    rw [hitems, hzero, rowItems]
    simp only [Nat.zero_add]
    rfl
  refine ⟨{ t with items := qsort t.items }, ?_, by rw [hitems']⟩
  unfold contentInit
  simp only [hadd, bind, Except.bind, halloc, pure, Except.pure]

/-- From 2^30 rows on, the table is lost. -/
theorem contentInit_overflow (hlen : 2 ^ 30 ≤ rows.length) (hopen : Openable openResults rows) :
    contentInit openResults qsort (some (fileOf rows)) = .error (.fault .nullPointer) := by
  -- the rows up to the one that fills the table of 2^30 rows
  obtain ⟨first, r, rest, rfl, hfirst⟩ : ∃ first r rest, rows = first ++ r :: rest ∧
      first.length + 1 = 2 ^ 30 := by
    obtain ⟨r, rest, hdrop⟩ : ∃ r rest, rows.drop (2 ^ 30 - 1) = r :: rest := by
      refine List.exists_cons_of_ne_nil fun h => ?_
      have := List.drop_eq_nil_iff.mp h
      omega
    refine ⟨rows.take (2 ^ 30 - 1), r, rest, ?_, ?_⟩
    · rw [← hdrop, List.take_append_drop]
    · rw [List.length_take]
      omega
  have hzero : Table.new.items.length = 0 := rfl
  obtain ⟨t, hadd, hsized, hitems⟩ := @addRows_rows openResults first _
    Table.new_sized (by omega) fun i r' hr' => by
      rw [hzero, Nat.zero_add]
      apply hopen i r'
      rw [List.getElem?_append_left (List.getElem?_eq_some_iff.mp hr').1]
      exact hr'
  have htlen : t.items.length = first.length := by
    rw [hitems]
    simp [Table.new]
  have hrow := addRow_row openResults r hsized rfl (by
    rw [htlen]
    exact hopen _ r (by simp))
  have hnull := hsized.overflow ⟨openResults t.items.length r.path, r.buffer⟩ (by omega)
  have hrun : addRows openResults (fileOf (first ++ r :: rest)) Table.new =
      addRows openResults (fileOf rest) (Table.grow { t with
        items := t.items ++ [⟨openResults t.items.length r.path, r.buffer⟩] }) := by
    rw [addRows_append, hadd]
    show addRows openResults (fileOf (r :: rest)) t = _
    rw [addRows_cons, hrow]
    rfl
  unfold contentInit
  rcases addRows_null openResults hnull rest with hrest | hrest
  · simp only [hrun, hrest, bind, Except.bind]
  · simp only [hrun, hrest, bind, Except.bind, hnull]

end Init

/-! ## `content_get` -/

section Get

variable {items : List Item} {key : List Byte} {lo hi : ℤ}

/-- The name of a row, for the order of the rows. -/
def Item.name (it : Item) : List Byte := cstring it.key

theorem itemcmp_nonpos_iff {a b : Item} : itemcmp a b ≤ 0 ↔ codes a.name ≤ codes b.name :=
  strcmp_nonpos_iff (zero_not_mem_cstring _) (zero_not_mem_cstring _)

/-- The value for `key`: the descriptor of a row with this name, or -1 if there is none. -/
def Found (items : List Item) (key : List Byte) (value : ℤ) : Prop :=
  (∃ it ∈ items, it.name = key ∧ value = it.fildes) ∨ (∀ it ∈ items, it.name ≠ key) ∧ value = -1

/-- The rows are in order. -/
theorem name_le_of_le (hord : items.Pairwise fun a b => itemcmp a b ≤ 0) {i j : ℕ} {a b : Item}
    (hij : i ≤ j) (ha : items[i]? = some a) (hb : items[j]? = some b) :
    codes a.name ≤ codes b.name := by
  obtain ⟨hi, rfl⟩ := List.getElem?_eq_some_iff.mp ha
  obtain ⟨hj, rfl⟩ := List.getElem?_eq_some_iff.mp hb
  rcases Nat.lt_or_eq_of_le hij with hlt | rfl
  · exact itemcmp_nonpos_iff.mp (List.pairwise_iff_getElem.mp hord i j hi hj hlt)
  · exact le_rfl

/-- The invariant of the search: a row with the name `key` stands between `lo` and `hi`. -/
def Between (items : List Item) (key : List Byte) (lo hi : ℤ) : Prop :=
  0 ≤ lo ∧ hi < items.length ∧
    ∀ (i : ℕ) it, items[i]? = some it → it.name = key → lo ≤ i ∧ i ≤ hi

/-- The search reads filled rows only, and what it finds is right. -/
theorem contentGetLoop_spec (hord : items.Pairwise fun a b => itemcmp a b ≤ 0) (hkey : 0 ∉ key)
    (h : Between items key lo hi) :
    ∃ value, contentGetLoop items key lo hi = .ok value ∧ Found items key value := by
  induction hn : (hi + 1 - lo).toNat using Nat.strong_induction_on generalizing lo hi with
  | _ n ih =>
    obtain ⟨hlo, hhi, hinv⟩ := h
    rw [contentGetLoop]
    by_cases hle : lo ≤ hi
    swap
    · -- nothing is left
      rw [if_neg hle]
      refine ⟨-1, rfl, Or.inr ⟨fun it hit hname => ?_, rfl⟩⟩
      obtain ⟨i, hi', rfl⟩ := List.mem_iff_getElem.mp hit
      have := hinv i _ (List.getElem?_eq_getElem hi') hname
      omega
    rw [if_pos hle]
    obtain ⟨mid, hmid⟩ : ∃ mid : ℕ, lo + (hi - lo) / 2 = mid :=
      ⟨(lo + (hi - lo) / 2).toNat, by omega⟩
    have hlt : mid < items.length := by omega
    have hitem : items[mid]? = some (items[mid]) := List.getElem?_eq_getElem hlt
    simp only [hmid, Int.toNat_natCast, hitem]
    rw [if_neg (by omega)]
    have hname : (0 : Byte) ∉ (items[mid]).name := zero_not_mem_cstring _
    split_ifs with hneg hpos
    · -- the name is in front of the row `mid`
      refine ih _ ?_ ⟨hlo, by omega, fun i it hit hit' => ⟨(hinv i it hit hit').1, ?_⟩⟩ rfl
      · omega
      · by_contra hcon
        have hgt := (strcmp_neg_iff hkey hname).mp hneg
        have hord' := name_le_of_le hord (show mid ≤ i by omega) hitem hit
        rw [hit'] at hord'
        exact absurd hgt (not_lt.mpr hord')
    · -- the name is behind the row `mid`
      refine ih _ ?_ ⟨by omega, hhi, fun i it hit hit' => ⟨?_, (hinv i it hit hit').2⟩⟩ rfl
      · omega
      · by_contra hcon
        have hgt := (strcmp_pos_iff hkey hname).mp hpos
        have hord' := name_le_of_le hord (show i ≤ mid by omega) hit hitem
        rw [hit'] at hord'
        exact absurd hgt (not_lt.mpr hord')
    · have hzero : strcmp key (items[mid]).name = 0 := le_antisymm (not_lt.mp hpos) (not_lt.mp hneg)
      exact ⟨_, rfl, Or.inl ⟨items[mid], List.getElem_mem hlt,
        ((strcmp_eq_zero_iff hkey hname).mp hzero).symm, rfl⟩⟩

/-- `content_get` on rows in order. -/
theorem contentGet_spec {t : Table} (hord : t.items.Pairwise fun a b => itemcmp a b ≤ 0)
    (hkey : 0 ∉ key) : ∃ value, contentGet t key = .ok value ∧ Found t.items key value := by
  refine contentGetLoop_spec hord hkey ⟨le_rfl, by omega, fun i it hit _ => ?_⟩
  have := (List.getElem?_eq_some_iff.mp hit).1
  omega

end Get

/-! ## Exact lookup -/

/-- `content_init` returns, and then `content_get` returns, for each key, the descriptor that
    `open` has returned for a row with this key, or -1 if there is no such row. -/
def LookupExact (openResults : OpenResults) (qsort : List Item → List Item) (rows : List Row) :
    Prop :=
  ∃ t, contentInit openResults qsort (some (fileOf rows)) = .ok t ∧
    ∀ key : List Byte, 0 ∉ key → ∃ value, contentGet t key = .ok value ∧
      ((∃ i r, rows[i]? = some r ∧ r.key = key ∧ value = openResults i r.path) ∨
        (∀ r ∈ rows, r.key ≠ key) ∧ value = -1)

theorem Row.name_buffer (r : Row) (fildes : ℤ) : (Item.mk fildes r.buffer).name = r.key :=
  cstring_append fun h => (r.clean 0 (List.mem_append_left _ h)).2.2.1 rfl

theorem mem_rowItems {openResults : OpenResults} {rows : List Row} {it : Item} :
    it ∈ rowItems openResults rows ↔
      ∃ i r, rows[i]? = some r ∧ it = ⟨openResults i r.path, r.buffer⟩ := by
  rw [rowItems, List.mem_mapIdx]
  constructor
  · rintro ⟨i, hi, rfl⟩
    exact ⟨i, rows[i], List.getElem?_eq_getElem hi, rfl⟩
  · rintro ⟨i, r, hr, rfl⟩
    obtain ⟨hi, rfl⟩ := List.getElem?_eq_some_iff.mp hr
    exact ⟨i, hi, rfl⟩

/-- The lookup is exact for the files with fewer than 2^30 rows. -/
theorem lookup_exact_iff (openResults : OpenResults) (qsort : List Item → List Item)
    (rows : List Row) (hopen : Openable openResults rows) (hsort : IsQsort qsort) :
    LookupExact openResults qsort rows ↔ rows.length < 2 ^ 30 := by
  constructor
  · rintro ⟨t, ht, -⟩
    by_contra hlen
    rw [contentInit_overflow (not_lt.mp hlen) hopen] at ht
    cases ht
  · intro hlen
    obtain ⟨t, ht, hitems⟩ := contentInit_rows qsort hlen hopen
    refine ⟨t, ht, fun key hkey => ?_⟩
    have hmem : ∀ it, it ∈ t.items ↔
        ∃ i r, rows[i]? = some r ∧ it = ⟨openResults i r.path, r.buffer⟩ := fun it => by
      rw [hitems, (hsort.perm _).mem_iff, mem_rowItems]
    obtain ⟨value, hget, hfound⟩ := contentGet_spec (t := t)
      (by rw [hitems]; exact hsort.ordered _) hkey
    refine ⟨value, hget, ?_⟩
    rcases hfound with ⟨it, hit, hname, hvalue⟩ | ⟨hnone, hvalue⟩
    · obtain ⟨i, r, hr, rfl⟩ := (hmem it).mp hit
      exact Or.inl ⟨i, r, hr, (r.name_buffer _).symm.trans hname, hvalue⟩
    · refine Or.inr ⟨fun r hr hkey' => ?_, hvalue⟩
      obtain ⟨i, hi, rfl⟩ := List.mem_iff_getElem.mp hr
      exact hnone _ ((hmem _).mpr ⟨i, _, List.getElem?_eq_getElem hi, rfl⟩)
        ((Row.name_buffer _ _).trans hkey')

/-- Sorting by insertion is a `qsort`. -/
def insertionQsort : List Item → List Item := List.insertionSort fun a b => itemcmp a b ≤ 0

theorem isQsort_insertion : IsQsort insertionQsort := by
  have htotal : Std.Total fun a b => itemcmp a b ≤ 0 :=
    ⟨fun a b => by simpa only [itemcmp_nonpos_iff] using le_total _ _⟩
  have htrans : IsTrans Item fun a b => itemcmp a b ≤ 0 :=
    ⟨fun a b c => by simpa only [itemcmp_nonpos_iff] using le_trans⟩
  exact ⟨List.perm_insertionSort _, List.pairwise_insertionSort _⟩

theorem space_isSep : (32 : Byte) = 32 ∨ (32 : Byte) = 9 := Or.inl rfl

/-- The row "key path" with keys and paths of one letter. -/
def Row.letters (key path : Byte) (h : ∀ a ∈ [key, path], a ≠ 32 ∧ a ≠ 9 ∧ a ≠ 0 ∧ a ≠ 10) : Row where
  key := [key]
  sep := 32
  path := [path]
  isSep := space_isSep
  clean := h
  le := by simp

/-- Two rows that are not in order. -/
theorem lookup_exact_two :
    LookupExact (fun n _ => n + 3) insertionQsort
      [Row.letters 98 120 (by decide +kernel), Row.letters 97 121 (by decide +kernel)] :=
  (lookup_exact_iff (fun n _ => n + 3) insertionQsort
    [Row.letters 98 120 (by decide +kernel), Row.letters 97 121 (by decide +kernel)]
    (fun i _ _ => Int.natCast_nonneg (i + 3)) isQsort_insertion).mpr (by simp)

/-- 2^30 rows: `capacity *= 2` overflows, and the table is lost. -/
theorem lookup_not_exact :
    ¬ ∀ (openResults : OpenResults) (qsort : List Item → List Item) (rows : List Row),
      rows.length < 2 ^ 31 → Openable openResults rows → IsQsort qsort →
        LookupExact openResults qsort rows := by
  intro h
  set row := Row.letters 97 120 (by decide +kernel) with hrow
  have hlen : (List.replicate (2 ^ 30) row).length = 2 ^ 30 := List.length_replicate
  have hopen : Openable (fun _ _ => 3) (List.replicate (2 ^ 30) row) := fun _ _ _ => Int.natCast_nonneg 3
  obtain ⟨t, ht, -⟩ := h (fun _ _ => 3) insertionQsort (List.replicate (2 ^ 30) row)
    (by omega) hopen isQsort_insertion
  rw [contentInit_overflow hlen.ge hopen] at ht
  cases ht

end IntroOS.Content
