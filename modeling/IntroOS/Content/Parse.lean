import IntroOS.Content.Lookup

/-!
# Reading a content file

`content_init` on files of rows of any length, with or without an LF behind the last row. `fgets`
delivers a row of more than 254 characters in several pieces, and the last character of every
piece is taken out, also when it is not an LF.

Main results:

* `contentInit_faithful`: rows that fit and end with an LF become the rows of the table.
* `addRows_length`: there are at least as many pieces as rows.
* `parse_faithful_iff`: the files that are read faithfully in every file system.
-/

namespace IntroOS.Content

open CString

/-! ## Files -/

/-- A row of a content file, of any length. -/
structure Line where
  key : List Byte
  sep : Byte
  path : List Byte
  isSep : sep = 32 ∨ sep = 9
  clean : ∀ a ∈ key ++ path, a ≠ 32 ∧ a ≠ 9 ∧ a ≠ 0 ∧ a ≠ 10

/-- The text of a row. -/
def Line.text (l : Line) : List Byte := l.key ++ l.sep :: l.path

/-- The file with the rows; `ended` tells whether there is an LF behind the last one. -/
def fileOfLines : List Line → Bool → List Byte
  | [], _ => []
  | [l], false => l.text
  | l :: ls, ended => l.text ++ 10 :: fileOfLines ls ended

/-- `content_init` succeeds, and each row has an entry of its own in the table: its key with what
    `open` has returned for its path. There are no other entries. -/
def Faithful (openResults : OpenResults) (qsort : List Item → List Item) (ls : List Line)
    (ended : Bool) : Prop :=
  ∃ t items, contentInit openResults qsort (some (fileOfLines ls ended)) = .ok t ∧
    t.items.Perm items ∧
    List.Forall₂ (fun it l => it.name = l.key ∧ ∃ n, it.fildes = openResults n l.path) items ls

/-- Every path can be opened at any time. -/
def Opens (openResults : OpenResults) (ls : List Line) : Prop :=
  ∀ n, ∀ l ∈ ls, 0 ≤ openResults n l.path

/-! ## Rows that fit -/

section Fit

variable {openResults : OpenResults} {qsort : List Item → List Item}

/-- A row that fits into the buffer. -/
def Line.row (l : Line) (h : l.text.length ≤ 254) : Row where
  key := l.key
  sep := l.sep
  path := l.path
  isSep := l.isSep
  clean := l.clean
  le := by
    rw [Line.text, List.length_append, List.length_cons] at h
    omega

/-- Rows that fit. -/
theorem exists_rows {ls : List Line} (h : ∀ l ∈ ls, l.text.length ≤ 254) :
    ∃ rows : List Row, fileOfLines ls true = fileOf rows ∧
      List.Forall₂ (fun (r : Row) (l : Line) => r.key = l.key ∧ r.path = l.path) rows ls := by
  induction ls with
  | nil => exact ⟨[], rfl, .nil⟩
  | cons l ls ih =>
    obtain ⟨rows, hfile, hrows⟩ := ih fun l' hl' => h l' (List.mem_cons_of_mem _ hl')
    refine ⟨l.row (h l List.mem_cons_self) :: rows, ?_, .cons ⟨rfl, rfl⟩ hrows⟩
    rw [fileOfLines, hfile]
    · simp [fileOf, Row.text, Line.row, Line.text]
    · intro hended
      cases hended

theorem openable_rows {ls : List Line} {rows : List Row} (hopen : Opens openResults ls)
    (h : List.Forall₂ (fun (r : Row) (l : Line) => r.key = l.key ∧ r.path = l.path) rows ls) :
    Openable openResults rows := by
  intro i r hr
  obtain ⟨hi, rfl⟩ := List.getElem?_eq_some_iff.mp hr
  have hl := h.get hi (h.length_eq ▸ hi)
  simp only [List.get_eq_getElem] at hl
  rw [hl.2]
  exact hopen i _ (List.getElem_mem _)

/-- Rows that fit and end with an LF are read faithfully. -/
theorem contentInit_faithful (hsort : IsQsort qsort) {ls : List Line}
    (hfit : ∀ l ∈ ls, l.text.length ≤ 254) (hlen : ls.length < 2 ^ 30)
    (hopen : Opens openResults ls) : Faithful openResults qsort ls true := by
  obtain ⟨rows, hfile, hrows⟩ := exists_rows hfit
  obtain ⟨t, ht, hitems⟩ := contentInit_rows qsort (by rw [hrows.length_eq]; exact hlen)
    (openable_rows hopen hrows)
  refine ⟨t, rowItems openResults rows, by rw [hfile]; exact ht, ?_, ?_⟩
  · rw [hitems]
    exact hsort.perm _
  · rw [List.forall₂_iff_get]
    have hlength : (rowItems openResults rows).length = ls.length := by
      rw [rowItems, List.length_mapIdx, hrows.length_eq]
    refine ⟨hlength, fun i hi hi' => ?_⟩
    have hr := (List.forall₂_iff_get.mp hrows).2 i (by rw [hrows.length_eq]; exact hi') hi'
    simp only [rowItems, List.get_eq_getElem, List.getElem_mapIdx] at hr ⊢
    rw [Row.name_buffer, hr.1, hr.2]
    exact ⟨rfl, i, rfl⟩

/-- A table of 2^30 rows has no room. -/
theorem not_faithful_many {ls : List Line} (hfit : ∀ l ∈ ls, l.text.length ≤ 254)
    (hmany : 2 ^ 30 ≤ ls.length) (hopen : Opens openResults ls) :
    ¬ Faithful openResults qsort ls true := by
  rintro ⟨t, items, ht, -⟩
  obtain ⟨rows, hfile, hrows⟩ := exists_rows hfit
  have hnull : contentInit openResults qsort (some (fileOf rows)) = .error (.fault .nullPointer) :=
    contentInit_overflow (by rw [hrows.length_eq]; exact hmany) (openable_rows hopen hrows)
  rw [hfile, hnull] at ht
  cases ht

end Fit

/-! ## The pieces of a row -/

section Pieces

variable {openResults : OpenResults} {file u rest key : List Byte} {t t' : Table} {n : ℕ}

/-- A line that does not fit is cut. -/
theorem takeLine_part (rest : List Byte) (hu : ∀ a ∈ u, a ≠ 10) (hn : n ≤ u.length) :
    takeLine n (u ++ rest) = (u.take n, u.drop n ++ rest) := by
  induction u generalizing n with
  | nil =>
    obtain rfl := Nat.le_zero.mp hn
    rfl
  | cons x u ih =>
    cases n with
    | zero => rfl
    | succ n =>
      have hrec := ih (fun a ha => hu a (List.mem_cons_of_mem _ ha)) (Nat.le_of_succ_le_succ hn)
      rw [List.cons_append, takeLine, if_neg (hu x List.mem_cons_self), hrec]
      rfl

/-- A last line that fits. -/
theorem takeLine_end (hu : ∀ a ∈ u, a ≠ 10) (hn : u.length ≤ n) : takeLine n u = (u, []) := by
  induction u generalizing n with
  | nil => cases n <;> rfl
  | cons x u ih =>
    obtain ⟨n, rfl⟩ : ∃ k, n = k + 1 := ⟨n - 1, by rw [List.length_cons] at hn; omega⟩
    have hrec := ih (fun a ha => hu a (List.mem_cons_of_mem _ ha)) (Nat.le_of_succ_le_succ hn)
    rw [takeLine, if_neg (hu x List.mem_cons_self), hrec]

/-- One iteration of the loop. -/
theorem addRows_piece (hfile : file ≠ []) :
    addRows openResults file t =
      (addRow openResults ((takeLine 255 file).1 ++ [0]) t).bind
        (addRows openResults (takeLine 255 file).2) := by
  obtain ⟨x, file, rfl⟩ := List.exists_cons_of_ne_nil hfile
  rw [addRows]
  split
  · rename_i h
    cases h
  · rename_i key rest h
    cases h
    rfl

theorem bind_eq_ok {ε α β : Type} {m : Except ε α} {f : α → Except ε β} {b : β}
    (h : m.bind f = .ok b) : ∃ a, m = .ok a ∧ f a = .ok b := by
  cases m with
  | error e => cases h
  | ok a => exact ⟨a, rfl, h⟩

/-- A row that is added has a path, and its descriptor is what `open` returns for that path. -/
theorem addRow_ok (h : addRow openResults key t = .ok t') :
    ∃ key' path, splitRow key = .ok (key', some path) ∧
      t'.items = t.items ++ [⟨openResults t.items.length path, key'⟩] := by
  unfold addRow at h
  cases halloc : t.allocated with
  | none => rw [halloc] at h; cases h
  | some n =>
    rw [halloc] at h
    dsimp only at h
    split_ifs at h with hfull
    cases hsplit : splitRow key with
    | error f => rw [hsplit] at h; cases h
    | ok r =>
      obtain ⟨key', path⟩ := r
      cases path with
      | none => rw [hsplit] at h; cases h
      | some path =>
        rw [hsplit] at h
        dsimp only at h
        split_ifs at h with hneg
        cases h
        exact ⟨key', path, rfl, Table.grow_items _⟩

theorem addRow_length (h : addRow openResults key t = .ok t') :
    t'.items.length = t.items.length + 1 := by
  obtain ⟨key', path, -, hitems⟩ := addRow_ok h
  rw [hitems, List.length_append, List.length_singleton]

theorem addRows_mono (h : addRows openResults file t = .ok t') :
    t.items.length ≤ t'.items.length := by
  fun_induction addRows openResults file t with
  | case1 file t hnone => cases h; exact le_rfl
  | case2 file t key rest hpiece ih =>
    obtain ⟨t₁, hrow, hrest⟩ := bind_eq_ok h
    have hlen := addRow_length hrow
    have hle := ih t₁ hrest
    omega

/-- A line is read in one piece or more. -/
theorem addRows_line (hu : ∀ a ∈ u, a ≠ 10) (h : addRows openResults (u ++ 10 :: rest) t = .ok t') :
    ∃ t₁, addRows openResults rest t₁ = .ok t' ∧ t.items.length + 1 ≤ t₁.items.length := by
  induction hn : u.length using Nat.strong_induction_on generalizing u t with
  | h n ih =>
    rw [addRows_piece (by simp)] at h
    obtain ⟨t₁, hrow, hrest⟩ := bind_eq_ok h
    have hlen := addRow_length hrow
    rcases Nat.lt_or_ge u.length 255 with hlt | hge
    · rw [takeLine_row rest hu hlt] at hrest
      exact ⟨t₁, hrest, hlen.ge⟩
    · rw [takeLine_part _ hu hge] at hrest
      obtain ⟨t₂, h₂, hle⟩ := ih _ (by rw [List.length_drop]; omega)
        (fun a ha => hu a (List.mem_of_mem_drop ha)) hrest rfl
      exact ⟨t₂, h₂, by omega⟩

end Pieces

/-! ## The pieces of a file -/

section Lines

variable {openResults : OpenResults} {l : Line} {ls : List Line} {rest : List Byte} {t t' : Table}

theorem Line.text_clean (l : Line) : ∀ a ∈ l.text, a ≠ 10 := by
  intro a ha
  simp only [Line.text, List.mem_append, List.mem_cons] at ha
  rcases ha with h | rfl | h
  · exact (l.clean a (List.mem_append_left _ h)).2.2.2
  · rcases l.isSep with h | h <;> rw [h] <;> decide
  · exact (l.clean a (List.mem_append_right _ h)).2.2.2

theorem Line.text_ne_nil (l : Line) : l.text ≠ [] := by simp [Line.text]

/-- A row with an LF comes in one piece, and its path is opened, or it takes two entries. -/
theorem addRows_text (h : addRows openResults (l.text ++ 10 :: rest) t = .ok t') :
    ∃ t₁, addRows openResults rest t₁ = .ok t' ∧ (t.items.length + 2 ≤ t₁.items.length ∨
      l.text.length ≤ 254 ∧ ∃ key, t₁.items = t.items ++ [⟨openResults t.items.length l.path, key⟩]) := by
  rcases Nat.lt_or_ge l.text.length 255 with hlt | hge
  · rw [addRows_piece (by simp), takeLine_row rest l.text_clean hlt] at h
    obtain ⟨t₁, hrow, hrest⟩ := bind_eq_ok h
    obtain ⟨key', path, hsplit, hitems⟩ := addRow_ok hrow
    rw [List.append_assoc] at hsplit
    have hfields := splitRow_fields l.isSep l.clean (by decide : (10 : Byte) ≠ 0)
    cases hfields.symm.trans hsplit
    exact ⟨t₁, hrest, Or.inr ⟨by omega, _, hitems⟩⟩
  · rw [addRows_piece (by simp), takeLine_part _ l.text_clean hge] at h
    obtain ⟨t₀, hrow, hrest⟩ := bind_eq_ok h
    have hlen := addRow_length hrow
    obtain ⟨t₁, hrest₁, hle⟩ :=
      addRows_line (fun a ha => l.text_clean a (List.mem_of_mem_drop ha)) hrest
    exact ⟨t₁, hrest₁, Or.inl (by omega)⟩

theorem Line.splitRow_noPath (l : Line) (h : l.path = []) :
    splitRow (l.text ++ [0]) = .ok (l.key ++ [0, 0], none) := by
  have hsep : l.sep ≠ 0 := by rcases l.isSep with h | h <;> rw [h] <;> decide
  have hkey : ∀ a ∈ l.key, a ≠ 0 ∧ a ∉ ascii " \t" := by
    intro a ha
    have hclean := l.clean a (List.mem_append_left _ ha)
    rw [show ascii " \t" = [32, 9] by decide]
    simp [hclean]
  have htext : l.text = l.key ++ [l.sep] := by rw [Line.text, h]
  have hnoNul : (0 : Byte) ∉ l.key ++ [l.sep] := by
    rw [List.mem_append, List.mem_singleton, not_or]
    exact ⟨fun hmem => (hkey 0 hmem).1 rfl, hsep.symm⟩
  have hdrop : dropEol (l.text ++ [0]) = .ok (l.key ++ [0, 0]) := by
    unfold dropEol
    rw [htext, cstring_append hnoNul, List.length_append, List.length_singleton]
    show Except.ok ((l.key ++ [l.sep] ++ [0]).set l.key.length 0) = _
    rw [List.append_assoc, List.set_append_right _ _ le_rfl]
    simp
  have hfirst : strsep (l.key ++ [0, 0]) (some 0) (ascii " \t") =
      (some 0, none, l.key ++ [0, 0]) := by
    have h := strsep_field (b := l.key ++ [0, 0]) (u := []) (w := l.key) (y := 0) (m := [0]) rfl hkey
      (Or.inl rfl)
    rwa [if_pos rfl] at h
  simp only [splitRow, hdrop, bind, Except.bind, hfirst]
  rfl

/-- A row without an LF loses the last character of its path, or it takes two entries. -/
theorem addRows_last (h : addRows openResults l.text t = .ok t') :
    t.items.length + 2 ≤ t'.items.length ∨ ∃ path key, path.length + 1 = l.path.length ∧
      t'.items = t.items ++ [⟨openResults t.items.length path, key⟩] := by
  rw [addRows_piece l.text_ne_nil] at h
  obtain ⟨t₁, hrow, hrest⟩ := bind_eq_ok h
  have hlen := addRow_length hrow
  rcases Nat.lt_or_ge 255 l.text.length with hlt | hge
  · -- something is left for another piece
    have hpart := takeLine_part [] l.text_clean hlt.le
    rw [List.append_nil, List.append_nil] at hpart
    rw [hpart, addRows_piece (List.drop_eq_nil_iff.not.mpr (by omega))] at hrest
    obtain ⟨t₂, hrow₂, hrest₂⟩ := bind_eq_ok hrest
    have hlen₂ := addRow_length hrow₂
    have hmono := addRows_mono hrest₂
    exact Or.inl (by omega)
  · rw [takeLine_end l.text_clean hge] at hrow hrest
    have ht : t' = t₁ := by
      rw [addRows] at hrest
      cases hrest
      rfl
    obtain ⟨key', path, hsplit, hitems⟩ := addRow_ok hrow
    rw [ht]
    rcases List.eq_nil_or_concat l.path with hnil | ⟨p, x, hp⟩
    · -- the separator is taken out, and there is no path
      rw [l.splitRow_noPath hnil] at hsplit
      cases hsplit
    · rw [List.concat_eq_append] at hp
      have hx : x ≠ 0 := (l.clean x (by simp [hp])).2.2.1
      have hclean : ∀ a ∈ l.key ++ p, a ≠ 32 ∧ a ≠ 9 ∧ a ≠ 0 ∧ a ≠ 10 := by
        intro a ha
        apply l.clean a
        rw [hp, ← List.append_assoc]
        exact List.mem_append_left _ ha
      have hfields := splitRow_fields l.isSep hclean hx
      have htext : l.text ++ [0] = l.key ++ l.sep :: p ++ [x, 0] := by simp [Line.text, hp]
      rw [htext, hfields] at hsplit
      cases hsplit
      exact Or.inr ⟨_, _, by rw [hp, List.length_append, List.length_singleton], hitems⟩

/-- There are at least as many entries as rows. -/
theorem addRows_length (ended : Bool)
    (h : addRows openResults (fileOfLines ls ended) t = .ok t') :
    t.items.length + ls.length ≤ t'.items.length := by
  fun_induction fileOfLines ls ended generalizing t with
  | case1 ended => exact addRows_mono h
  | case2 l =>
    rw [List.length_singleton]
    rcases addRows_last h with hle | ⟨path, key, -, hitems⟩
    · omega
    · rw [hitems, List.length_append, List.length_singleton]
  | case3 l ls ended hmore ih =>
    obtain ⟨t₁, hrest, hle⟩ := addRows_line l.text_clean h
    have hrec := ih hrest
    rw [List.length_cons]
    omega

/-! ## Reading the lengths of the paths off the table -/

/-- A file system in which a descriptor tells the number of its call and the length of its path. -/
def lengthCode (n : ℕ) (path : List Byte) : ℤ := (Nat.pair n path.length : ℕ)

/-- The length that a descriptor tells. -/
def pathLength (it : Item) : ℕ := (Nat.unpair it.fildes.toNat).2

theorem pathLength_lengthCode (n : ℕ) (path key : List Byte) :
    pathLength ⟨lengthCode n path, key⟩ = path.length := by
  simp [pathLength, lengthCode]

/-- If there are as many entries as rows, each row was read in one piece, and the lengths of the
    paths are those of the rows but for the last row without an LF. -/
theorem addRows_exact (ended : Bool)
    (h : addRows lengthCode (fileOfLines ls ended) t = .ok t')
    (hlen : t'.items.length = t.items.length + ls.length) :
    (ended = true → ∀ l ∈ ls, l.text.length ≤ 254) ∧
      (t'.items.map pathLength).sum + (if ended = true ∨ ls = [] then 0 else 1) =
        (t.items.map pathLength).sum + (ls.map fun l => l.path.length).sum := by
  fun_induction fileOfLines ls ended generalizing t with
  | case1 ended =>
    rw [addRows] at h
    cases h
    simp
  | case2 l =>
    rcases addRows_last h with hle | ⟨path, key, hpath, hitems⟩
    · rw [List.length_singleton] at hlen
      omega
    · refine ⟨fun hended => ?_, ?_⟩
      · cases hended
      · simp [hitems, pathLength_lengthCode, ← hpath, Nat.add_assoc]
  | case3 l ls ended hmore ih =>
    obtain ⟨t₁, hrest, hle | ⟨hfit, key, hitems⟩⟩ := addRows_text h
    · have hrec := addRows_length ended hrest
      rw [List.length_cons] at hlen
      omega
    · have hlen₁ : t₁.items.length = t.items.length + 1 := by
        rw [hitems, List.length_append, List.length_singleton]
      obtain ⟨hall, hsum⟩ := ih hrest (by rw [List.length_cons] at hlen; omega)
      refine ⟨fun hended => List.forall_mem_cons.mpr ⟨hfit, hall hended⟩, ?_⟩
      have hlast : (ended = true ∨ ls = []) ↔ ended = true := by
        refine or_iff_left_of_imp fun hnil => ?_
        cases ended with
        | true => rfl
        | false => exact absurd hnil (hmore rfl)
      rw [if_congr hlast rfl rfl] at hsum
      simp only [reduceCtorEq, or_false, List.map_cons, List.sum_cons]
      rw [hsum, hitems]
      simp [pathLength_lengthCode, Nat.add_assoc]

end Lines

/-! ## The files that are read faithfully -/

theorem forall₂_sum {xs : List Item} {ls : List Line} {f : Item → ℕ} {g : Line → ℕ}
    (h : List.Forall₂ (fun it l => f it = g l) xs ls) : (xs.map f).sum = (ls.map g).sum := by
  induction h with
  | nil => rfl
  | cons hfirst _ ih => rw [List.map_cons, List.map_cons, List.sum_cons, List.sum_cons, hfirst, ih]

/-- What a file must be like to be read faithfully in the file system above. -/
theorem faithful_lengthCode {qsort : List Item → List Item} (hsort : IsQsort qsort)
    {ls : List Line} {ended : Bool} (h : Faithful lengthCode qsort ls ended) :
    ls.length < 2 ^ 30 ∧ (∀ l ∈ ls, l.text.length ≤ 254) ∧ (ended = true ∨ ls = []) := by
  have ⟨t, items, ht, hperm, hrows⟩ := h
  obtain ⟨t', hadd, hrest⟩ := bind_eq_ok (show (addRows lengthCode (fileOfLines ls ended)
    Table.new).bind _ = .ok t from ht)
  have hitems : t.items.Perm t'.items := by
    cases halloc : t'.allocated with
    | none => rw [halloc] at hrest; cases hrest
    | some n =>
      rw [halloc] at hrest
      cases hrest
      exact hsort.perm _
  have hlen : t'.items.length = Table.new.items.length + ls.length := by
    rw [← hitems.length_eq, hperm.length_eq, hrows.length_eq]
    exact (Nat.zero_add _).symm
  obtain ⟨hfit, hsum⟩ := addRows_exact ended hadd hlen
  have hpaths : (t'.items.map pathLength).sum = (ls.map fun l => l.path.length).sum := by
    rw [← (hitems.map pathLength).sum_eq, (hperm.map pathLength).sum_eq]
    refine forall₂_sum (hrows.imp ?_)
    rintro it l ⟨-, n, hfildes⟩
    rw [show it = ⟨lengthCode n l.path, it.key⟩ by rw [← hfildes], pathLength_lengthCode]
  have hended : ended = true ∨ ls = [] := by
    by_contra hnot
    rw [if_neg hnot, hpaths, show Table.new.items = [] from rfl, List.map_nil, List.sum_nil] at hsum
    omega
  have hall : ∀ l ∈ ls, l.text.length ≤ 254 := by
    rcases hended with htrue | rfl
    · exact hfit htrue
    · exact nofun
  refine ⟨?_, hall, hended⟩
  by_contra hmany
  have htrue : ended = true := hended.resolve_right (by rintro rfl; exact hmany (by decide))
  have hopen : Opens lengthCode ls := fun _ _ _ => Int.natCast_nonneg _
  rw [htrue] at h
  exact not_faithful_many hall (not_lt.mp hmany) hopen h

/-- A file is read faithfully, whatever `open` returns for the paths of its rows, exactly if it
    has fewer than 2^30 rows, of 254 characters at most, and an LF behind the last one. -/
theorem parse_faithful_iff (ls : List Line) (ended : Bool) (qsort : List Item → List Item)
    (hsort : IsQsort qsort) :
    (∀ openResults : OpenResults, Opens openResults ls → Faithful openResults qsort ls ended) ↔
      ls.length < 2 ^ 30 ∧ (∀ l ∈ ls, l.text.length ≤ 254) ∧ (ended = true ∨ ls = []) := by
  constructor
  · intro h
    exact faithful_lengthCode hsort (h lengthCode fun _ _ _ => Int.natCast_nonneg _)
  · rintro ⟨hlen, hfit, hended⟩ openResults hopen
    have hfaithful := contentInit_faithful hsort hfit hlen hopen
    rcases hended with rfl | rfl
    · exact hfaithful
    · exact hfaithful

/-- The row "key path" with a key of one letter and any path. -/
def Line.short (key : Byte) (path : List Byte)
    (h : ∀ a ∈ key :: path, a ≠ 32 ∧ a ≠ 9 ∧ a ≠ 0 ∧ a ≠ 10) : Line where
  key := [key]
  sep := 32
  path := path
  isSep := space_isSep
  clean := h

/-- Two rows, each with an LF. -/
theorem parse_faithful_two :
    Faithful (fun n _ => n + 3) insertionQsort
      [Line.short 98 (ascii "x") (by decide +kernel), Line.short 97 (ascii "yz") (by decide +kernel)]
      true :=
  (parse_faithful_iff [Line.short 98 (ascii "x") (by decide +kernel),
    Line.short 97 (ascii "yz") (by decide +kernel)] true insertionQsort isQsort_insertion).mpr
    ⟨by decide, by decide +kernel, Or.inl rfl⟩ _ fun _ _ _ => by omega

/-- A row "a xy" without an LF: it is "x" that is opened. -/
theorem last_row_loses_character :
    ¬ ∀ (ls : List Line) (ended : Bool) (qsort : List Item → List Item), IsQsort qsort →
      ∀ openResults : OpenResults, Opens openResults ls →
        Faithful openResults qsort ls ended := by
  intro h
  let row := Line.short 97 (ascii "xy") (by decide +kernel)
  obtain ⟨t, items, ht, -⟩ := h [row] false insertionQsort isQsort_insertion
    (fun _ path => if path = ascii "xy" then 3 else -1) (by
      intro n l hl
      rw [List.mem_singleton.mp hl]
      have hpath : row.path = ascii "xy" := rfl
      simp only [hpath, if_true, Nat.ofNat_nonneg])
  have hexit : contentInit (fun _ path => if path = ascii "xy" then 3 else -1) insertionQsort
      (some (ascii "a xy")) = .error .exit := by decide +kernel
  have hfile : fileOfLines [row] false = ascii "a xy" := by decide +kernel
  rw [hfile, hexit] at ht
  cases ht

end IntroOS.Content
