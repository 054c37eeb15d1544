import IntroOS.Gfclient.LocalNames

/-!
# The directories of a local file

Model of `openFile` (`pr1/gflib/gfclient_download.c`, lines 45–71). It looks for the next `/`,
puts a NUL in its place, calls `mkdir`, and puts the `/` back.

* Of the file system there are the directories that exist. `Naming` tells which directory a path
  names, so that `a/b` and `a//b` may name the same one.
* `mkdir` of an existing directory fails with `EEXIST`; when it fails for another reason is an
  argument. Nobody else makes or removes directories.

Main results:

* `openLoop_eq`: the loop calls `mkdir` for the path in front of each `/`, and leaves the path as
  it was.
* `openFile_makes_ancestors`: when `fopen` is called, these directories exist, and no other one has
  been made.
* `openFile_exits_iff`: the process ends exactly if one of the calls or `fopen` fails.
-/

namespace IntroOS.Gfclient

open CString

/-! ## Model -/

/-- `errno` behind a `mkdir` that has failed. -/
inductive Errno
  | EEXIST
  | other
  deriving DecidableEq, Repr

/-- What the paths stand for. -/
structure Naming (Dir : Type) where
  /-- the directory that a path names -/
  resolve : List Byte → Dir
  /-- `mkdir` of a new directory fails, when there are the directories of the list -/
  refuses : List Byte → List Dir → Bool

/-- The variables of `openFile` with the directories that exist, and the paths that `mkdir` has
    been called with. -/
structure Opening (Dir : Type) where
  path : List Byte
  mkdirs : List (List Byte)
  dirs : List Dir

/-- How `openFile` can end without its file. -/
inductive Stop
  | fault (f : Fault)
  /-- `exit(EXIT_FAILURE)` after "Unable to create directory" or "Unable to open file" -/
  | exit
  deriving DecidableEq, Repr

/-- `strchr(&b[i], c)` for a `c` that is not NUL: the position of the first `c`. -/
def strchr (b : List Byte) (i : ℕ) (c : Byte) : Except Fault (Option ℕ) :=
  (cstr b i).map fun s => if c ∈ s then some (i + s.idxOf c) else none

variable {Dir : Type} [DecidableEq Dir]

/-- `mkdir(path, S_IRWXU)`: the error, and the directories behind it. -/
def mkdir (names : Naming Dir) (path : List Byte) (dirs : List Dir) : Option Errno × List Dir :=
  if names.resolve path ∈ dirs then (some .EEXIST, dirs)
  else if names.refuses path dirs then (some .other, dirs)
  else (none, dirs ++ [names.resolve path])

/-- `strchr` finds something behind its argument only. -/
theorem strchr_bounds {b : List Byte} {i cur : ℕ} {c : Byte} (h : strchr b i c = .ok (some cur)) :
    i ≤ cur ∧ cur < b.length := by
  unfold strchr at h
  cases hs : cstr b i with
  | error f => rw [hs] at h; cases h
  | ok s =>
    have hlen := cstr_length_le hs
    simp only [hs, Except.map, Except.ok.injEq] at h
    split_ifs at h with hmem
    cases h
    have hidx := List.idxOf_lt_length_of_mem hmem
    omega

/-- The loop (lines 51–63). -/
def openLoop (names : Naming Dir) (prev : ℕ) (s : Opening Dir) : Except Stop (Opening Dir) :=
  match _h : strchr s.path (prev + 1) 47 with
  | .error f => .error (.fault f)
  | .ok none => .ok s
  | .ok (some cur) =>
    let path := s.path.set cur 0
    match cstr path 0 with
    | .error f => .error (.fault f)
    | .ok arg =>
      let r := mkdir names arg s.dirs
      if r.1 = some .other then .error .exit
      else openLoop names cur ⟨path.set cur 47, s.mkdirs ++ [arg], r.2⟩
termination_by s.path.length - prev
decreasing_by
  have hbounds := strchr_bounds (‹_› : strchr s.path (prev + 1) 47 = .ok (some cur))
  rw [List.length_set, List.length_set]
  omega

/-- What there is when `fopen` is called. -/
def beforeFopen (names : Naming Dir) (path : PathString) (dirs : List Dir) :
    Except Stop (Opening Dir) :=
  openLoop names 0 ⟨path.bytes ++ [0], [], dirs⟩

/-- `openFile`; `fopens` tells whether `fopen` succeeds. -/
def openFile (names : Naming Dir) (fopens : Bool) (path : PathString) (dirs : List Dir) :
    Except Stop (Opening Dir) :=
  (beforeFopen names path dirs).bind fun s => if fopens then .ok s else .error .exit

/-! ## The ancestors of a path -/

/-- The positions of `/` behind `prev`, in increasing order. -/
def separators (path : List Byte) (prev : ℕ) : List ℕ :=
  (path.drop (prev + 1)).findIdxs (· == 47) (prev + 1)

/-- The paths in front of these. -/
def ancestors (path : List Byte) (prev : ℕ) : List (List Byte) := (separators path prev).map path.take

/-- `mkdir` for each path of a list; none if one of the calls fails for another reason than
    `EEXIST`. -/
def mkdirAll (names : Naming Dir) : List (List Byte) → List Dir → Option (List Dir)
  | [], dirs => some dirs
  | path :: paths, dirs =>
    let r := mkdir names path dirs
    if r.1 = some .other then none else mkdirAll names paths r.2

section Ancestors

variable {names : Naming Dir} {path : List Byte} {paths : List (List Byte)} {dirs dirs' : List Dir}
  {prev : ℕ}

/-- What a separator is: a `/` behind `prev`. -/
theorem mem_separators {i : ℕ} : i ∈ separators path prev ↔ prev < i ∧ path[i]? = some 47 := by
  rw [separators, List.mem_findIdxs_iff_getElem_sub_pos]
  constructor
  · rintro ⟨hle, hlt, heq⟩
    rw [List.length_drop] at hlt
    rw [List.getElem_drop, beq_iff_eq] at heq
    have hat := List.getElem?_eq_getElem (by omega : prev + 1 + (i - (prev + 1)) < path.length)
    rw [heq, Nat.add_sub_cancel' hle] at hat
    exact ⟨hle, hat⟩
  · rintro ⟨hlt, heq⟩
    obtain ⟨hi, heq⟩ := List.getElem?_eq_some_iff.mp heq
    refine ⟨hlt, by rw [List.length_drop]; omega, ?_⟩
    rw [List.getElem_drop, beq_iff_eq]
    simpa only [Nat.add_sub_cancel' (Nat.succ_le_of_lt hlt)] using heq

theorem separators_sorted : (separators path prev).Pairwise (· < ·) := List.pairwise_findIdxs

/-- The first separator and the others. -/
theorem separators_of_drop {u v : List Byte} (hu : (47 : Byte) ∉ u)
    (h : path.drop (prev + 1) = u ++ 47 :: v) :
    separators path prev = (prev + 1 + u.length) :: separators path (prev + 1 + u.length) := by
  have hnone : u.findIdxs (· == 47) (prev + 1) = [] := by
    rw [List.findIdxs_eq_nil_iff]
    exact fun x hx => beq_eq_false_iff_ne.mpr (ne_of_mem_of_not_mem hx hu)
  have hrest : path.drop (prev + 1 + u.length + 1) = v := by
    rw [← List.drop_drop, drop_after h]
    rfl
  rw [separators, separators, h, hrest, List.findIdxs_append, hnone, List.nil_append,
    List.findIdxs_cons, if_pos (by decide)]

theorem separators_eq_nil (h : (47 : Byte) ∉ path.drop (prev + 1)) : separators path prev = [] := by
  rw [separators, List.findIdxs_eq_nil_iff]
  exact fun x hx => beq_eq_false_iff_ne.mpr (ne_of_mem_of_not_mem hx h)

theorem mem_mkdir (h : (mkdir names path dirs).1 ≠ some .other) (d : Dir) :
    d ∈ (mkdir names path dirs).2 ↔ d ∈ dirs ∨ names.resolve path = d := by
  unfold mkdir at h ⊢
  split_ifs at h ⊢ with hold hrefused
  · exact (or_iff_left_of_imp fun heq => heq ▸ hold).symm
  · exact absurd rfl h
  · rw [List.mem_append, List.mem_singleton, @eq_comm _ d]

/-- The directories behind the calls: the old ones and those that have been asked for. -/
theorem mem_mkdirAll (h : mkdirAll names paths dirs = some dirs') (d : Dir) :
    d ∈ dirs' ↔ d ∈ dirs ∨ ∃ p ∈ paths, names.resolve p = d := by
  induction paths generalizing dirs with
  | nil =>
    cases h
    exact (or_iff_left (by simp)).symm
  | cons p paths ih =>
    rw [mkdirAll] at h
    split_ifs at h with hother
    simp only [ih h, mem_mkdir hother, List.exists_mem_cons_iff, or_assoc]

end Ancestors

/-! ## The loop -/

section Loop

variable {names : Naming Dir} {path : List Byte}

theorem cstr_path (hpath : (0 : Byte) ∉ path) {i : ℕ} (hi : i ≤ path.length) :
    cstr (path ++ [0]) i = .ok (path.drop i) :=
  cstr_eq_ok_iff.mpr ⟨fun h => hpath (List.mem_of_mem_drop h), [], List.drop_append_of_le_length hi⟩

/-- The path is cut at `cur`, and repaired. -/
theorem cut_and_repair (hpath : (0 : Byte) ∉ path) {cur : ℕ} (h : path[cur]? = some 47) :
    cstr ((path ++ [0]).set cur 0) 0 = .ok (path.take cur) ∧
      ((path ++ [0]).set cur 0).set cur 47 = path ++ [0] := by
  obtain ⟨hlt, heq⟩ := List.getElem?_eq_some_iff.mp h
  constructor
  · refine cstr_eq_ok_iff.mpr ⟨fun hmem => hpath (List.mem_of_mem_take hmem),
      path.drop (cur + 1) ++ [0], ?_⟩
    rw [List.drop_zero, List.set_append_left _ _ hlt, List.set_eq_take_append_cons_drop,
      if_pos hlt, List.append_assoc, List.cons_append]
  · rw [List.set_set, List.set_append_left _ _ hlt, ← heq, List.set_getElem_self]

/-- The next separator, if there is one, is what `strchr` finds. -/
theorem strchr_next (hpath : (0 : Byte) ∉ path) {prev : ℕ} (hprev : prev < path.length) :
    (strchr (path ++ [0]) (prev + 1) 47 = .ok none ∧ separators path prev = []) ∨
      ∃ cur, strchr (path ++ [0]) (prev + 1) 47 = .ok (some cur) ∧ path[cur]? = some 47 ∧
        separators path prev = cur :: separators path cur := by
  have hcstr := cstr_path hpath (Nat.succ_le_of_lt hprev)
  by_cases hmem : (47 : Byte) ∈ path.drop (prev + 1)
  · obtain ⟨u, v, hsplit, hu⟩ := List.eq_append_cons_of_mem hmem
    refine Or.inr ⟨prev + 1 + u.length, ?_, ?_, separators_of_drop hu hsplit⟩
    · have hidx : (path.drop (prev + 1)).idxOf 47 = u.length := by
        rw [hsplit, List.idxOf_append_of_notMem hu, List.idxOf_cons_self, Nat.add_zero]
      rw [strchr, hcstr, Except.map, if_pos hmem, hidx]
    · have hhead := congrArg List.head? (drop_after hsplit)
      rwa [List.head?_drop, List.head?_cons] at hhead
  · refine Or.inl ⟨?_, separators_eq_nil hmem⟩
    rw [strchr, hcstr, Except.map, if_neg hmem]

/-- The loop from `prev` calls `mkdir` for each path in front of a `/` behind `prev`. -/
theorem openLoop_eq (hpath : (0 : Byte) ∉ path) (prev : ℕ) (hprev : prev < path.length)
    (mkdirs : List (List Byte)) (dirs : List Dir) :
    openLoop names prev ⟨path ++ [0], mkdirs, dirs⟩ =
      match mkdirAll names (ancestors path prev) dirs with
      | some dirs' => .ok ⟨path ++ [0], mkdirs ++ ancestors path prev, dirs'⟩
      | none => .error .exit := by
  induction hn : path.length - prev using Nat.strong_induction_on generalizing prev mkdirs dirs with
  | h n ih =>
    rcases strchr_next hpath hprev with ⟨hfound, hseps⟩ | ⟨cur, hfound, hat, hseps⟩
    · rw [openLoop, ancestors, hseps, List.map_nil, mkdirAll, List.append_nil]
      split
      · rename_i f hf; rw [hfound] at hf; cases hf
      · rfl
      · rename_i cur' hf; rw [hfound] at hf; cases hf
    · have hbehind := (strchr_bounds hfound).1
      obtain ⟨hlt, -⟩ := List.getElem?_eq_some_iff.mp hat
      obtain ⟨hcut, hrepair⟩ := cut_and_repair hpath hat
      have hancestors : ancestors path prev = path.take cur :: ancestors path cur := by
        rw [ancestors, hseps, List.map_cons, ancestors]
      rw [openLoop, hancestors, mkdirAll]
      split
      · rename_i f hf; rw [hfound] at hf; cases hf
      · rename_i hf; rw [hfound] at hf; cases hf
      · rename_i cur' hf
        rw [hfound] at hf
        cases hf
        simp only [hcut, hrepair]
        split_ifs with hother
        · rfl
        · rw [ih _ (by omega) cur hlt _ _ rfl]
          simp only [List.append_assoc, List.singleton_append]

end Loop

/-! ## `openFile` -/

/-- `fopen` is called with the path as it was, after a call of `mkdir` for the path in front of
    each `/` but a first one, in their order. Their directories exist then, and no others have been
    made. -/
theorem openFile_makes_ancestors (names : Naming Dir) (path : PathString) (dirs dirs' : List Dir)
    (h : mkdirAll names (ancestors path.bytes 0) dirs = some dirs') :
    beforeFopen names path dirs = .ok ⟨path.bytes ++ [0], ancestors path.bytes 0, dirs'⟩ ∧
      ((separators path.bytes 0).Pairwise (· < ·) ∧
        ∀ i, i ∈ separators path.bytes 0 ↔ 0 < i ∧ path.bytes[i]? = some 47) ∧
      (∀ p ∈ ancestors path.bytes 0, names.resolve p ∈ dirs') ∧
      ∀ d, d ∈ dirs' ↔ d ∈ dirs ∨ ∃ p ∈ ancestors path.bytes 0, names.resolve p = d := by
  refine ⟨?_, ⟨separators_sorted, fun i => mem_separators⟩,
    fun p hp => (mem_mkdirAll h _).mpr (Or.inr ⟨p, hp, rfl⟩), mem_mkdirAll h⟩
  rw [beforeFopen, openLoop_eq path.noNul 0 (List.length_pos_of_ne_nil path.ne_nil), h]
  rfl

/-- A slash in front and two in a row; slashes at the end of a path do not count. -/
theorem openFile_makes_ancestors_slashes :
    beforeFopen ⟨fun p => (p.reverse.dropWhile (· == 47)).reverse, fun _ _ => false⟩
        ⟨ascii "/a//b/c", by decide, by decide⟩ [] =
      .ok ⟨ascii "/a//b/c" ++ [0], [ascii "/a", ascii "/a/", ascii "/a//b"],
        [ascii "/a", ascii "/a//b"]⟩ := by
  have hancestors : ancestors (ascii "/a//b/c") 0 = [ascii "/a", ascii "/a/", ascii "/a//b"] := by
    decide +kernel
  have h := (openFile_makes_ancestors
    ⟨fun p => (p.reverse.dropWhile (· == 47)).reverse, fun _ _ => false⟩
    ⟨ascii "/a//b/c", by decide, by decide⟩ [] [ascii "/a", ascii "/a//b"]
    (by decide +kernel)).1
  rwa [hancestors] at h

/-- The process ends exactly if a call of `mkdir` fails for another reason than `EEXIST`, or
    `fopen` does. -/
theorem openFile_exits_iff (names : Naming Dir) (fopens : Bool) (path : PathString)
    (dirs : List Dir) :
    openFile names fopens path dirs = .error .exit ↔
      mkdirAll names (ancestors path.bytes 0) dirs = none ∨ fopens = false := by
  rw [openFile, beforeFopen, openLoop_eq path.noNul 0 (List.length_pos_of_ne_nil path.ne_nil)]
  cases mkdirAll names (ancestors path.bytes 0) dirs <;> cases fopens <;> simp [Except.bind]

end IntroOS.Gfclient
