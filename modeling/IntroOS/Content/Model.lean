import IntroOS.CString.Number
import IntroOS.CString.Compare

/-!
# Model of the content library

Model of `pr1/gflib/content.c`: the table of the files that the server offers, and its lookup.

* A file is its bytes. What the calls of `open` return is an argument: `OpenResults`.
* A table holds the rows that have been filled, and the size of the block that `items` points
  to. `malloc` and `realloc` fail for more than `PTRDIFF_MAX` bytes only.
* `qsort` is an argument; what the code relies on is `IsQsort`.
* `lseek` on the descriptor that is found, the texts on `stderr` and `content_destroy` are left
  out.
-/

namespace IntroOS.Content

open CString

/-- `MAX_KEYLEN` (line 8). -/
def MAX_KEYLEN : ℕ := 256

/-- `item_t` (lines 10–13). Of `key` these are the bytes that have been written; `fgets` puts a
    NUL behind them. -/
structure Item where
  fildes : ℤ
  key : List Byte
  deriving DecidableEq, Repr

/-- `sizeof(item_t)`: an `int` and `MAX_KEYLEN` bytes. -/
def sizeofItem : ℕ := 260

/-- `_itemcmp` (lines 18–20). -/
def itemcmp (a b : Item) : ℤ := strcmp (cstring a.key) (cstring b.key)

/-- `qsort` leaves a permutation that is ordered by the comparison. -/
structure IsQsort (qsort : List Item → List Item) : Prop where
  perm : ∀ l, (qsort l).Perm l
  ordered : ∀ l, (qsort l).Pairwise fun a b => itemcmp a b ≤ 0

/-- The value of the `n`-th call of `open` with a path. -/
abbrev OpenResults := ℕ → List Byte → ℤ

/-- Why `content_init` does not return. -/
inductive Stop
  | fault (f : Fault)
  /-- `exit(EXIT_FAILURE)` -/
  | exit
  deriving DecidableEq, Repr

/-! ## Reading a row -/

/-- Up to `n` bytes, up to an LF and with it, and the rest of the file. -/
def takeLine : ℕ → List Byte → List Byte × List Byte
  | 0, file => ([], file)
  | _ + 1, [] => ([], [])
  | n + 1, x :: file =>
    if x = 10 then ([x], file)
    else (x :: (takeLine n file).1, (takeLine n file).2)

/-- `fgets` with a buffer of `size` bytes: what it writes, and the rest of the file; `none` at
    the end of the file. -/
def fgets (size : ℕ) (file : List Byte) : Option (List Byte × List Byte) :=
  match file with
  | [] => none
  | _ :: _ => some ((takeLine (size - 1) file).1 ++ [0], (takeLine (size - 1) file).2)

/-- `key[strlen(key)-1] = '\0'` (line 37). -/
def dropEol (key : List Byte) : Except Fault (List Byte) :=
  match (cstring key).length with
  | 0 => .error .overflow
  | k + 1 => .ok (key.set k 0)

/-- `strsep(&ptr, delim)` in the buffer `b`: the value, and the pointer and the buffer after it. -/
def strsep (b : List Byte) (ptr : Option ℕ) (delim : List Byte) :
    Option ℕ × Option ℕ × List Byte :=
  match ptr with
  | none => (none, none, b)
  | some i =>
    let j := i + ((b.drop i).takeWhile fun x => x ≠ 0 ∧ x ∉ delim).length
    if b.getD j 0 = 0 then (some i, none, b) else (some i, some (j + 1), b.set j 0)

/-- Lines 37–42: the buffer `key` and the path in it. -/
def splitRow (key : List Byte) : Except Fault (List Byte × Option (List Byte)) := do
  let key ← dropEol key
  let (_, ptr, key) := strsep key (some 0) (ascii " \t")
  let (path, _, key) := strsep key ptr (ascii " \t")
  return (key, path.map fun p => cstring (key.drop p))

/-! ## The table -/

/-- The table while it is filled; `nitems` is the number of its rows. -/
structure Table where
  /-- the number of rows in the block `items`, `none` for a null pointer -/
  allocated : Option ℕ
  items : List Item
  capacity : ℤ
  deriving DecidableEq, Repr

/-- The rows in a block of `size` bytes, if it can be allocated. -/
def allocate (size : ℕ) : Option ℕ := if size < 2 ^ 63 then some (size / sizeofItem) else none

/-- The table at the beginning (lines 25 and 33–34). -/
def Table.new : Table := ⟨allocate (sizeT (16 * sizeofItem)), [], 16⟩

/-- Lines 48–53: a row has been added, and the table is doubled if it is full. -/
def Table.grow (t : Table) : Table :=
  if (t.items.length : ℤ) = t.capacity then
    let capacity := int32 (t.capacity * 2)
    { t with capacity := capacity, allocated := allocate (sizeT (capacity * sizeofItem)) }
  else t

/-- One iteration of the loop (lines 35–53); `fgets` has written `key`. -/
def addRow (openResults : OpenResults) (key : List Byte) (t : Table) : Except Stop Table :=
  match t.allocated with
  | none => .error (.fault .nullPointer)
  | some n =>
    if n ≤ t.items.length then .error (.fault .overflow)
    else
      match splitRow key with
      | .error f => .error (.fault f)
      -- `open(NULL, …)` fails
      | .ok (_, none) => .error .exit
      | .ok (key, some path) =>
        let fildes := openResults t.items.length path
        if 0 > fildes then .error .exit
        else .ok (Table.grow { t with items := t.items ++ [⟨fildes, key⟩] })

theorem takeLine_length (n : ℕ) (file : List Byte) :
    (takeLine n file).2.length ≤ file.length := by
  induction n generalizing file with
  | zero => exact Nat.le_refl _
  | succ n ih =>
    cases file with
    | nil => exact Nat.le_refl _
    | cons x file =>
      unfold takeLine
      split_ifs
      · exact Nat.le_succ _
      · exact (ih file).trans (Nat.le_succ _)

theorem fgets_length {file key rest : List Byte} (h : fgets MAX_KEYLEN file = some (key, rest)) :
    rest.length < file.length := by
  cases file with
  | nil => cases h
  | cons x file =>
    cases h
    show (takeLine (254 + 1) (x :: file)).2.length < _
    unfold takeLine
    split_ifs
    · exact Nat.lt_succ_self _
    · exact Nat.lt_succ_of_le (takeLine_length 254 file)

/-- The loop of `content_init`. -/
def addRows (openResults : OpenResults) (file : List Byte) (t : Table) : Except Stop Table :=
  match _h : fgets MAX_KEYLEN file with
  | none => .ok t
  | some (key, rest) => do
    let t ← addRow openResults key t
    addRows openResults rest t
termination_by file.length
decreasing_by exact fgets_length _h

/-- `content_init` (lines 22–61); `none` for a file that cannot be opened. -/
def contentInit (openResults : OpenResults) (qsort : List Item → List Item)
    (file : Option (List Byte)) : Except Stop Table :=
  match file with
  | none => .error .exit
  | some file => do
    let t ← addRows openResults file Table.new
    match t.allocated with
    | none => .error (.fault .nullPointer)
    | some _ => return { t with items := qsort t.items }

/-! ## Lookup -/

/-- The loop of `content_get` (lines 67–77). A row that has not been filled is not read; `lo` and
    `hi` stay between -1 and `nitems`, so there is no overflow. -/
def contentGetLoop (items : List Item) (key : List Byte) (lo hi : ℤ) : Except Fault ℤ :=
  if lo ≤ hi then
    let mid := lo + (hi - lo) / 2
    if mid < 0 then .error .wildPointer
    else
      match items[mid.toNat]? with
      | none => .error .wildPointer
      | some item =>
        let cmp := strcmp key (cstring item.key)
        if cmp < 0 then contentGetLoop items key lo (mid - 1)
        else if cmp > 0 then contentGetLoop items key (mid + 1) hi
        else .ok item.fildes
  else .ok (-1)
termination_by (hi + 1 - lo).toNat
decreasing_by all_goals omega

/-- `content_get` (lines 63–79). -/
def contentGet (t : Table) (key : List Byte) : Except Fault ℤ :=
  contentGetLoop t.items key 0 (t.items.length - 1)

end IntroOS.Content
