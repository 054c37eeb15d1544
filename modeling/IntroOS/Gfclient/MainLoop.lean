import IntroOS.Gfclient.Download
import IntroOS.Gfclient.OpenFile

/-!
# The main loop of the sequential client

Model of the loop of `main` in `pr1/gflib/gfclient_download.c` (lines 132–175): the rounds in their
order, with the files that they leave behind.

* What `workload_get_path`, `fopen` and the peer do in each round is an argument (`Round`).
* A file is known by its directory and its name there, so that two spellings of a path are one file.
  There are no links from one file to another. The directories are those of `OpenFile`.
* `openFile`, the test of the length and a `connect` that fails end the process; the files of
  earlier rounds stay. `fwrite` and `unlink` succeed.

Main results:

* `mainLoop_spec`: each round that opens its file decides what is in it, for good, and no other file
  is touched.
-/

namespace IntroOS.Gfclient

open CString
open Mtgf (printf06d zeroPad)

/-! ## Model -/

/-- What a round of the loop meets. -/
structure Round where
  /-- what `workload_get_path` returns -/
  req_path : PathString
  /-- whether `fopen` succeeds in `openFile`, and what it returns then -/
  fopens : Bool
  file : VoidPtr
  /-- the memory that `gfc_create` gets -/
  junk : Gfcrequest
  /-- whether `gfc_perform` gets as far as its first `send`: otherwise `socket`, `gethostbyname` or
      `connect` has failed, and it has called `exit` -/
  connects : Bool
  recvs : Recvs

/-- A path up to its last slash; `.` if there is none. -/
def directoryPart (path : List Byte) : List Byte :=
  if 47 ∈ path then path.rdropWhile (· ≠ 47) else ascii "."

/-- What is behind the last slash of a path. -/
def lastName (path : List Byte) : List Byte := path.rtakeWhile (· ≠ 47)

/-- The file that a path names: its directory, and its name there. -/
def Naming.file {Dir : Type} (names : Naming Dir) (path : List Byte) : Dir × List Byte :=
  (names.resolve (directoryPart path), lastName path)

/-- The contents of the files. -/
abbrev Files (Dir : Type) := Dir × List Byte → Option (List Byte)

theorem zero_not_mem_zeroPad (width n : ℕ) : (0 : Byte) ∉ zeroPad width (decimal n) := fun h =>
  absurd (Mtgf.isDigit_of_mem_zeroPad h) (by decide)

theorem zero_not_mem_printf06d (x : ℤ) : (0 : Byte) ∉ printf06d x := by
  unfold printf06d
  split_ifs
  · exact zero_not_mem_zeroPad 6 _
  · exact List.not_mem_cons_of_ne_of_not_mem (by decide) (zero_not_mem_zeroPad 5 _)

theorem localPath_ne_nil (req_path : PathString) (counter : ℤ) :
    (localPath req_path counter).1 ≠ [] := by
  show req_path.bytes.tail ++ ascii "-" ++ _ ≠ []
  simp [ascii]

theorem zero_not_mem_localPath (req_path : PathString) (counter : ℤ) :
    (0 : Byte) ∉ (localPath req_path counter).1 := by
  show (0 : Byte) ∉ req_path.bytes.tail ++ ascii "-" ++ printf06d counter
  rw [List.mem_append, List.mem_append, not_or, not_or]
  refine ⟨⟨?_, by decide⟩, zero_not_mem_printf06d counter⟩
  exact fun h => req_path.noNul (List.mem_of_mem_tail h)

/-- `local_path` behind `localPath(req_path, local_path)`. -/
def localName (req_path : PathString) (counter : ℤ) : PathString :=
  ⟨(localPath req_path counter).1, localPath_ne_nil req_path counter,
    zero_not_mem_localPath req_path counter⟩

variable {Dir : Type} [DecidableEq Dir]

/-- The rounds of the loop from the value `counter` of the counter of `localPath`: the files, and
    whether `exit` has been called. -/
def mainLoop (names : Naming Dir) (server : List Byte) (port : ℕ) :
    List Round → ℤ → List Dir → Files Dir → Except Fault (Files Dir × Bool)
  | [], _, _, files => .ok (files, false)
  | r :: rounds, counter, dirs, files =>
    if 256 < r.req_path.bytes.length then .ok (files, true)
    else
      let local_path := localName r.req_path counter
      match openFile names r.fopens local_path dirs with
      | .error (.fault f) => .error f
      | .error .exit => .ok (files, true)
      | .ok opened =>
        -- `fopen` has made the file, or has left nothing in it
        let files := Function.update files (names.file local_path.bytes) (some [])
        if r.connects then
          match request r.junk (downloadConfig server r.req_path.bytes port r.file) r.recvs with
          | .error f => .error f
          | .ok (o, log) =>
            mainLoop names server port rounds (localPath r.req_path counter).2 opened.dirs
              (Function.update files (names.file local_path.bytes) (localFile r.file o log))
        else .ok (files, true)

/-! ## The files of the rounds -/

section Names

variable {x : List Byte} {path path' : List Byte} {k k' : ℕ}

theorem lastName_append (hx : (47 : Byte) ∉ x) (u : List Byte) :
    lastName (u ++ x) = lastName u ++ x := by
  have hall : ∀ y ∈ x.reverse, decide (y ≠ 47) = true := fun y hy =>
    decide_eq_true (ne_of_mem_of_not_mem (List.mem_reverse.mp hy) hx)
  rw [lastName, lastName, List.rtakeWhile, List.rtakeWhile, List.reverse_append,
    List.takeWhile_append_of_pos hall, List.reverse_append, List.reverse_reverse]

/-- The number of a round is in the last part of its path. -/
theorem lastName_localPath (path : List Byte) (k : ℕ) :
    lastName (Mtgf.localPath path k) = Mtgf.localPath (47 :: lastName path.tail) k := by
  have hx : (47 : Byte) ∉ ascii "-" ++ printf06d k := by
    rw [List.mem_append, not_or]
    exact ⟨by decide, Mtgf.not_mem_printf06d (by decide) k⟩
  rw [Mtgf.localPath, List.append_assoc, lastName_append hx, Mtgf.localPath, List.tail_cons,
    List.append_assoc]

end Names

variable {names : Naming Dir} {server : List Byte} {port : ℕ} {r : Round} {rounds : List Round}
  {dirs : List Dir} {files files' : Files Dir} {exited : Bool}

/-- The file of round `k`. -/
def Round.target (names : Naming Dir) (r : Round) (k : ℕ) : Dir × List Byte :=
  names.file (Mtgf.localPath r.req_path.bytes k)

omit [DecidableEq Dir] in
/-- Rounds with different numbers have different files, in whatever directories. -/
theorem Round.target_ne {r r' : Round} {k k' : ℕ} (h : k ≠ k') :
    r.target names k ≠ r'.target names k' := by
  intro heq
  have hname : lastName (Mtgf.localPath r.req_path.bytes k) =
      lastName (Mtgf.localPath r'.req_path.bytes k') := congrArg Prod.snd heq
  rw [lastName_localPath, lastName_localPath] at hname
  exact h (Mtgf.localPath_inj hname).2

/-- Directories by their paths, in which slashes at the end do not count. -/
def slashNames : Naming (List Byte) := ⟨fun path => path.rdropWhile (· = 47), fun _ _ => false⟩

example : slashNames.file (ascii "x//a-000000") = slashNames.file (ascii "x/a-000000") := by
  decide +kernel

/-! ## A run -/

/-- What a round leaves in its file: what its request makes of the answer, or nothing at all if it
    gets no connection. -/
def Round.Leaves (server : List Byte) (port : ℕ) (r : Round) (content : Option (List Byte)) : Prop :=
  if r.connects then
    ∃ o log, request r.junk (downloadConfig server r.req_path.bytes port r.file) r.recvs =
      .ok (o, log) ∧ localFile r.file o log = content
  else content = some []

/-- A round ends the process without a file, or it leaves its file, and the others go on unless it
    has got no connection. -/
theorem mainLoop_cons {k : ℕ} (hk : k + 1 < 2 ^ 31)
    (h : mainLoop names server port (r :: rounds) k dirs files = .ok (files', exited)) :
    files' = files ∧ exited = true ∨
      ∃ content dirs', r.Leaves server port content ∧
        (r.connects = false ∧ exited = true ∧
            files' = Function.update files (r.target names k) content ∨
          r.connects = true ∧ mainLoop names server port rounds ((k + 1 : ℕ) : ℤ) dirs'
            (Function.update files (r.target names k) content) = .ok (files', exited)) := by
  rw [mainLoop] at h
  by_cases hlong : 256 < r.req_path.bytes.length
  · rw [if_pos hlong] at h
    cases h
    exact .inl ⟨rfl, rfl⟩
  · rw [if_neg hlong] at h
    dsimp only at h
    cases hopen : openFile names r.fopens (localName r.req_path k) dirs with
    | error stop =>
      rw [hopen] at h
      cases stop with
      | fault f => cases h
      | exit =>
        cases h
        exact .inl ⟨rfl, rfl⟩
    | ok opened =>
      rw [hopen] at h
      dsimp only at h
      right
      cases hconnects : r.connects with
      | false =>
        rw [hconnects, if_neg Bool.false_ne_true] at h
        cases h
        refine ⟨some [], opened.dirs, ?_, .inl ⟨rfl, rfl, rfl⟩⟩
        rw [Round.Leaves, hconnects, if_neg Bool.false_ne_true]
      | true =>
        rw [hconnects, if_pos rfl] at h
        cases hreq : request r.junk (downloadConfig server r.req_path.bytes port r.file) r.recvs with
        | error f =>
          rw [hreq] at h
          cases h
        | ok result =>
          obtain ⟨o, log⟩ := result
          rw [hreq] at h
          have hcounter : (localPath r.req_path (k : ℤ)).2 = ((k + 1 : ℕ) : ℤ) :=
            int32_natCast hk
          dsimp only at h
          rw [hcounter, Function.update_idem] at h
          refine ⟨localFile r.file o log, opened.dirs, ?_, .inr ⟨rfl, h⟩⟩
          rw [Round.Leaves, hconnects, if_pos rfl]
          exact ⟨o, log, hreq, rfl⟩

/-- The first `made` rounds have opened their files, and all of them unless the process has ended.
    In each of these files there is what its round has left; nothing else has changed. A round
    without a connection is the last one. -/
theorem mainLoop_spec {k : ℕ} (hlt : k + rounds.length < 2 ^ 31)
    (h : mainLoop names server port rounds k dirs files = .ok (files', exited)) :
    ∃ made ≤ rounds.length, (exited = false → made = rounds.length) ∧
      (∀ i r, i < made → rounds[i]? = some r →
        r.Leaves server port (files' (r.target names (k + i))) ∧
          (r.connects = false → i + 1 = made ∧ exited = true)) ∧
      ∀ file, (∀ i r, i < made → rounds[i]? = some r → file ≠ r.target names (k + i)) →
        files' file = files file := by
  induction rounds generalizing k dirs files with
  | nil =>
    cases h
    exact ⟨0, Nat.le_refl 0, fun _ => rfl, fun _ _ hi => absurd hi (Nat.not_lt_zero _),
      fun _ _ => rfl⟩
  | cons r rounds ih =>
    rw [List.length_cons] at hlt
    obtain ⟨rfl, rfl⟩ | ⟨content, dirs', hleaves, ⟨hconnects, rfl, rfl⟩ | ⟨hconnects, hrest⟩⟩ :=
      mainLoop_cons (by omega) h
    · exact ⟨0, Nat.zero_le _, fun hno => absurd hno Bool.true_eq_false.mp,
        fun _ _ hi => absurd hi (Nat.not_lt_zero _), fun _ _ => rfl⟩
    · refine ⟨1, Nat.succ_le_succ (Nat.zero_le _), fun hno => absurd hno Bool.true_eq_false.mp,
        ?_, ?_⟩
      · intro i r' hi hr'
        obtain rfl := Nat.lt_one_iff.mp hi
        obtain rfl : r = r' := Option.some.inj hr'
        rw [Nat.add_zero, Function.update_self]
        exact ⟨hleaves, fun _ => ⟨rfl, rfl⟩⟩
      · intro file hfile
        exact Function.update_of_ne (hfile 0 r Nat.zero_lt_one rfl) ..
    · obtain ⟨made, hle, hall, hmade, hother⟩ := ih (by omega) hrest
      refine ⟨made + 1, Nat.succ_le_succ hle, fun hno => congrArg _ (hall hno), ?_, ?_⟩
      · intro i r' hi hr'
        cases i with
        | zero =>
          obtain rfl : r = r' := Option.some.inj hr'
          have hkeep : files' (r.target names (k + 0)) = content := by
            rw [hother _ fun j r'' _ _ => Round.target_ne (by omega)]
            exact Function.update_self ..
          rw [hkeep]
          exact ⟨hleaves, fun hno => absurd (hno.symm.trans hconnects) Bool.false_ne_true⟩
        | succ i =>
          have hnumber : k + (i + 1) = k + 1 + i := by omega
          rw [hnumber]
          obtain ⟨hleaves', hlast⟩ := hmade i r' (by omega) hr'
          exact ⟨hleaves', fun hno => (hlast hno).imp_left (congrArg (· + 1))⟩
      · intro file hfile
        have hne : file ≠ r.target names k := hfile 0 r (Nat.succ_pos made) rfl
        rw [hother file ?_, Function.update_of_ne hne]
        intro i r' hi hr'
        have hnumber : k + 1 + i = k + (i + 1) := by omega
        rw [hnumber]
        exact hfile (i + 1) r' (by omega) hr'

end IntroOS.Gfclient
