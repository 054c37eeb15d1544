import IntroOS.Mtgf.Workload

/-!
# The names of the local files

The sequential client (`pr1/gflib/gfclient_download.c`, lines 137–147) names the local file of a
request by the path and a counter. `localPath` is the same text as in `mtgf`; here nothing comes
between the read and the write of `counter`. Each round of the loop but those that end the process
makes one name; the requests themselves are not modelled here.

Main results:

* `recoverName_localPath`: the path and the counter can be read off a name.
* `localPath_fits`: no name is too long for the buffer of `main`.
* `local_names_injective`: the names of fewer than `2^31` requests are different, and each tells
  its request.
-/

namespace IntroOS.Gfclient

open CString
open Mtgf (printf06d printf06d_natCast zeroPad digitsValue_zeroPad dash_not_mem_printf06d)

/-! ## Model -/

/-- A C string that is not empty: what `workload_get_path` returns, or a name. -/
structure PathString where
  bytes : List Byte
  ne_nil : bytes ≠ []
  noNul : (0 : Byte) ∉ bytes

/-- `localPath` (lines 39–43): the name, and `counter` after it. -/
def localPath (req_path : PathString) (counter : ℤ) : List Byte × ℤ :=
  (Mtgf.localPath req_path.bytes counter, int32 (counter + 1))

/-- The names that the loop of `main` makes (lines 137–147) of the paths of its rounds. -/
def nameLoop : List PathString → ℤ → List (List Byte)
  | [], _ => []
  | req_path :: paths, counter =>
    -- `exit(EXIT_FAILURE)`
    if 256 < req_path.bytes.length then []
    else
      let r := localPath req_path counter
      r.1 :: nameLoop paths r.2

/-! ## Reading a name -/

/-- The counter and the path without its first character, from a name: what is behind and in
    front of the last `-`. -/
def recoverName (name : List Byte) : ℕ × List Byte :=
  (digitsValue (name.reverse.takeWhile (· != 45)).reverse,
    (name.reverse.dropWhile (· != 45)).tail.reverse)

section Names

variable {paths : List PathString} {name : List Byte}

/-- A list up to the last `d`, and behind it. -/
theorem takeWhile_reverse_last {d : Byte} (a : List Byte) {x : List Byte} (hx : d ∉ x) :
    (a ++ d :: x).reverse.takeWhile (· != d) = x.reverse ∧
      (a ++ d :: x).reverse.dropWhile (· != d) = d :: a.reverse := by
  have hall : ∀ y ∈ x.reverse, (y != d) = true := fun y hy =>
    bne_iff_ne.mpr (ne_of_mem_of_not_mem (List.mem_reverse.mp hy) hx)
  have hrev : (a ++ d :: x).reverse = x.reverse ++ d :: a.reverse := by simp
  rw [hrev, List.takeWhile_append_of_pos hall, List.dropWhile_append_of_pos hall,
    List.takeWhile_cons_of_neg (by simp), List.dropWhile_cons_of_neg (by simp), List.append_nil]
  exact ⟨rfl, rfl⟩

theorem digitsValue_printf06d (k : ℕ) : digitsValue (printf06d k) = k := by
  rw [printf06d_natCast, digitsValue_zeroPad, digitsValue_decimal]

/-- The path and the counter can be read off a name, whatever the path is and however many digits
    the counter has. -/
theorem recoverName_localPath (path : List Byte) (k : ℕ) :
    recoverName (Mtgf.localPath path k) = (k, path.tail) := by
  have hname : Mtgf.localPath path k = path.tail ++ 45 :: printf06d k := by
    rw [Mtgf.localPath, List.append_assoc]
    rfl
  obtain ⟨htake, hdrop⟩ := takeWhile_reverse_last path.tail (dash_not_mem_printf06d k)
  rw [recoverName, hname, htake, hdrop, List.reverse_reverse, List.tail_cons, List.reverse_reverse,
    digitsValue_printf06d]

/-- `local_path[512]` has room for the name of a path that `main` does not reject. -/
theorem localPath_fits (req_path : PathString) (h : req_path.bytes.length ≤ 256) (k : ℕ)
    (hk : k < 2 ^ 31) : (localPath req_path k).1.length < 512 := by
  have hdigits := decimal_length_le (hk.trans (by decide) : k < 2 ^ 64)
  have hdash : (ascii "-").length = 1 := rfl
  simp only [localPath, Mtgf.localPath, printf06d_natCast, zeroPad, List.length_append,
    List.length_tail, List.length_replicate, hdash]
  omega

/-- The name of a request, by its number. -/
theorem nameLoop_getElem {k j : ℕ} (hlt : k + paths.length < 2 ^ 31)
    (h : (nameLoop paths k)[j]? = some name) :
    ∃ p, paths[j]? = some p ∧ name = Mtgf.localPath p.bytes ((k + j : ℕ) : ℤ) := by
  induction paths generalizing k j with
  | nil => cases h
  | cons p paths ih =>
    rw [List.length_cons] at hlt
    unfold nameLoop at h
    split_ifs at h with hlong
    · cases h
    · cases j with
      | zero => exact ⟨p, rfl, (Option.some.inj h).symm⟩
      | succ j =>
        have hcounter : int32 ((k : ℤ) + 1) = ((k + 1 : ℕ) : ℤ) :=
          int32_natCast (by omega : k + 1 < 2 ^ 31)
        simp only [localPath, hcounter, List.getElem?_cons_succ] at h
        obtain ⟨p', hp', hname⟩ := ih (by omega) h
        exact ⟨p', hp', by rw [hname, Nat.add_assoc, Nat.add_comm 1 j]⟩

end Names

/-- The names of fewer than `2^31` requests are all different, and from each of them the number
    and the path of its request can be read. -/
theorem local_names_injective (paths : List PathString) (hlt : paths.length < 2 ^ 31) :
    (nameLoop paths 0).Nodup ∧ ∀ j name, (nameLoop paths 0)[j]? = some name →
      ∃ p, paths[j]? = some p ∧ recoverName name = (j, p.bytes.tail) := by
  have hrecover : ∀ j name, (nameLoop paths 0)[j]? = some name →
      ∃ p, paths[j]? = some p ∧ recoverName name = (j, p.bytes.tail) := by
    intro j name h
    obtain ⟨p, hp, hname⟩ := @nameLoop_getElem paths name 0 j (by omega) h
    refine ⟨p, hp, ?_⟩
    rw [hname, Nat.zero_add]
    exact recoverName_localPath p.bytes j
  refine ⟨List.nodup_iff_getElem?_ne_getElem?.mpr fun i j hij hj heq => ?_, hrecover⟩
  have hname := List.getElem?_eq_getElem hj
  obtain ⟨p, -, hi⟩ := hrecover i _ (heq.trans hname)
  obtain ⟨p', -, hj'⟩ := hrecover j _ hname
  have hnumber : i = j := congrArg Prod.fst (hi.symm.trans hj')
  omega

/-- A path that looks like the name of another request. -/
theorem local_names_injective_two :
    nameLoop [⟨ascii "/a", by decide, by decide⟩, ⟨ascii "/a-000000", by decide, by decide⟩] 0 =
        [ascii "a-000000", ascii "a-000000-000001"] ∧
      [ascii "a-000000", ascii "a-000000-000001"].Nodup := by
  have hnames : nameLoop [⟨ascii "/a", by decide, by decide⟩,
      ⟨ascii "/a-000000", by decide, by decide⟩] 0 =
        [ascii "a-000000", ascii "a-000000-000001"] := by decide +kernel
  exact ⟨hnames, hnames ▸ (local_names_injective [⟨ascii "/a", by decide, by decide⟩,
    ⟨ascii "/a-000000", by decide, by decide⟩] (by decide)).1⟩

end IntroOS.Gfclient
