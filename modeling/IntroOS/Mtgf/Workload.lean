import IntroOS.Concurrency.System
import IntroOS.CString.Number

/-!
# The work of the client threads

Model of `pr1/mtgf/workload.c` and of the threads of `pr1/mtgf/gfclient_download.c`
(`gfcallback`, lines 91–148), next to the loop of `pr1/mtgf/copy/gfclient_download.c`, which
makes its requests one after the other.

* `workload_get_path` is one step. `mode` is `WORKLOAD_SEQ`: nothing sets it.
* In `localPath` the read and the write of `counter` are two steps.
* What the rest of an iteration does is one step, or it ends the process.

Main results:

* `threads_do_same_work`: the threads request what the loop requests, in the same order, and
  each entry of the workload as often as any other, up to one.
* `local_paths_differ`: the names of the local files are different in the runs in which no
  thread reads the counter between the read and the write of another one.
* `overlap_repeats`: any other read, for the same path, leads to the same name twice.
-/

namespace IntroOS.Mtgf

open CString Concurrency

/-! ## The workload -/

/-- `gWorkloadPathArray` with `gUniqueWorkloadPaths` strings that `%s` has read. -/
structure Workload where
  paths : List (List Byte)
  le : paths.length ≤ 100
  ne_nil : ∀ path ∈ paths, path ≠ []

/-- `workload_get_path` (lines 43–53): the index and the path, and `counter` after it; none if
    the index is not one of the array, or the division fails. -/
def Workload.getPath (w : Workload) (counter : ℤ) : Option (ℕ × List Byte) × ℤ :=
  let entry := counter
  let index := entry.tmod w.paths.length
  (if index < 0 then none else w.paths[index.toNat]?.map fun path => (index.toNat, path),
    int32 (counter + 1))

/-- The requests of the loop of `main` in `copy/gfclient_download.c` (lines 132–174), which
    makes `k` of them. -/
def sequentialRequests (w : Workload) : ℕ → ℤ → List (ℕ × List Byte)
  | 0, _ => []
  | k + 1, counter =>
    match w.getPath counter with
    | (none, _) => []
    | (some request, counter) => request :: sequentialRequests w k counter

/-! ## The local path -/

/-- `s` with zeros in front, up to the width `width`. -/
def zeroPad (width : ℕ) (s : List Byte) : List Byte := List.replicate (width - s.length) 48 ++ s

/-- What `%06d` prints. -/
def printf06d (x : ℤ) : List Byte :=
  if 0 ≤ x then zeroPad 6 (decimal x.toNat) else 45 :: zeroPad 5 (decimal (-x).toNat)

/-- `sprintf(local_path, "%s-%06d", &req_path[1], counter)` (line 53). -/
def localPath (req_path : List Byte) (counter : ℤ) : List Byte :=
  req_path.tail ++ ascii "-" ++ printf06d counter

/-! ## The threads -/

/-- What a thread does next. -/
inductive ClientPc
  /-- `j < mtagu->nrequest` and `workload_get_path()` (lines 97–105) -/
  | loop
  /-- `counter++` in `localPath` reads `counter` -/
  | readCounter (req_path : List Byte)
  /-- and writes it -/
  | writeCounter (req_path : List Byte) (counter : ℤ)
  /-- lines 115–145 -/
  | download (local_path : List Byte)
  | done
  deriving DecidableEq

/-- The thread has begun an iteration and not ended it. -/
def ClientPc.busy : ClientPc → ℕ
  | loop | done => 0
  | _ => 1

/-- The thread has the name of the local file. -/
def ClientPc.named : ClientPc → ℕ
  | download _ => 1
  | _ => 0

/-- The thread is between the read and the write of the counter. -/
def ClientPc.between : ClientPc → Bool
  | writeCounter _ _ => true
  | _ => false

/-- A thread with its loop variable. -/
structure ClientThread where
  j : ℕ
  pc : ClientPc

/-- The state of the process with `t` threads. What `workload_get_path` has returned and the
    names that `localPath` has made are recorded in order. -/
structure Downloads (t : ℕ) where
  workCounter : ℤ
  localCounter : ℤ
  threads : Fin t → ClientThread
  requests : List (ℕ × List Byte)
  names : List (List Byte)
  exited : Bool

/-- A step of a thread, or the end of the process in its download. -/
inductive DownloadAct (t : ℕ)
  | thread (i : Fin t)
  | exit (i : Fin t)

namespace Downloads

variable {t : ℕ}

def goto (s : Downloads t) (i : Fin t) (th : ClientThread) : Downloads t :=
  { s with threads := Function.update s.threads i th }

/-- The next step of thread `i`; each makes `n` requests. -/
def threadStep (w : Workload) (n : ℕ) (i : Fin t) (s : Downloads t) : Option (Downloads t) :=
  let th := s.threads i
  match th.pc with
  | .loop =>
    if th.j < n then
      match w.getPath s.workCounter with
      | (none, _) => some { s with exited := true }
      | (some request, counter) =>
        let s := { s with workCounter := counter, requests := s.requests ++ [request] }
        if 256 < request.2.length then some { s with exited := true }
        else some (s.goto i { th with pc := .readCounter request.2 })
    else some (s.goto i { th with pc := .done })
  | .readCounter req_path => some (s.goto i { th with pc := .writeCounter req_path s.localCounter })
  | .writeCounter req_path counter =>
    let local_path := localPath req_path counter
    some { s.goto i { th with pc := .download local_path } with
      localCounter := int32 (counter + 1), names := s.names ++ [local_path] }
  | .download _ => some (s.goto i ⟨th.j + 1, .loop⟩)
  | .done => none

/-- Lines 115–145 end the process. -/
def exitStep (i : Fin t) (s : Downloads t) : Option (Downloads t) :=
  match (s.threads i).pc with
  | .download _ => some { s with exited := true }
  | _ => none

def step (w : Workload) (n : ℕ) (a : DownloadAct t) (s : Downloads t) : Option (Downloads t) :=
  if s.exited then none
  else match a with
    | .thread i => s.threadStep w n i
    | .exit i => s.exitStep i

/-- All threads have been joined. -/
def Joined (s : Downloads t) : Prop := ∀ i, (s.threads i).pc = .done

/-- A thread reads the counter only if no other one is between the read and the write. -/
def alone (a : DownloadAct t) (s : Downloads t) : Bool :=
  match a with
  | .thread i =>
    match (s.threads i).pc with
    | .readCounter _ => decide (∀ j, (s.threads j).pc.between = false)
    | _ => true
  | .exit _ => true

end Downloads

/-- The process with `t` threads, each of which makes `n` requests. -/
def downloads (w : Workload) (t n : ℕ) : System (Downloads t) (DownloadAct t) where
  init := ⟨0, 0, fun _ => ⟨0, .loop⟩, [], [], false⟩
  step := Downloads.step w n

/-! ## The entries of the workload -/

section Entries

variable {w : Workload} {k n : ℕ}

/-- The `k`-th request: index and path. -/
def Workload.request (w : Workload) (k : ℕ) : ℕ × List Byte :=
  (k % w.paths.length, w.paths.getD (k % w.paths.length) [])

theorem getPath_natCast (hw : w.paths ≠ []) (hk : k + 1 < 2 ^ 31) :
    w.getPath k = (some (w.request k), ((k + 1 : ℕ) : ℤ)) := by
  have hlt : k % w.paths.length < w.paths.length := Nat.mod_lt _ (List.length_pos_of_ne_nil hw)
  have hindex : (k : ℤ).tmod w.paths.length = ((k % w.paths.length : ℕ) : ℤ) :=
    (Int.ofNat_tmod k w.paths.length).symm
  have hcounter : int32 ((k : ℤ) + 1) = ((k + 1 : ℕ) : ℤ) := by
    exact_mod_cast int32_natCast hk
  simp only [Workload.getPath, hindex, hcounter, Int.toNat_natCast]
  rw [if_neg (by omega), List.getElem?_eq_getElem hlt]
  simp [Workload.request, hlt]

theorem sequentialRequests_eq (hw : w.paths ≠ []) (h : k + n < 2 ^ 31) :
    sequentialRequests w n k = (List.range n).map fun j => w.request (k + j) := by
  induction n generalizing k with
  | zero => rfl
  | succ n ih =>
    rw [sequentialRequests, getPath_natCast hw (by omega), List.range_succ_eq_map]
    simp only [List.map_cons, List.map_map, Nat.add_zero]
    rw [ih (by omega)]
    refine congrArg _ (List.map_congr_left fun j _ => ?_)
    rw [Function.comp, Nat.succ_eq_add_one, Nat.add_right_comm, Nat.add_assoc]

/-- Each index is among the first `n` requests equally often, up to one. -/
theorem count_request (hw : w.paths ≠ []) {r : ℕ} (hr : r < w.paths.length) :
    ((List.range n).map w.request).countP (·.1 = r) = n / w.paths.length ∨
      ((List.range n).map w.request).countP (·.1 = r) =
        (n + w.paths.length - 1) / w.paths.length := by
  have hpos := List.length_pos_of_ne_nil hw
  have hcount : ((List.range n).map w.request).countP (·.1 = r) =
      Nat.count (· ≡ r [MOD w.paths.length]) n := by
    rw [List.countP_map, Nat.count]
    refine List.countP_congr fun k _ => ?_
    simp [Workload.request, Nat.ModEq, Nat.mod_eq_of_lt hr]
  rw [hcount, Nat.count_modEq_card _ hpos, Nat.mod_eq_of_lt hr]
  have hdiv := Nat.div_add_mod n w.paths.length
  split_ifs with hlt
  · right
    have hmod := Nat.mod_lt n hpos
    rw [eq_comm, Nat.div_eq_iff hpos]
    rw [Nat.add_mul, Nat.mul_comm]
    omega
  · exact Or.inl (Nat.add_zero _)

end Entries

/-! ## The names of the local files -/

section Names

theorem digitsValue_zeroPad (width : ℕ) (s : List Byte) :
    digitsValue (zeroPad width s) = digitsValue s := by
  unfold zeroPad digitsValue
  rw [List.foldl_append]
  congr 1
  induction width - s.length with
  | zero => rfl
  | succ k ih => exact ih

theorem printf06d_natCast (k : ℕ) : printf06d k = zeroPad 6 (decimal k) := by
  rw [printf06d, if_pos (Int.natCast_nonneg k), Int.toNat_natCast]

/-- The zeros in front of a number are digits too. -/
theorem isDigit_of_mem_zeroPad {width n : ℕ} {c : Byte} (h : c ∈ zeroPad width (decimal n)) :
    isDigit c = true := by
  rw [zeroPad, List.mem_append] at h
  rcases h with h | h
  · rw [List.eq_of_mem_replicate h]
    decide
  · exact isDigit_of_mem_decimal h

theorem not_mem_printf06d {c : Byte} (hc : isDigit c = false) (k : ℕ) : c ∉ printf06d k := by
  rw [printf06d_natCast]
  intro h
  rw [isDigit_of_mem_zeroPad h] at hc
  cases hc

theorem dash_not_mem_printf06d (k : ℕ) : (45 : Byte) ∉ printf06d k := not_mem_printf06d (by decide) k

/-- The parts of a list in front of and behind the last `d`. -/
theorem split_at_last {d : Byte} {a b x y : List Byte} (hx : d ∉ x) (hy : d ∉ y)
    (h : a ++ d :: x = b ++ d :: y) : a = b ∧ x = y := by
  rcases List.append_eq_append_iff.mp h with ⟨m, rfl, hm⟩ | ⟨m, rfl, hm⟩
  · cases m with
    | nil => exact ⟨(List.append_nil a).symm, (List.cons.inj hm).2⟩
    | cons c m =>
      obtain ⟨-, rfl⟩ := List.cons.inj hm
      exact absurd (by simp) hx
  · cases m with
    | nil => exact ⟨List.append_nil b, (List.cons.inj hm).2.symm⟩
    | cons c m =>
      obtain ⟨-, rfl⟩ := List.cons.inj hm
      exact absurd (by simp) hy

/-- Different values of the counter give different names. -/
theorem localPath_inj {path path' : List Byte} {k k' : ℕ}
    (h : localPath path k = localPath path' k') : path.tail = path'.tail ∧ k = k' := by
  have hdash : ascii "-" = [45] := by decide
  simp only [localPath, hdash, List.append_assoc, List.cons_append, List.nil_append] at h
  obtain ⟨hpath, hk⟩ := split_at_last (dash_not_mem_printf06d k) (dash_not_mem_printf06d k') h
  have hvalue := congrArg digitsValue hk
  rw [printf06d_natCast, printf06d_natCast, digitsValue_zeroPad, digitsValue_zeroPad,
    digitsValue_decimal, digitsValue_decimal] at hvalue
  exact ⟨hpath, hvalue⟩

end Names

/-! ## What a step does -/

namespace Downloads

variable {w : Workload} {t n : ℕ} {s s' : Downloads t} {a : DownloadAct t}

/-- The steps of the process. -/
inductive Moves (w : Workload) (n : ℕ) (s : Downloads t) : DownloadAct t → Downloads t → Prop
  | finish {i : Fin t} {j : ℕ} (hth : s.threads i = ⟨j, .loop⟩) (hj : n ≤ j) :
      Moves w n s (.thread i) (s.goto i ⟨j, .done⟩)
  | request {i : Fin t} {j : ℕ} {r : ℕ × List Byte} {counter : ℤ}
      (hth : s.threads i = ⟨j, .loop⟩) (hj : j < n)
      (hget : w.getPath s.workCounter = (some r, counter)) :
      Moves w n s (.thread i) { s.goto i ⟨j, .readCounter r.2⟩ with
        workCounter := counter, requests := s.requests ++ [r] }
  | read {i : Fin t} {j : ℕ} {req_path : List Byte} (hth : s.threads i = ⟨j, .readCounter req_path⟩) :
      Moves w n s (.thread i) (s.goto i ⟨j, .writeCounter req_path s.localCounter⟩)
  | write {i : Fin t} {j : ℕ} {req_path : List Byte} {counter : ℤ}
      (hth : s.threads i = ⟨j, .writeCounter req_path counter⟩) :
      Moves w n s (.thread i) { s.goto i ⟨j, .download (localPath req_path counter)⟩ with
        localCounter := int32 (counter + 1), names := s.names ++ [localPath req_path counter] }
  | next {i : Fin t} {j : ℕ} {local_path : List Byte} (hth : s.threads i = ⟨j, .download local_path⟩) :
      Moves w n s (.thread i) (s.goto i ⟨j + 1, .loop⟩)
  | exit {a : DownloadAct t} {i : Fin t} {workCounter : ℤ} {requests : List (ℕ × List Byte)}
      (hpc : (s.threads i).pc ≠ .done) :
      Moves w n s a { s with workCounter := workCounter, requests := requests, exited := true }

theorem moves_of_step (h : step w n a s = some s') : s.exited = false ∧ Moves w n s a s' := by
  unfold step at h
  cases hexited : s.exited with
  | true => simp [hexited] at h
  | false =>
    rw [hexited, if_neg (by decide)] at h
    refine ⟨rfl, ?_⟩
    cases a with
    | exit i =>
      simp only [exitStep] at h
      cases hpc : (s.threads i).pc with
      | download local_path =>
        rw [hpc] at h
        cases h
        exact .exit (by rw [hpc]; exact nofun)
      | _ => rw [hpc] at h; cases h
    | thread i =>
      simp only [threadStep] at h
      rcases hth : s.threads i with ⟨j, pc⟩
      cases pc with
      | loop =>
        have hpc : (s.threads i).pc ≠ .done := by rw [hth]; exact nofun
        by_cases hj : j < n
        · simp only [hth, if_pos hj] at h
          rcases hget : w.getPath s.workCounter with ⟨_ | r, counter⟩
          · simp only [hget] at h
            cases h
            exact .exit hpc
          · simp only [hget] at h
            split_ifs at h
            · cases h
              exact .exit hpc
            · cases h
              exact .request hth hj hget
        · simp only [hth, if_neg hj] at h
          cases h
          exact .finish hth (Nat.le_of_not_lt hj)
      | readCounter req_path =>
        simp only [hth] at h
        cases h
        exact .read hth
      | writeCounter req_path counter =>
        simp only [hth] at h
        cases h
        exact .write hth
      | download local_path =>
        simp only [hth] at h
        cases h
        exact .next hth
      | done =>
        simp only [hth] at h
        cases h

/-! ## Iterations -/

/-- No thread goes beyond its `n` iterations, and one that is done has made all of them. -/
def Bounded (n : ℕ) (s : Downloads t) : Prop :=
  ∀ i, (s.threads i).j + (s.threads i).pc.busy ≤ n ∧ ((s.threads i).pc = .done → (s.threads i).j = n)

/-- How many iterations have been begun. -/
def started (s : Downloads t) : ℕ := ∑ i, ((s.threads i).j + (s.threads i).pc.busy)

/-- How many names have been made. -/
def named (s : Downloads t) : ℕ := ∑ i, ((s.threads i).j + (s.threads i).pc.named)

theorem goto_threads (s : Downloads t) (i j : Fin t) (th : ClientThread) :
    (s.goto i th).threads j = if j = i then th else s.threads j := Function.update_apply ..

theorem Bounded.goto (h : s.Bounded n) (i : Fin t) {th : ClientThread}
    (hth : th.j + th.pc.busy ≤ n) (hdone : th.pc = .done → th.j = n) : (s.goto i th).Bounded n := by
  intro j
  rw [goto_threads]
  split_ifs
  · exact ⟨hth, hdone⟩
  · exact h j

theorem Bounded.step (h : s.Bounded n) (hm : Moves w n s a s') : s'.Bounded n := by
  cases hm with
  | @finish i j hth hj =>
    have hle := (h i).1
    rw [hth] at hle
    exact h.goto i hle fun _ => Nat.le_antisymm hle hj
  | request hth hj hget => exact h.goto _ hj nofun
  | @read i j req_path hth =>
    have hle := (h i).1
    rw [hth] at hle
    exact h.goto i hle nofun
  | @write i j req_path counter hth =>
    have hle := (h i).1
    rw [hth] at hle
    exact h.goto i hle nofun
  | @next i j local_path hth =>
    have hle := (h i).1
    rw [hth] at hle
    exact h.goto i hle nofun
  | exit hpc => exact h

theorem bounded_init : ((downloads w t n).init).Bounded n := fun _ => ⟨Nat.zero_le n, nofun⟩

theorem Bounded.started_le (h : s.Bounded n) : s.started ≤ n * t := by
  have hsum := Finset.sum_le_card_nsmul Finset.univ
    (fun i => (s.threads i).j + (s.threads i).pc.busy) n fun i _ => (h i).1
  rwa [Finset.card_univ, Fintype.card_fin, smul_eq_mul, Nat.mul_comm] at hsum

theorem Bounded.named_le (h : s.Bounded n) : s.named ≤ n * t := by
  refine le_trans (Finset.sum_le_sum fun i _ => Nat.add_le_add_left ?_ _) h.started_le
  cases (s.threads i).pc <;> simp [ClientPc.named, ClientPc.busy]

theorem started_goto (s : Downloads t) (i : Fin t) (th : ClientThread) :
    (s.goto i th).started + ((s.threads i).j + (s.threads i).pc.busy) =
      s.started + (th.j + th.pc.busy) :=
  sum_update_add (fun th : ClientThread => th.j + th.pc.busy) s.threads i th

theorem named_goto (s : Downloads t) (i : Fin t) (th : ClientThread) :
    (s.goto i th).named + ((s.threads i).j + (s.threads i).pc.named) =
      s.named + (th.j + th.pc.named) :=
  sum_update_add (fun th : ClientThread => th.j + th.pc.named) s.threads i th

/-! ## The requests of the threads -/

/-- The requests are those of the first entries, and some thread is not done if the process
    has ended. -/
structure InTurn (w : Workload) (n : ℕ) (s : Downloads t) : Prop where
  bounded : s.Bounded n
  exited : s.exited = true → ∃ i, (s.threads i).pc ≠ .done
  requests : s.exited = false → s.requests = (List.range s.started).map w.request
  counter : s.exited = false → s.workCounter = s.started

/-- A step that begins no iteration. -/
theorem InTurn.goto (h : s.InTurn w n) {i : Fin t} {th : ClientThread}
    (hbounded : (s.goto i th).Bounded n) (hrunning : s.exited = false)
    (hth : th.j + th.pc.busy = (s.threads i).j + (s.threads i).pc.busy) :
    (s.goto i th).InTurn w n := by
  have hstarted : (s.goto i th).started = s.started := by
    have := s.started_goto i th
    omega
  refine ⟨hbounded, fun hexited => ?_, fun _ => ?_, fun _ => ?_⟩
  · exact absurd (hrunning.symm.trans hexited) (by decide)
  · rw [hstarted]
    exact h.requests hrunning
  · rw [hstarted]
    exact h.counter hrunning

theorem InTurn.step (hw : w.paths ≠ []) (hlt : n * t < 2 ^ 31) (h : s.InTurn w n)
    (hrunning : s.exited = false) (hm : Moves w n s a s') : s'.InTurn w n := by
  have hbounded := h.bounded.step hm
  cases hm with
  | finish hth hj => exact h.goto hbounded hrunning (by rw [hth]; rfl)
  | read hth => exact h.goto hbounded hrunning (by rw [hth]; rfl)
  | @write i j req_path counter hth =>
    have hgoto : (s.goto i ⟨j, .download (localPath req_path counter)⟩).InTurn w n :=
      h.goto hbounded hrunning (by rw [hth]; rfl)
    exact ⟨hbounded, hgoto.exited, hgoto.requests, hgoto.counter⟩
  | next hth => exact h.goto hbounded hrunning (by rw [hth]; rfl)
  | exit hpc => exact ⟨hbounded, fun _ => ⟨_, hpc⟩, nofun, nofun⟩
  | @request i j r counter hth hj hget =>
    have hstarted : (s.goto i ⟨j, .readCounter r.2⟩).started = s.started + 1 := by
      have := s.started_goto i ⟨j, .readCounter r.2⟩
      rw [hth] at this
      simp only [ClientPc.busy] at this
      omega
    have hle : s.started + 1 ≤ n * t := hstarted ▸ hbounded.started_le
    rw [h.counter hrunning, getPath_natCast hw (by omega), Prod.mk.injEq, Option.some.injEq] at hget
    obtain ⟨rfl, rfl⟩ := hget
    refine ⟨hbounded, fun hexited => ?_, fun _ => ?_, fun _ => ?_⟩
    · exact absurd (hrunning.symm.trans hexited) (by decide)
    · show s.requests ++ [w.request s.started] = (List.range (s.goto i _).started).map w.request
      rw [hstarted, List.range_succ, List.map_append, ← h.requests hrunning]
      rfl
    · show ((s.started + 1 : ℕ) : ℤ) = ((s.goto i _).started : ℤ)
      rw [hstarted]

theorem inTurn_init : ((downloads w t n).init).InTurn w n :=
  ⟨bounded_init, nofun, fun _ => by simp [downloads, started, ClientPc.busy],
    fun _ => by simp [downloads, started, ClientPc.busy]⟩

theorem InTurn.joined (h : s.InTurn w n) (hjoined : s.Joined) :
    s.requests = (List.range (n * t)).map w.request := by
  have hrunning : s.exited = false := by
    by_contra hexited
    obtain ⟨i, hi⟩ := h.exited (Bool.not_eq_false _ |>.mp hexited)
    exact hi (hjoined i)
  have hstarted : s.started = n * t := by
    have hall : ∀ i ∈ Finset.univ, (s.threads i).j + (s.threads i).pc.busy = n := by
      intro i _
      rw [(h.bounded i).2 (hjoined i), hjoined i]
      rfl
    rw [started, Finset.sum_congr rfl hall, Finset.sum_const, Finset.card_univ, Fintype.card_fin,
      smul_eq_mul, Nat.mul_comm]
  rw [h.requests hrunning, hstarted]

end Downloads

/-- When all threads have been joined, they have requested what the loop requests, and each
    entry of the workload has been handed out as often as any other, up to one. -/
theorem threads_do_same_work (w : Workload) (hw : w.paths ≠ []) (t n : ℕ) (hlt : n * t < 2 ^ 31)
    (s : Downloads t) (h : (downloads w t n).Reach System.anyStep s) (hjoined : s.Joined) :
    (s.requests.map Prod.snd).Perm ((sequentialRequests w (n * t) 0).map Prod.snd) ∧
      ∀ r < w.paths.length,
        s.requests.countP (·.1 = r) = n * t / w.paths.length ∨
          s.requests.countP (·.1 = r) = (n * t + w.paths.length - 1) / w.paths.length := by
  have hturn : s.InTurn w n := h.invariant Downloads.inTurn_init fun _ _ _ ih _ hstep =>
    let ⟨hrunning, hm⟩ := Downloads.moves_of_step hstep
    ih.step hw hlt hrunning hm
  have hseq : sequentialRequests w (n * t) 0 = (List.range (n * t)).map w.request := by
    have := @sequentialRequests_eq w 0 (n * t) hw (by omega)
    simpa using this
  rw [hturn.joined hjoined, hseq]
  exact ⟨List.Perm.refl _, fun r hr => count_request hw hr⟩

/-- Two paths. -/
def twoPaths : Workload := ⟨[ascii "/a", ascii "/b"], by decide, by decide +kernel⟩

/-- Two threads that make two requests each. -/
def twoThreads : List (DownloadAct 2) :=
  [.thread 0, .thread 0, .thread 1, .thread 0, .thread 1, .thread 1, .thread 1, .thread 0,
    .thread 1, .thread 1, .thread 1, .thread 1, .thread 1, .thread 0, .thread 0, .thread 0,
    .thread 0, .thread 0]

theorem threads_do_same_work_two : ∃ s : Downloads 2,
    (downloads twoPaths 2 2).run twoThreads (downloads twoPaths 2 2).init = some s ∧
    (s.requests.map Prod.snd).Perm ((sequentialRequests twoPaths (2 * 2) 0).map Prod.snd) ∧
      ∀ r < 2, s.requests.countP (·.1 = r) = 2 * 2 / 2 ∨
        s.requests.countP (·.1 = r) = (2 * 2 + 2 - 1) / 2 := by
  have hjoined : ((downloads twoPaths 2 2).run twoThreads (downloads twoPaths 2 2).init).any
      (fun s => decide (∀ i, (s.threads i).pc = .done)) = true := by decide +kernel
  obtain ⟨s, hrun, hs⟩ := (Option.any_eq_true _ _).mp hjoined
  exact ⟨s, hrun, threads_do_same_work twoPaths (by decide) 2 2 (by decide) s
    (System.reach_of_run hrun) (by simpa [Downloads.Joined] using hs)⟩

namespace Downloads

variable {w : Workload} {t n : ℕ} {s s' : Downloads t} {a : DownloadAct t}

/-! ## Names without repetition -/

/-- One thread at most is between the read and the write of the counter, and the names have
    been made with the values 0, 1, 2, … -/
structure Distinct (n : ℕ) (s : Downloads t) : Prop where
  bounded : s.Bounded n
  count : s.names.length = s.named
  counter : s.localCounter = s.names.length
  held : ∀ i j req_path counter, s.threads i = ⟨j, .writeCounter req_path counter⟩ →
    counter = s.localCounter ∧ ∀ k, (s.threads k).pc.between = true → k = i
  names : ∀ k < s.names.length, ∃ req_path, s.names[k]? = some (localPath req_path k)

/-- A step that does not touch the counter. -/
theorem Distinct.goto (h : s.Distinct n) {i : Fin t} {th : ClientThread}
    (hbounded : (s.goto i th).Bounded n) (hnot : th.pc.between = false)
    (hth : th.j + th.pc.named = (s.threads i).j + (s.threads i).pc.named) :
    (s.goto i th).Distinct n := by
  have hnamed : (s.goto i th).named = s.named := by
    have := s.named_goto i th
    omega
  refine ⟨hbounded, h.count.trans hnamed.symm, h.counter, fun k j req_path counter hk => ?_, h.names⟩
  rw [goto_threads] at hk
  split_ifs at hk with hki
  · rw [hk] at hnot
    cases hnot
  · obtain ⟨hcounter, honly⟩ := h.held k j req_path counter hk
    refine ⟨hcounter, fun l hl => ?_⟩
    rw [goto_threads] at hl
    split_ifs at hl with hli
    · rw [hl] at hnot
      cases hnot
    · exact honly l hl

theorem Distinct.read (h : s.Distinct n) {i : Fin t} {j : ℕ} {req_path : List Byte}
    (hth : s.threads i = ⟨j, .readCounter req_path⟩)
    (halone : ∀ k, (s.threads k).pc.between = false)
    (hbounded : (s.goto i ⟨j, .writeCounter req_path s.localCounter⟩).Bounded n) :
    (s.goto i ⟨j, .writeCounter req_path s.localCounter⟩).Distinct n := by
  have hnamed := s.named_goto i ⟨j, .writeCounter req_path s.localCounter⟩
  rw [hth] at hnamed
  refine ⟨hbounded, h.count.trans (Nat.add_right_cancel hnamed).symm, h.counter,
    fun k l path counter hk => ?_, h.names⟩
  have honly : ∀ m, ((s.goto i ⟨j, .writeCounter req_path s.localCounter⟩).threads m).pc.between =
      true → m = i := by
    intro m hm
    by_contra hmi
    rw [goto_threads, if_neg hmi, halone m] at hm
    cases hm
  obtain rfl : k = i := honly k (by rw [hk]; rfl)
  rw [goto_threads, if_pos rfl] at hk
  cases hk
  exact ⟨rfl, honly⟩

theorem Distinct.write (hlt : n * t < 2 ^ 31) (h : s.Distinct n) {i : Fin t} {j : ℕ}
    {req_path : List Byte} {counter : ℤ} (hth : s.threads i = ⟨j, .writeCounter req_path counter⟩)
    (hbounded : (s.goto i ⟨j, .download (localPath req_path counter)⟩).Bounded n) :
    Distinct n { s.goto i ⟨j, .download (localPath req_path counter)⟩ with
      localCounter := int32 (counter + 1), names := s.names ++ [localPath req_path counter] } := by
  obtain ⟨hcounter, honly⟩ := h.held i j req_path counter hth
  rw [h.counter] at hcounter
  have hnamed : (s.goto i ⟨j, .download (localPath req_path counter)⟩).named = s.named + 1 := by
    have := s.named_goto i ⟨j, .download (localPath req_path counter)⟩
    rw [hth] at this
    simp only [ClientPc.named] at this
    omega
  have hle : s.names.length + 1 ≤ n * t := by
    rw [h.count, ← hnamed]
    exact hbounded.named_le
  have hlen : (s.names ++ [localPath req_path counter]).length = s.names.length + 1 := by simp
  refine ⟨hbounded, ?_, ?_, fun k l path counter' hk => ?_, fun k hk => ?_⟩
  · exact hlen.trans ((congrArg (· + 1) h.count).trans hnamed.symm)
  · show int32 (counter + 1) = ((s.names ++ [_]).length : ℤ)
    rw [hlen, hcounter]
    exact_mod_cast int32_natCast (by omega : s.names.length + 1 < 2 ^ 31)
  · -- nobody else was between the read and the write
    change (s.goto i _).threads k = _ at hk
    rw [goto_threads] at hk
    split_ifs at hk with hki
    · cases hk
    · exact absurd (honly k (by rw [hk]; rfl)) hki
  · rw [hlen] at hk
    rcases Nat.lt_succ_iff_lt_or_eq.mp hk with hk | rfl
    · obtain ⟨path, hpath⟩ := h.names k hk
      exact ⟨path, by rw [← hpath]; exact List.getElem?_append_left hk⟩
    · exact ⟨req_path, by rw [← hcounter]; exact List.getElem?_concat_length⟩

theorem Distinct.step (hlt : n * t < 2 ^ 31) (h : s.Distinct n) (halone : alone a s = true)
    (hm : Moves w n s a s') : s'.Distinct n := by
  have hbounded := h.bounded.step hm
  cases hm with
  | finish hth hj => exact h.goto hbounded rfl (by rw [hth]; rfl)
  | @request i j r counter hth hj hget =>
    have hgoto : (s.goto i ⟨j, .readCounter r.2⟩).Distinct n :=
      h.goto hbounded rfl (by rw [hth]; rfl)
    exact ⟨hbounded, hgoto.count, hgoto.counter, hgoto.held, hgoto.names⟩
  | read hth =>
    rw [alone, hth, decide_eq_true_eq] at halone
    exact h.read hth halone hbounded
  | write hth => exact h.write hlt hth hbounded
  | next hth => exact h.goto hbounded rfl (by rw [hth]; rfl)
  | exit hpc => exact ⟨hbounded, h.count, h.counter, h.held, h.names⟩

theorem distinct_init : ((downloads w t n).init).Distinct n :=
  ⟨bounded_init, by simp [downloads, named, ClientPc.named], rfl, nofun, nofun⟩

theorem Distinct.nodup (h : s.Distinct n) : s.names.Nodup := by
  rw [List.nodup_iff_getElem?_ne_getElem?]
  intro k l hkl hl heq
  obtain ⟨path, hk⟩ := h.names k (hkl.trans hl)
  obtain ⟨path', hl⟩ := h.names l hl
  rw [hk, hl, Option.some.injEq] at heq
  exact absurd (localPath_inj heq).2 hkl.ne

/-! ## The same name twice -/

theorem step_thread {i : Fin t} (hrunning : s.exited = false) :
    step w n (.thread i) s = s.threadStep w n i := if_neg (by rw [hrunning]; decide)

theorem threadStep_read {i : Fin t} {j : ℕ} {path : List Byte}
    (hth : s.threads i = ⟨j, .readCounter path⟩) :
    s.threadStep w n i = some (s.goto i ⟨j, .writeCounter path s.localCounter⟩) := by
  simp only [threadStep, hth]

theorem threadStep_write {i : Fin t} {j : ℕ} {path : List Byte} {counter : ℤ}
    (hth : s.threads i = ⟨j, .writeCounter path counter⟩) :
    s.threadStep w n i = some { s.goto i ⟨j, .download (localPath path counter)⟩ with
      localCounter := int32 (counter + 1), names := s.names ++ [localPath path counter] } := by
  simp only [threadStep, hth]

/-- A thread that reads the counter between the read and the write of another one, for a path
    with the same name behind its first character, gets the same local path. -/
theorem overlap_repeats (h : (downloads w t n).Reach (fun a s => alone a s = true) s)
    (hlt : n * t < 2 ^ 31) (hrunning : s.exited = false) {i k : Fin t} {j l : ℕ}
    {path path' : List Byte} {counter : ℤ} (hi : s.threads i = ⟨j, .readCounter path⟩)
    (hk : s.threads k = ⟨l, .writeCounter path' counter⟩) (htail : path.tail = path'.tail) :
    ∃ s', (downloads w t n).run [.thread i, .thread k, .thread i] s = some s' ∧
      ¬ s'.names.Nodup := by
  have hdistinct : s.Distinct n := h.invariant distinct_init fun _ _ _ ih halone hstep =>
    ih.step hlt halone (moves_of_step hstep).2
  obtain ⟨rfl, -⟩ := hdistinct.held k l path' counter hk
  have hne : k ≠ i := by
    rintro rfl
    rw [hi] at hk
    cases hk
  have hname : localPath path s.localCounter = localPath path' s.localCounter := by
    rw [localPath, htail, ← localPath]
  -- the state after the read, and after the write of the other thread
  let u := s.goto i ⟨j, .writeCounter path s.localCounter⟩
  let v := { u.goto k ⟨l, .download (localPath path' s.localCounter)⟩ with
    localCounter := int32 (s.localCounter + 1), names := u.names ++ [localPath path' s.localCounter] }
  have huk : u.threads k = ⟨l, .writeCounter path' s.localCounter⟩ := by
    rw [goto_threads, if_neg hne, hk]
  have hvi : v.threads i = ⟨j, .writeCounter path s.localCounter⟩ := by
    show (u.goto k _).threads i = _
    rw [goto_threads, if_neg hne.symm, goto_threads, if_pos rfl]
  have h₁ : step w n (.thread i) s = some u := (step_thread hrunning).trans (threadStep_read hi)
  have h₂ : step w n (.thread k) u = some v := (@step_thread w t n u k hrunning).trans (threadStep_write huk)
  have h₃ := (@step_thread w t n v i hrunning).trans (threadStep_write hvi)
  refine ⟨_, by simp only [System.run, downloads, h₁, h₂, h₃, Option.bind_some]; rfl, ?_⟩
  simp [hname, v, List.nodup_append]

end Downloads

/-- In a run in which no thread reads the counter of `localPath` between the read and the
    write of another one, no two names are the same. -/
theorem local_paths_differ (w : Workload) (t n : ℕ) (hlt : n * t < 2 ^ 31) (s : Downloads t)
    (h : (downloads w t n).Reach (fun a s => Downloads.alone a s = true) s) : s.names.Nodup := by
  have hdistinct : s.Distinct n :=
    h.invariant Downloads.distinct_init fun _ _ _ ih halone hstep =>
      ih.step hlt halone (Downloads.moves_of_step hstep).2
  exact hdistinct.nodup

/-- The two threads of the schedule above make four names. -/
theorem local_paths_differ_two : ∃ s : Downloads 2,
    (downloads twoPaths 2 2).runWith Downloads.alone twoThreads (downloads twoPaths 2 2).init =
      some s ∧ s.names.length = 4 ∧ s.names.Nodup := by
  have hfour : ((downloads twoPaths 2 2).runWith Downloads.alone twoThreads
      (downloads twoPaths 2 2).init).any (fun s => decide (s.names.length = 4)) = true := by
    decide +kernel
  obtain ⟨s, hrun, hs⟩ := (Option.any_eq_true _ _).mp hfour
  exact ⟨s, hrun, of_decide_eq_true hs, local_paths_differ twoPaths 2 2 (by decide) s
    (System.Reach.runWith .init hrun)⟩

/-- Two threads ask for the same path and read the counter before either writes it. -/
theorem local_paths_repeat :
    ¬ ∀ (w : Workload) (t n : ℕ), n * t < 2 ^ 31 → ∀ s : Downloads t,
      (downloads w t n).Reach System.anyStep s → s.names.Nodup := by
  intro h
  let w : Workload := ⟨[ascii "/a"], by decide, by decide +kernel⟩
  have hrepeat : ((downloads w 2 1).run [.thread 0, .thread 1, .thread 0, .thread 1, .thread 0,
      .thread 1] (downloads w 2 1).init).any (fun s => decide (¬ s.names.Nodup)) = true := by
    decide +kernel
  obtain ⟨s, hrun, hs⟩ := (Option.any_eq_true _ _).mp hrepeat
  exact of_decide_eq_true hs (h w 2 1 (by decide) s (System.reach_of_run hrun))

end IntroOS.Mtgf
