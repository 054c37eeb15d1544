import IntroOS.Content.Model
import IntroOS.Gfserver.Transfer
import IntroOS.Mtgf.Transfers

/-!
# The descriptors of the files

Model of `thd_callback` (`pr1/mtgf/handler.c`, lines 74–134) with `content_get`
(`pr1/mtgf/content.c`, lines 63–79), down to the descriptors: workers that serve the same key use
one descriptor, and a descriptor has one offset, which `lseek` sets for all of them.

* Which request `steque_pop` returns, and how many bytes a `pread` delivers at most, comes with the
  step, so any queue and any order of requests is covered. An empty queue changes nothing.
* The search of `content_get` is one step, as nothing writes to the table; its `lseek` is another.
* `gfs_send` and `gfs_sendheader` are complete. A `pread` that delivers nothing ends the process.
* The state also records what each worker has announced and sent.

Main results:

* `AllRight.step`, `AllExact.step`: what the workers know about their files, and what they have
  sent.
* `offsets_irrelevant`, `run_offsets`: no step looks at an offset.
* `transfer_completes`: a worker in the loop can always send the rest.
* `transfers_not_mixed`: every transfer announces the size of its file and sends its content.
-/

namespace IntroOS.Mtgf

open CString Concurrency Content Gfserver

/-! ## The model -/

/-- What a worker does next (`thd_callback`). -/
inductive DescPc
  /-- `!steque_isempty(requeue)` (line 81) -/
  | test
  /-- `pthread_mutex_lock(&reqlock)` (line 84) -/
  | lockQueue
  /-- `steque_pop(requeue)` (line 85) -/
  | pop
  /-- `pthread_mutex_unlock(&reqlock)` (line 86) -/
  | unlockQueue
  /-- the search of `content_get(ctx->path)` (line 94) -/
  | search
  /-- `gfs_sendheader(ctx->ctx, GF_FILE_NOT_FOUND, 0)` (line 96) -/
  | notFound
  /-- `lseek(items[mid].fildes, 0, SEEK_SET)` in `content_get` -/
  | rewind
  /-- `file_len = lseek(fildes, 0, SEEK_END)` (line 102) -/
  | seekEnd
  /-- `gfs_sendheader(ctx->ctx, GF_OK, file_len)` (line 105) -/
  | header
  /-- `pthread_mutex_lock(&filelock)` and `bytes_transferred = 0` (lines 107–110) -/
  | lockFile
  /-- the test of the loop and `pread` (lines 111–112) -/
  | read
  /-- `gfs_send` (line 118) -/
  | send
  /-- `pthread_mutex_unlock(&filelock)` (line 127) -/
  | unlockFile
  deriving DecidableEq, Repr

/-- A worker with its variables. -/
structure DescWorker where
  pc : DescPc
  path : List Byte
  fildes : ℤ
  file_len : ℕ
  bytes_transferred : ℕ
  buffer : List Byte
  /-- the length in the header that it has sent last -/
  announced : ℕ
  /-- what it has sent behind it -/
  body : List Byte

/-- A transfer that a worker has completed. -/
structure Served where
  path : List Byte
  announced : ℕ
  body : List Byte
  deriving DecidableEq, Repr

/-- The content library: its table, and the open file behind a descriptor. -/
structure Library where
  table : Table
  files : ℤ → File

/-- The content of the file behind a descriptor. -/
def Library.bytes (lib : Library) (fildes : ℤ) : List Byte := (lib.files fildes).bytes

/-- The second argument of `lseek` is 0 in all calls. -/
inductive Whence
  | SEEK_SET
  | SEEK_END

/-- `lseek(fildes, 0, whence)`: its value, and the offsets after it. -/
def lseek (lib : Library) (fildes : ℤ) (whence : Whence) (offsets : ℤ → ℕ) : ℕ × (ℤ → ℕ) :=
  let offset := match whence with
    | .SEEK_SET => 0
    | .SEEK_END => (lib.bytes fildes).length
  (offset, Function.update offsets fildes offset)

/-- The state of the process with `w` workers. -/
structure Descriptors (w : ℕ) where
  reqlock : Option (Fin w)
  filelock : Option (Fin w)
  offsets : ℤ → ℕ
  workers : Fin w → DescWorker
  served : List Served
  ended : Bool

/-- A step of worker `i`, with the path of the request that `steque_pop` returns and the number of
    bytes that `pread` delivers at most, if the step calls them. -/
structure DescAct (w : ℕ) where
  i : Fin w
  request : List Byte
  count : ℕ

namespace Descriptors

variable {w : ℕ}

def goto (s : Descriptors w) (i : Fin w) (wk : DescWorker) : Descriptors w :=
  { s with workers := Function.update s.workers i wk }

def step (lib : Library) (a : DescAct w) (s : Descriptors w) : Option (Descriptors w) :=
  let wk := s.workers a.i
  if s.ended then none
  else match wk.pc with
    | .test => some (s.goto a.i { wk with pc := .lockQueue })
    | .lockQueue =>
      if s.reqlock.isNone then some { s.goto a.i { wk with pc := .pop } with reqlock := some a.i }
      else none
    | .pop => some (s.goto a.i { wk with pc := .unlockQueue, path := a.request })
    | .unlockQueue => some { s.goto a.i { wk with pc := .search } with reqlock := none }
    | .search =>
      match contentGet lib.table wk.path with
      | .error _ => some { s with ended := true }
      | .ok fildes =>
        some (s.goto a.i { wk with pc := if 0 > fildes then .notFound else .rewind, fildes := fildes })
    | .notFound => some (s.goto a.i { wk with pc := .test })
    | .rewind =>
      some { s.goto a.i { wk with pc := .seekEnd } with
        offsets := (lseek lib wk.fildes .SEEK_SET s.offsets).2 }
    | .seekEnd =>
      let r := lseek lib wk.fildes .SEEK_END s.offsets
      some { s.goto a.i { wk with pc := .header, file_len := r.1 } with offsets := r.2 }
    | .header =>
      some (s.goto a.i { wk with pc := .lockFile, announced := sizeT wk.file_len, body := [] })
    | .lockFile =>
      if s.filelock.isNone then
        some { s.goto a.i { wk with pc := .read, bytes_transferred := 0 } with filelock := some a.i }
      else none
    | .read =>
      if wk.bytes_transferred < wk.file_len then
        let buffer := pread (fun _ => some a.count) (lib.bytes wk.fildes) wk.bytes_transferred
        -- `gfs_abort(ctx->ctx)` and `exit(-1)`
        if buffer.length ≤ 0 then some { s with ended := true }
        else some (s.goto a.i { wk with pc := .send, buffer := buffer })
      else some (s.goto a.i { wk with pc := .unlockFile })
    | .send =>
      some (s.goto a.i { wk with
        pc := .read
        bytes_transferred := wk.bytes_transferred + wk.buffer.length
        body := wk.body ++ wk.buffer })
    | .unlockFile =>
      some { s.goto a.i { wk with pc := .test } with
        filelock := none, served := s.served ++ [⟨wk.path, wk.announced, wk.body⟩] }

end Descriptors

/-- The process with `w` workers. -/
def descriptors (lib : Library) (w : ℕ) : System (Descriptors w) (DescAct w) where
  init := ⟨none, none, fun _ => 0, fun _ => ⟨.test, [], 0, 0, 0, [], 0, []⟩, [], false⟩
  step := Descriptors.step lib

/-- Between the lock and the unlock of `filelock`: in the transfer loop. -/
def DescPc.InLoop : DescPc → Prop
  | read | send | unlockFile => True
  | _ => False

/-- The worker has sent the header and not yet completed the transfer. -/
def DescPc.HasAnnounced : DescPc → Prop
  | lockFile | read | send | unlockFile => True
  | _ => False

/-! ## What a worker knows -/

section Worker

variable {lib : Library} {wk : DescWorker}

/-- `content_get` has found the descriptor of the path. -/
def DescWorker.Found (lib : Library) (wk : DescWorker) : Prop :=
  contentGet lib.table wk.path = .ok wk.fildes ∧ 0 ≤ wk.fildes

/-- The worker has announced the size of its file, and sent the file up to `bytes_transferred`. -/
structure DescWorker.Sending (lib : Library) (wk : DescWorker) : Prop where
  found : wk.Found lib
  file_len : wk.file_len = (lib.bytes wk.fildes).length
  announced : wk.announced = (lib.bytes wk.fildes).length
  le : wk.bytes_transferred ≤ wk.file_len
  body : wk.body = (lib.bytes wk.fildes).take wk.bytes_transferred

/-- What a worker knows about its file at each place. Nothing of it is about an offset. -/
def DescWorker.Right (lib : Library) (wk : DescWorker) : Prop :=
  match wk.pc with
  | .rewind | .seekEnd => wk.Found lib
  | .header => wk.Found lib ∧ wk.file_len = (lib.bytes wk.fildes).length
  | .lockFile => DescWorker.Sending lib { wk with bytes_transferred := 0 }
  | .read => wk.Sending lib
  | .send => wk.Sending lib ∧ wk.buffer <+: (lib.bytes wk.fildes).drop wk.bytes_transferred
  | .unlockFile => wk.Sending lib ∧ wk.body = lib.bytes wk.fildes
  | _ => True

/-- A completed transfer: the announced length is the size of the file for the path, and the body
    its content. -/
def Served.Exact (lib : Library) (r : Served) : Prop :=
  ∃ fildes, contentGet lib.table r.path = .ok fildes ∧ 0 ≤ fildes ∧
    r.announced = (lib.bytes fildes).length ∧ r.body = lib.bytes fildes

/-- The announced length is that of the file: it fits into a `size_t`. -/
theorem sizeT_length (lib : Library) (fildes : ℤ) :
    sizeT ((lib.bytes fildes).length : ℕ) = (lib.bytes fildes).length :=
  sizeT_natCast ((lib.files fildes).lt.trans (by decide))

/-- It is about neither the place nor the buffer. -/
theorem DescWorker.Sending.move (h : wk.Sending lib) (pc : DescPc) (buffer : List Byte) :
    DescWorker.Sending lib { wk with pc := pc, buffer := buffer } :=
  ⟨h.found, h.file_len, h.announced, h.le, h.body⟩

/-- One more chunk. -/
theorem DescWorker.Sending.send (h : wk.Sending lib)
    (hbuffer : wk.buffer <+: (lib.bytes wk.fildes).drop wk.bytes_transferred) :
    DescWorker.Sending lib { wk with
      pc := .read
      bytes_transferred := wk.bytes_transferred + wk.buffer.length
      body := wk.body ++ wk.buffer } := by
  refine ⟨h.found, h.file_len, h.announced, ?_, ?_⟩
  · have hle := hbuffer.length_le
    have hbytes := h.le
    rw [List.length_drop, ← h.file_len] at hle
    dsimp only
    omega
  · show wk.body ++ wk.buffer = _
    rw [List.take_add, h.body, ← List.prefix_iff_eq_take.mp hbuffer]

/-- The loop has ended. -/
theorem DescWorker.Sending.whole (h : wk.Sending lib) (hend : ¬ wk.bytes_transferred < wk.file_len) :
    wk.body = lib.bytes wk.fildes := by
  rw [h.body, List.take_of_length_le]
  rw [← h.file_len]
  exact not_lt.mp hend

theorem DescWorker.Sending.so_far (h : wk.Sending lib) : wk.body <+: lib.bytes wk.fildes := by
  rw [h.body]
  exact List.take_prefix _ _

/-- Behind the header, the body is a part of the file of the announced size. -/
theorem DescWorker.Right.so_far (h : wk.Right lib) (hpc : wk.pc.HasAnnounced) :
    wk.Found lib ∧ wk.announced = (lib.bytes wk.fildes).length ∧ wk.body <+: lib.bytes wk.fildes := by
  unfold DescWorker.Right at h
  cases hwk : wk.pc with
  | lockFile => rw [hwk] at h; exact ⟨h.found, h.announced, h.so_far⟩
  | read => rw [hwk] at h; exact ⟨h.found, h.announced, h.so_far⟩
  | send => rw [hwk] at h; exact ⟨h.1.found, h.1.announced, h.1.so_far⟩
  | unlockFile => rw [hwk] at h; exact ⟨h.1.found, h.1.announced, h.1.so_far⟩
  | _ => rw [hwk] at hpc; exact hpc.elim

end Worker

/-! ## What a step does -/

namespace Descriptors

variable {lib : Library} {w : ℕ} {s s' : Descriptors w} {a : DescAct w} {i j : Fin w}

/-- The steps of worker `i`; the last two end the process. -/
inductive Moves (lib : Library) (s : Descriptors w) (i : Fin w) : Descriptors w → Prop
  | test (hpc : (s.workers i).pc = .test) :
      Moves lib s i (s.goto i { s.workers i with pc := .lockQueue })
  | lockQueue (hpc : (s.workers i).pc = .lockQueue) (hfree : s.reqlock = none) :
      Moves lib s i { s.goto i { s.workers i with pc := .pop } with reqlock := some i }
  | pop (hpc : (s.workers i).pc = .pop) (path : List Byte) :
      Moves lib s i (s.goto i { s.workers i with pc := .unlockQueue, path := path })
  | unlockQueue (hpc : (s.workers i).pc = .unlockQueue) :
      Moves lib s i { s.goto i { s.workers i with pc := .search } with reqlock := none }
  | missing (hpc : (s.workers i).pc = .search) (fildes : ℤ) :
      Moves lib s i (s.goto i { s.workers i with pc := .notFound, fildes := fildes })
  | found (hpc : (s.workers i).pc = .search) {fildes : ℤ}
      (hget : contentGet lib.table (s.workers i).path = .ok fildes) (hle : 0 ≤ fildes) :
      Moves lib s i (s.goto i { s.workers i with pc := .rewind, fildes := fildes })
  | notFound (hpc : (s.workers i).pc = .notFound) :
      Moves lib s i (s.goto i { s.workers i with pc := .test })
  | rewind (hpc : (s.workers i).pc = .rewind) (offsets : ℤ → ℕ) :
      Moves lib s i { s.goto i { s.workers i with pc := .seekEnd } with offsets := offsets }
  | seekEnd (hpc : (s.workers i).pc = .seekEnd) (offsets : ℤ → ℕ) :
      Moves lib s i { s.goto i { s.workers i with
        pc := .header
        file_len := (lib.bytes (s.workers i).fildes).length } with offsets := offsets }
  | header (hpc : (s.workers i).pc = .header) :
      Moves lib s i (s.goto i { s.workers i with
        pc := .lockFile, announced := sizeT (s.workers i).file_len, body := [] })
  | lockFile (hpc : (s.workers i).pc = .lockFile) (hfree : s.filelock = none) :
      Moves lib s i { s.goto i { s.workers i with pc := .read, bytes_transferred := 0 } with
        filelock := some i }
  | read (hpc : (s.workers i).pc = .read) {buffer : List Byte}
      (hbuffer :
        buffer <+: (lib.bytes (s.workers i).fildes).drop (s.workers i).bytes_transferred) :
      Moves lib s i (s.goto i { s.workers i with pc := .send, buffer := buffer })
  | readAll (hpc : (s.workers i).pc = .read)
      (hend : ¬ (s.workers i).bytes_transferred < (s.workers i).file_len) :
      Moves lib s i (s.goto i { s.workers i with pc := .unlockFile })
  | send (hpc : (s.workers i).pc = .send) :
      Moves lib s i (s.goto i { s.workers i with
        pc := .read
        bytes_transferred := (s.workers i).bytes_transferred + (s.workers i).buffer.length
        body := (s.workers i).body ++ (s.workers i).buffer })
  | unlockFile (hpc : (s.workers i).pc = .unlockFile) :
      Moves lib s i { s.goto i { s.workers i with pc := .test } with
        filelock := none
        served := s.served ++
          [⟨(s.workers i).path, (s.workers i).announced, (s.workers i).body⟩] }
  | ended : Moves lib s i { s with ended := true }

theorem moves_of_step (h : step lib a s = some s') : Moves lib s a.i s' := by
  unfold step at h
  rw [Option.ite_none_left_eq_some] at h
  obtain ⟨-, h⟩ := h
  cases hpc : (s.workers a.i).pc with
  | test => rw [hpc] at h; cases h; exact .test hpc
  | lockQueue =>
    simp only [hpc, Option.isNone_iff_eq_none, Option.ite_none_right_eq_some] at h
    obtain ⟨hfree, h⟩ := h
    cases h
    exact .lockQueue hpc hfree
  | pop => rw [hpc] at h; cases h; exact .pop hpc _
  | unlockQueue => rw [hpc] at h; cases h; exact .unlockQueue hpc
  | search =>
    simp only [hpc] at h
    cases hget : contentGet lib.table (s.workers a.i).path with
    | error f => rw [hget] at h; cases h; exact .ended
    | ok fildes =>
      rw [hget] at h
      cases h
      split_ifs with hneg
      · exact .missing hpc fildes
      · exact .found hpc hget (not_lt.mp hneg)
  | notFound => rw [hpc] at h; cases h; exact .notFound hpc
  | rewind => rw [hpc] at h; cases h; exact .rewind hpc _
  | seekEnd => rw [hpc] at h; cases h; exact .seekEnd hpc _
  | header => rw [hpc] at h; cases h; exact .header hpc
  | lockFile =>
    simp only [hpc, Option.isNone_iff_eq_none, Option.ite_none_right_eq_some] at h
    obtain ⟨hfree, h⟩ := h
    cases h
    exact .lockFile hpc hfree
  | read =>
    simp only [hpc] at h
    split_ifs at h with hlt hempty
    · cases h; exact .ended
    · cases h; exact .read hpc (pread_drop _ _ _)
    · cases h; exact .readAll hpc hlt
  | send => rw [hpc] at h; cases h; exact .send hpc
  | unlockFile => rw [hpc] at h; cases h; exact .unlockFile hpc

/-! ## What the workers know -/

/-- Every worker knows what it should. -/
def AllRight (lib : Library) (s : Descriptors w) : Prop := ∀ i, (s.workers i).Right lib

/-- The variables of one worker are not those of another. -/
theorem AllRight.goto (h : s.AllRight lib) {wk : DescWorker} (hwk : wk.Right lib) :
    (s.goto i wk).AllRight lib := by
  intro j
  show (Function.update s.workers i wk j).Right lib
  rw [Function.update_apply]
  split_ifs
  · exact hwk
  · exact h j

theorem AllRight.step (h : s.AllRight lib) (hm : Moves lib s i s') : s'.AllRight lib := by
  have hi := h i
  unfold DescWorker.Right at hi
  cases hm with
  | test hpc => exact h.goto trivial
  | lockQueue hpc hfree => exact h.goto trivial
  | pop hpc path => exact h.goto trivial
  | unlockQueue hpc => exact h.goto trivial
  | missing hpc fildes => exact h.goto trivial
  | found hpc hget hle => exact h.goto (And.intro hget hle)
  | notFound hpc => exact h.goto trivial
  | rewind hpc offsets => rw [hpc] at hi; exact h.goto hi
  | seekEnd hpc offsets => rw [hpc] at hi; exact h.goto ⟨hi, rfl⟩
  | header hpc =>
    rw [hpc] at hi
    obtain ⟨hfound, hlen⟩ := hi
    refine h.goto ⟨hfound, hlen, ?_, Nat.zero_le _, rfl⟩
    show sizeT (s.workers i).file_len = _
    rw [hlen, sizeT_length]
  | lockFile hpc hfree => rw [hpc] at hi; exact h.goto (hi.move .read _)
  | read hpc hbuffer => rw [hpc] at hi; exact h.goto ⟨hi.move .send _, hbuffer⟩
  | readAll hpc hend => rw [hpc] at hi; exact h.goto ⟨hi.move .unlockFile _, hi.whole hend⟩
  | send hpc => rw [hpc] at hi; exact h.goto (hi.1.send hi.2)
  | unlockFile hpc => exact h.goto trivial
  | ended => exact h

/-- The lock is owned by the worker in the loop. -/
def FileOwned (s : Descriptors w) : Prop :=
  Owned (fun wk : DescWorker => wk.pc.InLoop) s.filelock s.workers

theorem FileOwned.step (h : s.FileOwned) (hm : Moves lib s i s') : s'.FileOwned := by
  cases hm with
  | test hpc => exact Owned.keep h (by simp [hpc, DescPc.InLoop])
  | lockQueue hpc hfree => exact Owned.keep h (by simp [hpc, DescPc.InLoop])
  | pop hpc path => exact Owned.keep h (by simp [hpc, DescPc.InLoop])
  | unlockQueue hpc => exact Owned.keep h (by simp [hpc, DescPc.InLoop])
  | missing hpc fildes => exact Owned.keep h (by simp [hpc, DescPc.InLoop])
  | found hpc hget hle => exact Owned.keep h (by simp [hpc, DescPc.InLoop])
  | notFound hpc => exact Owned.keep h (by simp [hpc, DescPc.InLoop])
  | rewind hpc offsets => exact Owned.keep h (by simp [hpc, DescPc.InLoop])
  | seekEnd hpc offsets => exact Owned.keep h (by simp [hpc, DescPc.InLoop])
  | header hpc => exact Owned.keep h (by simp [hpc, DescPc.InLoop])
  | lockFile hpc hfree => exact Owned.take h hfree trivial
  | read hpc hbuffer => exact Owned.keep h (by simp [hpc, DescPc.InLoop])
  | readAll hpc hend => exact Owned.keep h (by simp [hpc, DescPc.InLoop])
  | send hpc => exact Owned.keep h (by simp [hpc, DescPc.InLoop])
  | unlockFile hpc => exact Owned.giveBack h (by rw [hpc]; trivial) nofun
  | ended => exact h

/-- Every completed transfer is exact. -/
def AllExact (lib : Library) (s : Descriptors w) : Prop := ∀ r ∈ s.served, r.Exact lib

theorem AllExact.step (h : s.AllExact lib) (hright : s.AllRight lib) (hm : Moves lib s i s') :
    s'.AllExact lib := by
  cases hm with
  | unlockFile hpc =>
    have hi := hright i
    unfold DescWorker.Right at hi
    rw [hpc] at hi
    obtain ⟨hsending, hbody⟩ := hi
    intro r hr
    rcases List.mem_append.mp hr with hr | hr
    · exact h r hr
    · rw [List.mem_singleton.mp hr]
      exact ⟨_, hsending.found.1, hsending.found.2, hsending.announced, hbody⟩
  | _ => exact h

/-! ## The offsets -/

/-- With any other offsets the step is the same, but for the offsets. -/
theorem offsets_irrelevant (h : step lib a s = some s') (offsets : ℤ → ℕ) :
    ∃ offsets', step lib a { s with offsets := offsets } = some { s' with offsets := offsets' } := by
  unfold step at h ⊢
  rw [Option.ite_none_left_eq_some] at h
  obtain ⟨hended, h⟩ := h
  rw [if_neg hended]
  cases hpc : (s.workers a.i).pc with
  | lockQueue =>
    simp only [hpc, Option.ite_none_right_eq_some] at h ⊢
    obtain ⟨hfree, h⟩ := h
    cases h
    exact ⟨_, hfree, rfl⟩
  | lockFile =>
    simp only [hpc, Option.ite_none_right_eq_some] at h ⊢
    obtain ⟨hfree, h⟩ := h
    cases h
    exact ⟨_, hfree, rfl⟩
  | search =>
    simp only [hpc] at h ⊢
    cases hget : contentGet lib.table (s.workers a.i).path with
    | error f => rw [hget] at h; cases h; exact ⟨_, rfl⟩
    | ok fildes => rw [hget] at h; cases h; exact ⟨_, rfl⟩
  | read =>
    simp only [hpc] at h ⊢
    split_ifs at h ⊢
    all_goals cases h; exact ⟨_, rfl⟩
  | _ => simp only [hpc] at h ⊢; cases h; exact ⟨_, rfl⟩

/-- The same for a whole schedule. -/
theorem run_offsets {as : List (DescAct w)} (h : (descriptors lib w).run as s = some s')
    (offsets : ℤ → ℕ) : ∃ offsets', (descriptors lib w).run as { s with offsets := offsets } =
      some { s' with offsets := offsets' } := by
  induction as generalizing s offsets with
  | nil => cases h; exact ⟨offsets, rfl⟩
  | cons a as ih =>
    obtain ⟨u, hu, hr⟩ := Option.bind_eq_some_iff.mp h
    obtain ⟨offsets₁, hstep⟩ := offsets_irrelevant hu offsets
    obtain ⟨offsets₂, hrun⟩ := ih hr offsets₁
    exact ⟨offsets₂, Option.bind_eq_some_iff.mpr ⟨_, hstep, hrun⟩⟩

/-! ## The end of a transfer -/

@[simp] theorem goto_workers (s : Descriptors w) (i : Fin w) (wk : DescWorker) :
    (s.goto i wk).workers i = wk :=
  Function.update_self ..

@[simp] theorem goto_goto (s : Descriptors w) (i : Fin w) (wk wk' : DescWorker) :
    (s.goto i wk).goto i wk' = s.goto i wk' := by
  simp [goto]

/-- Before the end of the file, a `pread` and a `gfs_send` make one round of the loop, and less of
    the file remains. -/
theorem run_round (hrun : s.ended = false) (hpc : (s.workers i).pc = .read)
    (hsending : (s.workers i).Sending lib)
    (hlt : (s.workers i).bytes_transferred < (s.workers i).file_len) (request : List Byte) :
    ∃ wk, (descriptors lib w).run [⟨i, request, 1⟩, ⟨i, request, 1⟩] s = some (s.goto i wk) ∧
      wk.pc = .read ∧ wk.Sending lib ∧ wk.path = (s.workers i).path ∧
      wk.file_len - wk.bytes_transferred <
        (s.workers i).file_len - (s.workers i).bytes_transferred := by
  generalize hwk : s.workers i = wk at hpc hsending hlt ⊢
  have hprefix := pread_drop (fun _ => some 1) (lib.bytes wk.fildes) wk.bytes_transferred
  generalize hbuffer : pread (fun _ => some 1) (lib.bytes wk.fildes) wk.bytes_transferred = buffer
    at hprefix
  have hpos : 0 < buffer.length := by
    rw [← hbuffer, pread, List.length_take, List.length_take, List.length_drop, ← hsending.file_len,
      BUFSIZE, Option.getD_some]
    omega
  have hread : (descriptors lib w).step ⟨i, request, 1⟩ s =
      some (s.goto i { wk with pc := .send, buffer := buffer }) := by
    simp only [descriptors, step, hrun, hwk, hpc, hlt, hbuffer, Bool.false_eq_true, if_false, if_true]
    exact if_neg (not_le.mpr hpos)
  have hsend : (descriptors lib w).step ⟨i, request, 1⟩
      (s.goto i { wk with pc := .send, buffer := buffer }) =
        some (s.goto i { wk with
          pc := .read
          buffer := buffer
          bytes_transferred := wk.bytes_transferred + buffer.length
          body := wk.body ++ buffer }) := by
    simp only [descriptors, step, goto_workers, goto_goto]
    exact if_neg (by rw [show (s.goto i _).ended = false from hrun]; decide)
  refine ⟨_, ?_, rfl, (hsending.move .send buffer).send hprefix, rfl, ?_⟩
  · rw [System.run, hread, Option.bind_some, System.run, hsend]
    rfl
  · show wk.file_len - (wk.bytes_transferred + buffer.length) < _
    omega

/-- A worker in the loop can go on alone, and then it completes its transfer. -/
theorem transfer_completes (hrun : s.ended = false) (hpc : (s.workers i).pc = .read)
    (hsending : (s.workers i).Sending lib) (request : List Byte) :
    ∃ as : List (DescAct w), (∀ a ∈ as, a = ⟨i, request, 1⟩) ∧
      ∃ s' r, (descriptors lib w).run as s = some s' ∧ s'.served = s.served ++ [r] ∧
        r.path = (s.workers i).path ∧ r.Exact lib := by
  induction hn : (s.workers i).file_len - (s.workers i).bytes_transferred using
    Nat.strong_induction_on generalizing s with
  | h n ih =>
    by_cases hlt : (s.workers i).bytes_transferred < (s.workers i).file_len
    · obtain ⟨wk, hround, hread, hright, hpath, hless⟩ := run_round hrun hpc hsending hlt request
      have hwk : (s.goto i wk).workers i = wk := goto_workers s i wk
      obtain ⟨as, hall, s', r, hrest, hserved, hrpath, hexact⟩ :=
        ih _ (hn ▸ hless) (s := s.goto i wk) hrun (by rw [hwk, hread]) (by rwa [hwk]) (by rw [hwk])
      refine ⟨[⟨i, request, 1⟩, ⟨i, request, 1⟩] ++ as, by simpa using hall, s', r, ?_, hserved,
        hrpath.trans (by rw [hwk, hpath]), hexact⟩
      rw [System.run_append, hround, Option.bind_some, hrest]
    · have hwhole := hsending.whole hlt
      generalize hwk : s.workers i = wk at hpc hsending hlt hwhole ⊢
      have hlast : (descriptors lib w).step ⟨i, request, 1⟩ s =
          some (s.goto i { wk with pc := .unlockFile }) := by
        simp only [descriptors, step, hrun, hwk, hpc, hlt, Bool.false_eq_true, if_false]
      have hunlock : ∃ s', (descriptors lib w).step ⟨i, request, 1⟩
          (s.goto i { wk with pc := .unlockFile }) = some s' ∧
            s'.served = s.served ++ [⟨wk.path, wk.announced, wk.body⟩] := by
        refine ⟨{ s.goto i { wk with pc := .test } with
          filelock := none, served := s.served ++ [⟨wk.path, wk.announced, wk.body⟩] }, ?_, rfl⟩
        simp only [descriptors, step, goto_workers, goto_goto]
        exact if_neg (by rw [show (s.goto i _).ended = false from hrun]; decide)
      obtain ⟨s', hunlock, hserved⟩ := hunlock
      refine ⟨[⟨i, request, 1⟩, ⟨i, request, 1⟩], by simp, s', _, ?_, hserved, rfl, wk.fildes,
        hsending.found.1, hsending.found.2, hsending.announced, hwhole⟩
      rw [System.run, hlast, Option.bind_some, System.run, hunlock]
      rfl

end Descriptors

/-! ## Every interleaving -/

/-- In every interleaving of any number of workers, each announces exactly the size of the file for
    its path; what it has sent behind the header is the file up to here, and the whole file when
    the transfer is completed; and one worker at most is in the transfer loop. -/
theorem transfers_not_mixed {lib : Library} {w : ℕ} {s : Descriptors w}
    (h : (descriptors lib w).Reach System.anyStep s) :
    (∀ r ∈ s.served, r.Exact lib) ∧
    (∀ i, (s.workers i).pc.HasAnnounced →
      (s.workers i).Found lib ∧ (s.workers i).announced = (lib.bytes (s.workers i).fildes).length ∧
        (s.workers i).body <+: lib.bytes (s.workers i).fildes) ∧
    (∀ i j, (s.workers i).pc.InLoop → (s.workers j).pc.InLoop → i = j) := by
  have hinv : s.AllRight lib ∧ s.AllExact lib ∧ s.FileOwned :=
    h.invariant (I := fun s => s.AllRight lib ∧ s.AllExact lib ∧ s.FileOwned)
      ⟨fun _ => trivial, nofun, fun _ => ⟨nofun, nofun⟩⟩
      fun _ _ _ ih _ hstep =>
        have hm := Descriptors.moves_of_step hstep
        ⟨ih.1.step hm, ih.2.1.step ih.1 hm, ih.2.2.step hm⟩
  obtain ⟨hright, hexact, howned⟩ := hinv
  exact ⟨hexact, fun i hpc => (hright i).so_far hpc, fun i j hi hj => howned.unique hi hj⟩

/-- Two workers serve the same key, so they use descriptor 3. -/
def sharedLibrary : Library :=
  ⟨⟨some 1, [⟨3, ascii "k"⟩], 16⟩, fun _ => ⟨ascii "ab", by decide⟩⟩

/-- Worker 0 is in the transfer loop while worker 1 rewinds the descriptor. -/
def sharedRun : List (DescAct 2) :=
  List.replicate 12 ⟨0, ascii "k", 1⟩ ++ List.replicate 8 ⟨1, ascii "k", 5⟩ ++
    List.replicate 4 ⟨0, ascii "k", 1⟩ ++ List.replicate 5 ⟨1, ascii "k", 5⟩

/-- The main theorem at the end of this run, with both transfers completed. -/
theorem transfers_not_mixed_shared :
    ∃ s, (descriptors sharedLibrary 2).run sharedRun (descriptors sharedLibrary 2).init = some s ∧
      s.served = [⟨ascii "k", 2, ascii "ab"⟩, ⟨ascii "k", 2, ascii "ab"⟩] ∧
      ∀ r ∈ s.served, r.Exact sharedLibrary := by
  have hserved : ((descriptors sharedLibrary 2).run sharedRun
      (descriptors sharedLibrary 2).init).map (·.served) =
        some [⟨ascii "k", 2, ascii "ab"⟩, ⟨ascii "k", 2, ascii "ab"⟩] := by decide +kernel
  obtain ⟨s, hrun, hs⟩ := Option.map_eq_some_iff.mp hserved
  exact ⟨s, hrun, hs, (transfers_not_mixed (System.reach_of_run hrun)).1⟩

end IntroOS.Mtgf
