import IntroOS.Transfer.Server

/-!
# The transfer client

Model of `pr1/transfer/transferclient.c` behind `connect` (lines 112–161): what `recv` returns
goes to the output file. The file is opened with the mode `"a"`, so its earlier content stays in
front; the code that the comment of lines 136–158 has taken out, and `openFile` of
`gfclient_download.c`, use `"w"`.

* A `recv` returns some bytes, none when the peer has closed, or fails.
* What `fwrite` has taken is in the file when the process ends, by `fclose` or by the return from
  `main`. How many bytes each call takes is an argument.
* If `fopen` fails, the null pointer goes to `fclose`.

Main results:

* `transferclient_appends`: the output file is its earlier content and the stream.
* `saved_exactly_iff`: it is the stream exactly if the file was empty or did not exist.
* `saved_exactly_of_w`: with the mode `"w"` it always is.
* `transferclient_runs`: after several runs the file holds all their streams.
-/

namespace IntroOS.Transfer

open CString

/-! ## Model -/

/-- The modes of `fopen` that write. -/
inductive OpenMode
  | a
  | w
  deriving DecidableEq, Repr

/-- The file behind `fopen(filename, mode)`; before, there may be no such file. -/
def fopen (mode : OpenMode) (earlier : Option (List Byte)) : List Byte :=
  match mode with
  | .a => earlier.getD []
  | .w => []

/-- The loop of lines 122–132 over what `recv` returns; behind the list, the peer has closed.
    `none` is a `recv` that fails. The `n`-th `fwrite` takes `fwrites n` bytes at most. -/
def receiveLoop (fwrites : ℕ → ℕ) :
    List (Option (List Byte)) → ℕ → List Byte → List Byte
  | [], _, out => out
  | none :: _, _, out => out
  | some pBuffer :: recvs, n, out =>
    if pBuffer.length = 0 then out
    else
      let write_sz := min (fwrites n) pBuffer.length
      -- `return 0`
      if write_sz < pBuffer.length then out ++ pBuffer.take write_sz
      else receiveLoop fwrites recvs (n + 1) (out ++ pBuffer.take write_sz)

/-- `main` behind `connect`, with the mode of line 116 as an argument. -/
def receiveTo (mode : OpenMode) (opens : Bool) (recvs : List (Option (List Byte)))
    (fwrites : ℕ → ℕ) (earlier : Option (List Byte)) : Except Fault (List Byte) :=
  if opens then .ok (receiveLoop fwrites recvs 0 (fopen mode earlier))
  else .error .nullPointer

/-- `main` behind `connect` (lines 112–161). -/
def transferclient (opens : Bool) (recvs : List (Option (List Byte))) (fwrites : ℕ → ℕ)
    (earlier : Option (List Byte)) : Except Fault (List Byte) :=
  receiveTo .a opens recvs fwrites earlier

/-! ## A stream -/

/-- A stream, cut into what the calls of `recv` return. -/
structure Cutting (stream : List Byte) where
  chunks : List (List Byte)
  flatten_eq : chunks.flatten = stream
  pos : ∀ chunk ∈ chunks, 0 < chunk.length
  le : ∀ chunk ∈ chunks, chunk.length ≤ BUFSIZE

/-- What `recv` returns before the peer has closed. -/
def Cutting.recvs {stream : List Byte} (c : Cutting stream) : List (Option (List Byte)) :=
  c.chunks.map some

section Stream

variable {fwrites : ℕ → ℕ} {stream : List Byte}

/-- The loop appends what it receives. -/
theorem receiveLoop_append (hfull : ∀ n, BUFSIZE ≤ fwrites n) (chunks : List (List Byte))
    (hpos : ∀ chunk ∈ chunks, 0 < chunk.length) (hle : ∀ chunk ∈ chunks, chunk.length ≤ BUFSIZE)
    (n : ℕ) (out : List Byte) :
    receiveLoop fwrites (chunks.map some) n out = out ++ chunks.flatten := by
  induction chunks generalizing n out with
  | nil => exact (List.append_nil out).symm
  | cons chunk chunks ih =>
    have htake : min (fwrites n) chunk.length = chunk.length :=
      min_eq_right ((hle chunk List.mem_cons_self).trans (hfull n))
    have hne : chunk.length ≠ 0 := (hpos chunk List.mem_cons_self).ne'
    rw [List.map_cons, receiveLoop, if_neg hne]
    simp only [htake, lt_irrefl, if_false, List.take_length]
    rw [ih (fun c hc => hpos c (List.mem_cons_of_mem _ hc))
      (fun c hc => hle c (List.mem_cons_of_mem _ hc)), List.flatten_cons, List.append_assoc]

/-- Complete calls of `fwrite`: behind the file as `fopen` leaves it comes the stream. -/
theorem receiveTo_appends (mode : OpenMode) (c : Cutting stream) (hfull : ∀ n, BUFSIZE ≤ fwrites n)
    (earlier : Option (List Byte)) :
    receiveTo mode true c.recvs fwrites earlier = .ok (fopen mode earlier ++ stream) := by
  rw [receiveTo, if_pos rfl, Cutting.recvs, receiveLoop_append hfull c.chunks c.pos c.le,
    c.flatten_eq]

theorem transferclient_appends (c : Cutting stream) (hfull : ∀ n, BUFSIZE ≤ fwrites n)
    (earlier : Option (List Byte)) :
    transferclient true c.recvs fwrites earlier = .ok (earlier.getD [] ++ stream) :=
  receiveTo_appends .a c hfull earlier

/-- With the mode `"w"`, the output file is the stream. -/
theorem saved_exactly_of_w (c : Cutting stream) (hfull : ∀ n, BUFSIZE ≤ fwrites n)
    (earlier : Option (List Byte)) :
    receiveTo .w true c.recvs fwrites earlier = .ok stream :=
  receiveTo_appends .w c hfull earlier

end Stream

/-- The output file is the stream exactly if it was empty before or did not exist. -/
theorem saved_exactly_iff (stream : List Byte) (c : Cutting stream) (fwrites : ℕ → ℕ)
    (hfull : ∀ n, BUFSIZE ≤ fwrites n) (earlier : Option (List Byte)) :
    transferclient true c.recvs fwrites earlier = .ok stream ↔ earlier.getD [] = [] := by
  rw [transferclient_appends c hfull earlier, Except.ok.injEq]
  exact List.append_left_eq_self

/-- Two bytes, received one by one into a file that does not exist. -/
theorem saved_exactly_iff_new :
    transferclient true [some (ascii "h"), some (ascii "i")] (fun _ => 4096) none =
      .ok (ascii "hi") :=
  (saved_exactly_iff (ascii "hi") ⟨[ascii "h", ascii "i"], rfl, by decide, by decide⟩
    (fun _ => 4096) (fun _ => by decide) none).mpr rfl

/-- The file of an earlier run. -/
theorem earlier_content_stays :
    ¬ ∀ (stream : List Byte) (c : Cutting stream) (fwrites : ℕ → ℕ),
      (∀ n, BUFSIZE ≤ fwrites n) → ∀ earlier : Option (List Byte),
        transferclient true c.recvs fwrites earlier = .ok stream := by
  intro h
  have hsaved := h (ascii "b") ⟨[ascii "b"], rfl, by decide, by decide⟩ (fun _ => 4096)
    (fun _ => by decide) (some (ascii "a"))
  have hrun : transferclient true [some (ascii "b")] (fun _ => 4096) (some (ascii "a")) =
      .ok (ascii "ab") := rfl
  exact absurd (Except.ok.inj (hrun.symm.trans hsaved)) (by decide)

/-! ## Several runs -/

/-- A run of the client. -/
structure ClientRun where
  stream : List Byte
  cutting : Cutting stream

/-- Runs one after the other with the same output file. -/
def clientRuns (fwrites : ℕ → ℕ) : List ClientRun → Option (List Byte) → Except Fault (Option (List Byte))
  | [], file => .ok file
  | r :: rs, file => do
    let out ← transferclient true r.cutting.recvs fwrites file
    clientRuns fwrites rs (some out)

/-- After several runs the output file holds all their streams. -/
theorem transferclient_runs {fwrites : ℕ → ℕ} (hfull : ∀ n, BUFSIZE ≤ fwrites n)
    (rs : List ClientRun) (earlier : List Byte) :
    clientRuns fwrites rs (some earlier) = .ok (some (earlier ++ (rs.map (·.stream)).flatten)) := by
  induction rs generalizing earlier with
  | nil => rw [clientRuns, List.map_nil, List.flatten_nil, List.append_nil]
  | cons r rs ih =>
    rw [clientRuns, transferclient_appends r.cutting hfull, List.map_cons, List.flatten_cons,
      ← List.append_assoc]
    exact ih (earlier ++ r.stream)

end IntroOS.Transfer
