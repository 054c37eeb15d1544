import IntroOS.Gfserver.Model

/-!
# A `gfs_send` that tries again

Model of `gfs_send` in `pr1/gflib/copy/gfserver.c` (lines 66–89), an earlier version of the server:
`send` is called until it has accepted all the data. Its value goes into a `size_t` before it is
compared with zero, so the loop never sees an error: it counts `2^64 - 1` bytes.

The socket is that of `Gfserver.Model`, and `send` does what `write` does there. The texts on
`stdout` are left out.

Main results:

* `sendRounds_within`: whatever fails, nothing behind the data is read.
* `sendRounds_of_success`: without errors the loop counts the bytes that the socket accepts.
* `error_sends_again`: an error behind the first call goes back by one byte, which is sent again.
* `faithfulSend_iff`: the function is right exactly if no call but the first fails.
-/

namespace IntroOS.Gfserver.Copy

open CString Finset

/-! ## Model -/

/-- The local variables of `gfs_send`, with the socket. -/
structure SendLocals where
  total : ℕ
  bytesRemain : ℕ
  hSocket : Sock
  /-- `break` has been executed -/
  broken : Bool
  deriving DecidableEq, Repr

/-- `send(ctx->hSocket, data, len, 0)`. -/
def send (io : WriteResults) (s : Sock) (data : List Byte) : ℤ × Sock := write io s data

/-- The loop goes on. -/
def SendLocals.Continues (s : SendLocals) (data : List Byte) : Prop :=
  s.broken = false ∧ s.total < data.length

instance (s : SendLocals) (data : List Byte) : Decidable (s.Continues data) :=
  inferInstanceAs (Decidable (_ ∧ _))

/-- The body of the loop (lines 75–85). -/
def sendBody (io : WriteResults) (data : List Byte) (s : SendLocals) : Except Fault SendLocals :=
  -- `send` would read behind the data
  if data.length < s.total + s.bytesRemain then .error .wildPointer
  else
    let r := send io s.hSocket ((data.drop s.total).take s.bytesRemain)
    let n := sizeT r.1
    if n < 0 then .ok { s with hSocket := r.2, broken := true }
    else .ok { s with
      total := sizeT (s.total + n)
      bytesRemain := sizeT (s.bytesRemain - n)
      hSocket := r.2 }

/-- The variables after `k` rounds of the loop, or at its end if it comes before. -/
def sendRounds (io : WriteResults) (data : List Byte) : ℕ → Except Fault SendLocals
  | 0 => .ok ⟨0, sizeT data.length, Sock.new, false⟩
  | k + 1 => do
    let s ← sendRounds io data k
    if s.Continues data then sendBody io data s else return s

/-- Conversion to `ssize_t`. -/
@[irreducible] def ssizeT (n : ℕ) : ℤ := (n : ℤ).bmod (2 ^ 64)

/-- `gfs_send`: its value and the socket, if the loop has ended after `k` rounds. -/
def gfsSend (io : WriteResults) (data : List Byte) (k : ℕ) : Except Fault (Option (ℤ × Sock)) :=
  (sendRounds io data k).map fun s =>
    if s.Continues data then none else some (ssizeT s.total, s.hSocket)

/-! ## What is expected -/

/-- The loop with these results of `send` is right. -/
structure FaithfulSend (io : WriteResults) (data : List Byte) : Prop where
  /-- nothing behind the data is read, and the socket has always accepted a first part of it -/
  accepted : ∀ k, ∃ s, sendRounds io data k = .ok s ∧ s.hSocket.wire <+: data
  /-- the loop ends with an error -/
  stops : ∀ k s s', sendRounds io data k = .ok s → s.Continues data → io s.hSocket.calls = none →
    sendRounds io data (k + 1) = .ok s' → ¬ s'.Continues data
  /-- without an error the value is the number of accepted bytes -/
  value : ∀ k v sock, gfsSend io data k = .ok (some (v, sock)) → (∀ j < sock.calls, io j ≠ none) →
    v = sock.wire.length
  /-- and there is a value -/
  returns : (∀ j, io j ≠ none) → ∃ k v sock, gfsSend io data k = .ok (some (v, sock))

/-- The number of bytes that the first `k` calls can accept. -/
def capacity (io : WriteResults) (k : ℕ) : ℕ := ∑ j ∈ range k, (io j).getD 0

/-- No call but the first fails while there are bytes left. -/
def OnlyFirstFails (io : WriteResults) (data : List Byte) : Prop :=
  ∀ k, 0 < k → (∀ j < k, io j ≠ none) → capacity io k < data.length → io k ≠ none

/-! ## One round -/

section Round

variable {io : WriteResults} {data : List Byte} {s s' : SendLocals} {k c : ℕ}

theorem capacity_succ (h : io k = some c) : capacity io (k + 1) = capacity io k + c := by
  rw [capacity, sum_range_succ, h]
  rfl

theorem capacity_mono {j k : ℕ} (h : j ≤ k) : capacity io j ≤ capacity io k := by
  apply sum_le_sum_of_subset
  exact range_subset_range.mpr h

/-- The variables after `k` calls that have not failed. -/
def afterSuccess (io : WriteResults) (data : List Byte) (k : ℕ) : SendLocals where
  total := min (capacity io k) data.length
  bytesRemain := data.length - min (capacity io k) data.length
  hSocket := ⟨data.take (capacity io k), k, 0⟩
  broken := false

/-- The variables after a first call that has failed. -/
def afterError (data : List Byte) : SendLocals :=
  ⟨2 ^ 64 - 1, data.length + 1, ⟨[], 1, 0⟩, false⟩

/-- A value of `send` that is not an error. -/
theorem sendBody_success (hlen : data.length < 2 ^ 63) (hlt : capacity io k < data.length)
    (hio : io k = some c) :
    sendBody io data (afterSuccess io data k) = .ok (afterSuccess io data (k + 1)) := by
  have hmin : min (capacity io k) data.length = capacity io k := min_eq_left hlt.le
  have hall : (data.drop (capacity io k)).take (data.length - capacity io k) =
      data.drop (capacity io k) := by
    apply List.take_of_length_le
    rw [List.length_drop]
  have hsend : send io ⟨data.take (capacity io k), k, 0⟩ (data.drop (capacity io k)) =
      (((min c (data.length - capacity io k) : ℕ) : ℤ),
        (⟨data.take (capacity io (k + 1)), k + 1, 0⟩ : Sock)) := by
    simp [send, write, Sock.closed, hio, capacity_succ hio, List.take_add]
  have hn : sizeT (min c (data.length - capacity io k) : ℕ) =
      min c (data.length - capacity io k) := by
    apply sizeT_natCast
    omega
  unfold sendBody
  simp only [afterSuccess, hmin, hall, hsend, hn]
  rw [if_neg (by omega), if_neg (Nat.not_lt_zero _)]
  simp only [Except.ok.injEq, SendLocals.mk.injEq, and_true]
  rw [capacity_succ hio]
  unfold sizeT
  omega

/-- A value of `send` that is an error: the loop goes back by one byte. -/
theorem sendBody_error (hlt : capacity io k < data.length) (hio : io k = none) :
    sendBody io data (afterSuccess io data k) = .ok
      ⟨sizeT (capacity io k - 1), sizeT (data.length - capacity io k + 1),
        ⟨data.take (capacity io k), k + 1, 0⟩, false⟩ := by
  have hmin : min (capacity io k) data.length = capacity io k := min_eq_left hlt.le
  have hsend : ∀ chunk, send io ⟨data.take (capacity io k), k, 0⟩ chunk =
      (-1, (⟨data.take (capacity io k), k + 1, 0⟩ : Sock)) := by
    intro chunk
    simp [send, write, Sock.closed, hio]
  unfold sendBody
  simp only [afterSuccess, hmin, hsend]
  rw [if_neg (by omega), if_neg (Nat.not_lt_zero _)]
  simp only [Except.ok.injEq, SendLocals.mk.injEq, and_true]
  unfold sizeT
  omega

end Round

/-! ## Reading within the data -/

/-- The bytes that are offered end with the data. -/
structure Within (data : List Byte) (s : SendLocals) : Prop where
  lt : s.total < 2 ^ 64
  ends : s.total < data.length → s.total + s.bytesRemain = data.length

section Reading

variable {io : WriteResults} {data : List Byte} {s : SendLocals}

theorem send_value (io : WriteResults) (s : Sock) (chunk : List Byte) :
    (send io s chunk).1 = -1 ∨ ∃ n : ℕ, n ≤ chunk.length ∧ (send io s chunk).1 = n := by
  unfold send write
  dsimp only
  split_ifs
  · exact Or.inl rfl
  · cases io s.calls with
    | none => exact Or.inl rfl
    | some c => exact Or.inr ⟨min c chunk.length, min_le_right _ _, (Nat.cast_min ..).symm⟩

theorem Within.body (h : Within data s) (hlen : data.length < 2 ^ 63) (hs : s.Continues data) :
    ∃ s', sendBody io data s = .ok s' ∧ Within data s' := by
  have hends := h.ends hs.2
  have hvalue := send_value io s.hSocket ((data.drop s.total).take s.bytesRemain)
  have hchunk : ((data.drop s.total).take s.bytesRemain).length = s.bytesRemain := by
    rw [List.length_take, List.length_drop]
    omega
  rw [hchunk] at hvalue
  unfold sendBody
  dsimp only
  rw [if_neg (by omega), if_neg (Nat.not_lt_zero _)]
  refine ⟨_, rfl, sizeT_lt _, ?_⟩
  dsimp only
  rcases hvalue with herror | ⟨n, hn, hok⟩
  · rw [herror]
    unfold sizeT
    omega
  · rw [hok]
    unfold sizeT
    omega

/-- Nothing behind the data is read, whatever `send` returns. -/
theorem sendRounds_within (io : WriteResults) (data : List Byte) (hlen : data.length < 2 ^ 63)
    (k : ℕ) : ∃ s, sendRounds io data k = .ok s ∧ Within data s := by
  induction k with
  | zero =>
    refine ⟨_, rfl, Nat.two_pow_pos 64, fun _ => ?_⟩
    dsimp only
    rw [sizeT_natCast (by omega), Nat.zero_add]
  | succ k ih =>
    obtain ⟨s, hs, hwithin⟩ := ih
    by_cases hgo : s.Continues data
    · obtain ⟨s', hs', hwithin'⟩ : ∃ s', sendBody io data s = .ok s' ∧ Within data s' :=
        hwithin.body hlen hgo
      refine ⟨s', ?_, hwithin'⟩
      rw [sendRounds, hs]
      exact (if_pos hgo).trans hs'
    · refine ⟨s, ?_, hwithin⟩
      rw [sendRounds, hs]
      exact if_neg hgo

end Reading

/-! ## The rounds -/

section Rounds

variable {io : WriteResults} {data : List Byte} {s s' : SendLocals} {k : ℕ}

theorem sendRounds_succ (hs : sendRounds io data k = .ok s) (hgo : s.Continues data) :
    sendRounds io data (k + 1) = sendBody io data s := by
  rw [sendRounds, hs]
  exact if_pos hgo

theorem sendRounds_stay (hs : sendRounds io data k = .ok s) (hend : ¬ s.Continues data) :
    sendRounds io data (k + 1) = .ok s := by
  rw [sendRounds, hs]
  exact if_neg hend

theorem sendRounds_zero (hlen : data.length < 2 ^ 63) :
    sendRounds io data 0 = .ok (afterSuccess io data 0) := by
  have hsize : sizeT data.length = data.length := sizeT_natCast (by omega)
  rw [sendRounds, hsize]
  simp [afterSuccess, capacity, Sock.new]

/-- The loop goes on while the calls have not been able to accept everything. -/
theorem continues_afterSuccess :
    (afterSuccess io data k).Continues data ↔ capacity io k < data.length := by
  have hmin := min_le_left (capacity io k) data.length
  constructor
  · rintro ⟨-, hlt⟩
    dsimp only [afterSuccess] at hlt
    omega
  · intro hlt
    exact ⟨rfl, hmin.trans_lt hlt⟩

theorem not_continues_afterError (hlen : data.length < 2 ^ 63) :
    ¬ (afterError data).Continues data := by
  rintro ⟨-, hlt⟩
  dsimp only [afterError] at hlt
  omega

/-- Calls that do not fail are counted right. -/
theorem sendRounds_of_success (hlen : data.length < 2 ^ 63) (hio : ∀ j < k, io j ≠ none)
    (hlt : ∀ j < k, capacity io j < data.length) :
    sendRounds io data k = .ok (afterSuccess io data k) := by
  induction k with
  | zero => exact sendRounds_zero hlen
  | succ k ih =>
    have hk := hlt k (Nat.lt_succ_self k)
    have hs := ih (fun j hj => hio j (hj.trans (Nat.lt_succ_self k)))
      fun j hj => hlt j (hj.trans (Nat.lt_succ_self k))
    obtain ⟨c, hc⟩ := Option.ne_none_iff_exists'.mp (hio k (Nat.lt_succ_self k))
    rw [sendRounds_succ hs (continues_afterSuccess.mpr hk)]
    exact sendBody_success hlen hk hc

/-- An error behind a call that has accepted something does not end the loop. It goes on with the
    byte that has been accepted last. -/
theorem error_sends_again (hlen : data.length < 2 ^ 63) (hio : ∀ j < k, io j ≠ none)
    (hlt : capacity io k < data.length) (hpos : 0 < capacity io k) (herror : io k = none) :
    ∃ s, sendRounds io data (k + 1) = .ok s ∧ s.Continues data ∧
      s.hSocket.wire = data.take (capacity io k) ∧ s.total + 1 = capacity io k := by
  have hs := sendRounds_of_success hlen hio fun j hj => (capacity_mono hj.le).trans_lt hlt
  have hback : sizeT ((capacity io k : ℤ) - 1) = capacity io k - 1 := by
    unfold sizeT
    omega
  refine ⟨_, (sendRounds_succ hs (continues_afterSuccess.mpr hlt)).trans
    (sendBody_error hlt herror), ⟨rfl, ?_⟩, rfl, ?_⟩
  · dsimp only
    omega
  · dsimp only
    omega

/-- What the variables can be if no call but the first fails. -/
inductive Sound (io : WriteResults) (data : List Byte) : SendLocals → Prop
  | success (k : ℕ) (hio : ∀ j < k, io j ≠ none) : Sound io data (afterSuccess io data k)
  | error (hio : io 0 = none) : Sound io data (afterError data)

theorem Sound.body (h : Sound io data s) (hlen : data.length < 2 ^ 63)
    (hcond : OnlyFirstFails io data) (hgo : s.Continues data) :
    ∃ s', sendBody io data s = .ok s' ∧ Sound io data s' ∧
      (io s.hSocket.calls = none → ¬ s'.Continues data) := by
  cases h with
  | error => exact absurd hgo (not_continues_afterError hlen)
  | success k hio =>
    have hlt := continues_afterSuccess.mp hgo
    cases hk : io k with
    | some c =>
      refine ⟨_, sendBody_success hlen hlt hk, .success (k + 1) fun j hj => ?_, fun hnone => ?_⟩
      · rcases Nat.lt_succ_iff_lt_or_eq.mp hj with hj | rfl
        · exact hio j hj
        · rw [hk]
          exact Option.some_ne_none c
      · exact absurd (hk.symm.trans hnone) (Option.some_ne_none c)
    | none =>
      -- the failing call is the first one, and `2^64 - 1` bytes are more than there are
      obtain rfl : k = 0 := by
        by_contra hne
        exact hcond k (Nat.pos_of_ne_zero hne) hio hlt hk
      have herror := sendBody_error hlt hk
      have hfirst : (⟨sizeT ((capacity io 0 : ℤ) - 1), sizeT ((data.length : ℤ) - capacity io 0 + 1),
          ⟨data.take (capacity io 0), 1, 0⟩, false⟩ : SendLocals) = afterError data := by
        have hzero : capacity io 0 = 0 := rfl
        simp only [hzero, afterError, SendLocals.mk.injEq, List.take_zero, and_self, and_true]
        unfold sizeT
        omega
      rw [Nat.zero_add, hfirst] at herror
      exact ⟨_, herror, .error hk, fun _ => not_continues_afterError hlen⟩

theorem sendRounds_sound (hlen : data.length < 2 ^ 63) (hcond : OnlyFirstFails io data) (k : ℕ) :
    ∃ s, sendRounds io data k = .ok s ∧ Sound io data s := by
  induction k with
  | zero => exact ⟨_, sendRounds_zero hlen, .success 0 nofun⟩
  | succ k ih =>
    obtain ⟨s, hs, hsound⟩ := ih
    by_cases hgo : s.Continues data
    · obtain ⟨s', hs', hsound', -⟩ := hsound.body hlen hcond hgo
      exact ⟨s', (sendRounds_succ hs hgo).trans hs', hsound'⟩
    · exact ⟨s, sendRounds_stay hs hgo, hsound⟩

theorem Sound.wire (h : Sound io data s) : s.hSocket.wire <+: data := by
  cases h with
  | success k => exact List.take_prefix _ _
  | error => exact List.nil_prefix

/-- Without an error, the loop ends when everything has been accepted. -/
theorem Sound.value (h : Sound io data s) (hlen : data.length < 2 ^ 63)
    (hio : ∀ j < s.hSocket.calls, io j ≠ none) : ssizeT s.total = s.hSocket.wire.length := by
  cases h with
  | success k =>
    dsimp only [afterSuccess]
    rw [List.length_take]
    unfold ssizeT
    exact Int.bmod_eq_of_le (by omega) (by omega)
  | error hnone => exact absurd hnone (hio 0 Nat.one_pos)

/-- Every call that does not fail accepts a byte. -/
theorem le_capacity (hpos : ∀ n c, io n = some c → 0 < c) (hio : ∀ j, io j ≠ none) (k : ℕ) :
    k ≤ capacity io k := by
  induction k with
  | zero => exact Nat.zero_le _
  | succ k ih =>
    obtain ⟨c, hc⟩ := Option.ne_none_iff_exists'.mp (hio k)
    have hone := hpos k c hc
    rw [capacity_succ hc]
    omega

theorem gfsSend_eq_some {v : ℤ} {sock : Sock} (h : gfsSend io data k = .ok (some (v, sock))) :
    ∃ s, sendRounds io data k = .ok s ∧ v = ssizeT s.total ∧ sock = s.hSocket := by
  unfold gfsSend at h
  cases hs : sendRounds io data k with
  | error f => rw [hs] at h; cases h
  | ok s =>
    simp only [hs, Except.map, Except.ok.injEq] at h
    split_ifs at h with hgo
    simp only [Option.some.injEq, Prod.mk.injEq] at h
    exact ⟨s, rfl, h.1.symm, h.2.symm⟩

theorem gfsSend_returns (hlen : data.length < 2 ^ 63) (hpos : ∀ n c, io n = some c → 0 < c)
    (hio : ∀ j, io j ≠ none) : ∃ k v sock, gfsSend io data k = .ok (some (v, sock)) := by
  -- the first round at which everything has been accepted
  have hex : ∃ k, data.length ≤ capacity io k := ⟨data.length, le_capacity hpos hio _⟩
  have hs := sendRounds_of_success (k := Nat.find hex) hlen (fun j _ => hio j)
    fun j hj => not_le.mp (Nat.find_min hex hj)
  have hend : ¬ (afterSuccess io data (Nat.find hex)).Continues data := by
    rw [continues_afterSuccess]
    exact not_lt.mpr (Nat.find_spec hex)
  let s := afterSuccess io data (Nat.find hex)
  refine ⟨Nat.find hex, ssizeT s.total, s.hSocket, ?_⟩
  rw [gfsSend, hs]
  exact congrArg Except.ok (if_neg hend)

end Rounds

/-- The function is right exactly if no call of `send` but the first fails while there are bytes
    left. -/
theorem faithfulSend_iff (io : WriteResults) (data : List Byte) (hlen : data.length < 2 ^ 63)
    (hpos : ∀ n c, io n = some c → 0 < c) : FaithfulSend io data ↔ OnlyFirstFails io data := by
  constructor
  · intro h k hk hio hlt herror
    have hs := sendRounds_of_success hlen hio fun j hj => (capacity_mono hj.le).trans_lt hlt
    have hsome : 0 < capacity io k := by
      obtain ⟨c, hc⟩ := Option.ne_none_iff_exists'.mp (hio 0 hk)
      have hone := hpos 0 c hc
      have hle : capacity io (0 + 1) ≤ capacity io k := by
        apply capacity_mono
        omega
      rw [capacity_succ hc] at hle
      omega
    obtain ⟨s', hs', hgo, -⟩ := error_sends_again hlen hio hlt hsome herror
    exact h.stops k _ s' hs (continues_afterSuccess.mpr hlt) herror hs' hgo
  · intro hcond
    refine ⟨fun k => ?_, ?_, ?_, gfsSend_returns hlen hpos⟩
    · obtain ⟨s, hs, hsound⟩ := sendRounds_sound hlen hcond k
      exact ⟨s, hs, hsound.wire⟩
    · intro k s s' hs hgo herror hs'
      obtain ⟨t, ht, hsound⟩ := sendRounds_sound hlen hcond k
      obtain rfl : s = t := Except.ok.inj (hs.symm.trans ht)
      obtain ⟨t', ht', -, hstop⟩ := hsound.body hlen hcond hgo
      obtain rfl : s' = t' :=
        Except.ok.inj (hs'.symm.trans ((sendRounds_succ hs hgo).trans ht'))
      exact hstop herror
    · intro k v sock hret hio
      obtain ⟨s, hs, rfl, rfl⟩ := gfsSend_eq_some hret
      obtain ⟨t, ht, hsound⟩ := sendRounds_sound hlen hcond k
      obtain rfl : s = t := Except.ok.inj (hs.symm.trans ht)
      exact hsound.value hlen hio

/-- Two bytes, accepted one by one. -/
theorem faithfulSend_iff_bytewise : FaithfulSend (fun _ => some 1) (ascii "ab") := by
  apply (faithfulSend_iff (fun _ => some 1) (ascii "ab") (by decide) ?_).mpr
  · intro k _ _ _
    exact Option.some_ne_none 1
  · intro n c hc
    cases hc
    exact Nat.one_pos

/-- One byte is accepted, then a call fails, and then "ab" is sent from its start. -/
theorem error_repeats_byte :
    ¬ ∀ (io : WriteResults) (data : List Byte), data.length < 2 ^ 63 →
      (∀ n c, io n = some c → 0 < c) → FaithfulSend io data := by
  intro h
  have hfaithful := h (fun n => if n = 0 then some 1 else if n = 1 then none else some 4096)
    (ascii "ab") (by decide) (by intro n c hc; split_ifs at hc <;> cases hc <;> decide)
  obtain ⟨s, hs, hwire⟩ := hfaithful.accepted 3
  have hrun : sendRounds (fun n => if n = 0 then some 1 else if n = 1 then none else some 4096)
      (ascii "ab") 3 = .ok ⟨2, 0, ⟨ascii "aab", 3, 0⟩, false⟩ := by decide +kernel
  rw [hrun] at hs
  cases hs
  exact absurd hwire (by decide)

end IntroOS.Gfserver.Copy
