import IntroOS.Gfclient.Survival
import IntroOS.Gfclient.Transfer
import IntroOS.Gfserver.Wire

/-!
# The status of a request

What `gfc_perform` returns and leaves in `status`, for every stream, every cutting of it and
every ending, and how this compares with the grammar of responses.

Main results:

* `exists_receives`: the chunks that a request receives, and whether it sees the end.
* `after_phase`: what the client knows after some chunks.
* `Receives.returned`: what is returned, by what has been received.
* `status_faithful_iff`: the streams on which the status is faithful.
-/

namespace IntroOS.Gfclient

open CString Concurrency

/-! ## The run, chunk by chunk -/

section Run

variable {cfg : Config} {e : Ending} {c : Chunk} {cs rest : List Chunk} {l : StrLocals} {v : View}
  {flow : StrFlow}

/-- One iteration with a chunk. -/
def strChunk (cfg : Config) (c : Chunk) (l : StrLocals) (v : View) : Except Fault StrFlow :=
  let l := { l with bytesReceivedTotal := sizeT (l.bytesReceivedTotal + c.data.length) }
  let v := { v with bytesreceived := l.bytesReceivedTotal }
  if l.headercheck then .ok (strBodyChunk cfg c l v) else strHeaderChunk cfg c l v

/-- What `flow` becomes with one more chunk. -/
def StrFlow.recv (cfg : Config) (flow : StrFlow) (c : Chunk) : Except Fault StrFlow :=
  match flow with
  | .done ret v => .ok (.done ret v)
  | .next l v => strChunk cfg c l v

/-- What `flow` becomes with the chunks `cs`. -/
def StrFlow.after (cfg : Config) (cs : List Chunk) (flow : StrFlow) : Except Fault StrFlow :=
  cs.foldlM (StrFlow.recv cfg) flow

theorem StrFlow.continue_append (flow : StrFlow) :
    flow.continue cfg e (cs ++ rest) = (flow.after cfg cs).bind (StrFlow.continue cfg e rest) := by
  induction cs generalizing flow with
  | nil => rfl
  | cons c cs ih =>
    have hrec : flow.after cfg (c :: cs) = (flow.recv cfg c).bind (StrFlow.after cfg cs) :=
      List.foldlM_cons
    rw [hrec, List.cons_append]
    cases flow with
    | done ret v =>
      have h := ih (.done ret v)
      rw [show (StrFlow.done ret v).recv cfg c = .ok (.done ret v) from rfl]
      exact h
    | next l v =>
      have hchunk : (StrFlow.next l v).continue cfg e (c :: (cs ++ rest)) =
          (strChunk cfg c l v).bind (StrFlow.continue cfg e (cs ++ rest)) := by
        rw [StrFlow.continue, perform]
        rfl
      rw [hchunk, show (StrFlow.next l v).recv cfg c = strChunk cfg c l v from rfl]
      cases strChunk cfg c l v with
      | error f => rfl
      | ok flow' => exact ih flow'

theorem StrFlow.after_concat (flow : StrFlow) :
    flow.after cfg (cs ++ [c]) = (flow.after cfg cs).bind (StrFlow.recv cfg · c) := by
  unfold StrFlow.after
  rw [List.foldlM_append]
  refine bind_congr fun f => ?_
  rw [List.foldlM_cons]
  exact bind_pure _

/-- The flow when the loop begins. -/
def StrFlow.start (cfg : Config) : StrFlow := .next ⟨[], false, 0, 0⟩ (View.initial ⟨0, 0⟩ cfg.path)

theorem performRequest_append :
    performRequest cfg ⟨cs ++ rest, e⟩ ⟨0, 0⟩ =
      ((StrFlow.start cfg).after cfg cs).bind (StrFlow.continue cfg e rest) :=
  (StrFlow.start cfg).continue_append

end Run

/-! ## What a request receives -/

section Receives

variable {junk : Gfcrequest} {cfg : Config} {cs : List Chunk}

/-- The request has returned when it has received `cs`: what comes then does not matter. -/
def Ignores (junk : Gfcrequest) (cfg : Config) (cs : List Chunk) : Prop :=
  ∀ rest e, request junk cfg ⟨cs ++ rest, e⟩ = request junk cfg ⟨cs, .close⟩

/-- Of the results of `recv` in `rs`, the request receives the chunks `got`, and the end `last`
    if it has not returned before. -/
structure Receives (junk : Gfcrequest) (cfg : Config) (rs : Recvs) (got : List Chunk)
    (last : Option Ending) : Prop where
  got_prefix : got <+: rs.chunks
  waits : ∀ cs, cs <+: got → cs ≠ got → ¬ Ignores junk cfg cs
  last : Ignores junk cfg got ∧ last = none ∨
    ¬ Ignores junk cfg got ∧ got = rs.chunks ∧ last = some rs.ending

theorem exists_receives (junk : Gfcrequest) (cfg : Config) (rs : Recvs) :
    ∃ got last, Receives junk cfg rs got last := by
  obtain ⟨chunks, e⟩ := rs
  induction chunks using List.reverseRecOn with
  | nil =>
    by_cases h : Ignores junk cfg []
    · exact ⟨[], none, List.nil_prefix, fun cs hcs hne => absurd (List.prefix_nil.mp hcs) hne,
        Or.inl ⟨h, rfl⟩⟩
    · exact ⟨[], some e, List.nil_prefix, fun cs hcs hne => absurd (List.prefix_nil.mp hcs) hne,
        Or.inr ⟨h, rfl, rfl⟩⟩
  | append_singleton cs c ih =>
    obtain ⟨got, last, hpre, hwaits, hlast⟩ := ih
    rcases hlast with hlast | ⟨hno, hgot, -⟩
    · exact ⟨got, last, hpre.trans (List.prefix_append _ _), hwaits, Or.inl hlast⟩
    · rw [show got = cs from hgot] at hno hwaits
      have hwaits' : ∀ ds, ds <+: cs ++ [c] → ds ≠ cs ++ [c] → ¬ Ignores junk cfg ds := by
        intro ds hds hne
        have hds' := (List.prefix_concat_iff.mp hds).resolve_left hne
        rcases eq_or_ne ds cs with hcs | hne'
        · rw [hcs]
          exact hno
        · exact hwaits ds hds' hne'
      by_cases h : Ignores junk cfg (cs ++ [c])
      · exact ⟨cs ++ [c], none, List.prefix_refl _, hwaits', Or.inl ⟨h, rfl⟩⟩
      · exact ⟨cs ++ [c], some e, List.prefix_refl _, hwaits', Or.inr ⟨h, rfl, rfl⟩⟩

theorem request_after (junk : Gfcrequest) (cfg : Config) (cs rest : List Chunk) (e : Ending) :
    request junk cfg ⟨cs ++ rest, e⟩ =
      (((StrFlow.start cfg).after cfg cs).bind (StrFlow.continue cfg e rest)).map
        fun b => (b.2.outcome b.1, b.2.log) := by
  rw [request_eq, performRequest_append]

/-- What a request ends with that has received `cs` when the connection ends. -/
theorem request_end {l : StrLocals} {v : View}
    (h : (StrFlow.start cfg).after cfg cs = .ok (.next l v)) (e : Ending) :
    request junk cfg ⟨cs, e⟩ = (strRecvEnd e l v).map fun b => (b.2.outcome b.1, b.2.log) := by
  have hrun := request_after junk cfg cs [] e
  rw [List.append_nil, h] at hrun
  exact hrun

/-- The end of the connection adds the value of `recv` to the count. -/
theorem strRecvEnd_received {e : Ending} {l : StrLocals} {v v' : View} {ret : ℤ}
    (h : strRecvEnd e l v = .ok (ret, v')) :
    v'.bytesreceived = sizeT (l.bytesReceivedTotal + e.bytesrecv) := by
  cases e with
  | error => cases h; rfl
  | close =>
    unfold strRecvEnd at h
    dsimp only at h
    cases hs : firstToken (ascii " ") (restToken (ascii " ") l.fullData) with
    | none => simp [hs] at h
    | some status =>
      simp only [hs] at h
      cases hf : firstToken (ascii " \r\n") (restToken (ascii " ") (restToken (ascii " ") l.fullData))
      all_goals
        simp only [hf] at h
        split_ifs at h <;> cases h <;> rfl

/-- A request that goes on tells an error from a close. -/
theorem not_ignores_of_next {l : StrLocals} {v : View}
    (h : (StrFlow.start cfg).after cfg cs = .ok (.next l v)) : ¬ Ignores junk cfg cs := by
  intro hig
  have hsame := hig [] .error
  rw [List.append_nil, request_end h, request_end h] at hsame
  cases hclose : strRecvEnd .close l v with
  | error f => rw [hclose] at hsame; cases hsame
  | ok b =>
    have htotal := strRecvEnd_received hclose
    rw [hclose] at hsame
    have hcount : sizeT (l.bytesReceivedTotal + Ending.error.bytesrecv) = b.2.bytesreceived :=
      congrArg Outcome.recvTotal (Prod.mk.inj (Except.ok.inj hsame)).1
    rw [htotal] at hcount
    unfold sizeT Ending.bytesrecv at hcount
    simp only at hcount
    omega

theorem ignores_iff : Ignores junk cfg cs ↔
    ∀ l v, (StrFlow.start cfg).after cfg cs ≠ .ok (.next l v) := by
  refine ⟨fun h l v hnext => not_ignores_of_next hnext h, fun h rest e => ?_⟩
  have hclose := request_after junk cfg cs [] .close
  rw [List.append_nil] at hclose
  rw [request_after, hclose]
  cases hflow : (StrFlow.start cfg).after cfg cs with
  | error f => rfl
  | ok flow =>
    cases flow with
    | done ret v => rfl
    | next l v => exact absurd hflow (h l v)

end Receives

/-! ## Parsing the header -/

/-- The word behind the scheme. -/
def statusWord (s : List Byte) : Option (List Byte) :=
  firstToken (ascii " \r\n") (restToken (ascii " ") s)

/-- What parsing the header leads to. -/
inductive Parsed (l : StrLocals) (v : View) : StrFlow → Prop
  | rejected (v' : View) : 7 < l.bytesReceivedTotal →
      firstToken (ascii " ") l.fullData ≠ some (ascii "GETFILE") → v'.status = .invalid →
      Parsed l v (.done (-1) v')
  | waits : Waits l.fullData l.bytesReceivedTotal →
      ¬ (10 < l.bytesReceivedTotal ∧ statusWord l.fullData = some (ascii "OK")) →
      Parsed l v (.next l v)
  | waitsOk : Waits l.fullData l.bytesReceivedTotal → 10 < l.bytesReceivedTotal →
      statusWord l.fullData = some (ascii "OK") → Parsed l v (.next l { v with status := .ok })
  | fileNotFound (v' : View) : firstToken (ascii " ") l.fullData = some (ascii "GETFILE") →
      10 < l.bytesReceivedTotal → statusWord l.fullData = some (ascii "FILE_NOT_FOUND") →
      v'.status = .fileNotFound → Parsed l v (.done 0 v')
  | error (v' : View) : firstToken (ascii " ") l.fullData = some (ascii "GETFILE") →
      10 < l.bytesReceivedTotal → statusWord l.fullData = some (ascii "ERROR") →
      v'.status = .error → Parsed l v (.done 0 v')
  | body (l' : StrLocals) (v' : View) : 10 < l.bytesReceivedTotal →
      bodyStart l.fullData ≠ none → l'.headercheck = true → l'.fullData = l.fullData →
      v'.status = .ok → Parsed l v (.next l' v')
  | complete (v' : View) : 10 < l.bytesReceivedTotal → bodyStart l.fullData ≠ none →
      v'.status = .ok → Parsed l v (.done 0 v')

theorem strHeaderOk_parsed (cfg : Config) {l : StrLocals} (v : View) {r : List Byte}
    (h10 : 10 < l.bytesReceivedTotal) (hbody : bodyStart l.fullData = some r) :
    Parsed l v
      (strHeaderOk cfg (restToken (ascii " \r\n") (restToken (ascii " ") l.fullData)) l v) := by
  have hne : bodyStart l.fullData ≠ none := by
    rw [hbody]
    exact nofun
  rcases strHeaderOk_cases cfg l v (bodyStart_eq_some_iff.mp hbody).2.2 with
    ⟨n, hflow⟩ | ⟨filelen, data, -, hflow⟩
  · rw [hflow]
    exact .body _ _ h10 hne rfl rfl rfl
  · rw [hflow]
    unfold strFirstData
    dsimp only
    split_ifs
    · exact .complete _ h10 hne rfl
    · exact .body _ _ h10 hne rfl rfl rfl

theorem strParseHeader_parsed {cfg : Config} {l : StrLocals} {v : View} {flow : StrFlow}
    (h : strParseHeader cfg l v = .ok flow) : Parsed l v flow := by
  have hcase := strParseHeader_case cfg l v
  rw [h] at hcase
  cases hcase with
  | short h7 => exact .waits (Or.inl h7) (by omega)
  | otherScheme scheme h7 hscheme hget => exact .rejected _ h7 (by simpa [hscheme] using hget) rfl
  | noWord h10 hscheme => exact .waits (Or.inr ⟨hscheme, Or.inl h10⟩) (by omega)
  | okWaits h10 hscheme hstatus hbody =>
    refine .waitsOk (Or.inr ⟨hscheme, Or.inr ⟨hbody, ?_⟩⟩) h10 hstatus
    rw [hstatus]
    decide
  | ok r h10 hbody => exact strHeaderOk_parsed cfg v h10 hbody
  | fileNotFound h10 hscheme hstatus => exact .fileNotFound _ hscheme h10 hstatus rfl
  | error h10 hscheme hstatus => exact .error _ hscheme h10 hstatus rfl
  | otherStatus status h10 hscheme hstatus hok hfnf herr =>
    have hnot : statusWord l.fullData ≠ some (ascii "OK") := by
      rw [statusWord, hstatus, ne_eq, Option.some.injEq]
      exact hok
    refine .waits (Or.inr ⟨hscheme, Or.inr ⟨bodyStart_eq_none hnot, ?_, ?_⟩⟩) fun h => hnot h.2
    · simpa [hstatus] using hfnf
    · simpa [hstatus] using herr

theorem strHeaderChunk_parsed {cfg : Config} {c : Chunk} {l : StrLocals} {v : View}
    {flow : StrFlow} (h : strHeaderChunk cfg c l v = .ok flow) :
    Parsed { l with fullData := l.fullData ++ c.data.takeWhile (· ≠ 0) } v flow := by
  unfold strHeaderChunk at h
  rw [cstr_recvBuf] at h
  by_cases hfull : c.data.length < BUFSIZE ∨ 0 ∈ c.data
  · rw [if_pos hfull] at h
    dsimp only [Except.bind] at h
    split_ifs at h
    exact strParseHeader_parsed h
  · rw [if_neg hfull] at h
    cases h

theorem strBodyChunk_cases (cfg : Config) (c : Chunk) (l : StrLocals) (v : View) :
    (∃ v', strBodyChunk cfg c l v = .done 0 v' ∧ v'.status = v.status) ∨
      ∃ l' v', strBodyChunk cfg c l v = .next l' v' ∧ l'.headercheck = l.headercheck ∧
        l'.fullData = l.fullData ∧ v'.status = v.status := by
  unfold strBodyChunk
  dsimp only
  split_ifs
  · exact Or.inl ⟨_, rfl, rfl⟩
  · exact Or.inr ⟨_, _, rfl, rfl, rfl, rfl⟩

/-! ## Words that do not change any more -/

section Words

variable {s t : List Byte}

/-- The first two words, separated by spaces, are the ones that a close accepts. -/
def Accepted (s : List Byte) : Prop :=
  firstToken (ascii " ") s = some (ascii "GETFILE") ∧
    firstToken (ascii " ") (restToken (ascii " ") s) = some (ascii "OK")

/-- The first two tokens of a header with its length, and what is behind them. -/
theorem bodyStart_tokens (h : bodyStart s ≠ none) : ∃ u u',
    token (ascii " ") s = some (ascii "GETFILE", u) ∧ token (ascii " \r\n") u = some (ascii "OK", u') ∧
      u ≠ [] ∧ u' ≠ [] := by
  obtain ⟨r, hr⟩ := Option.ne_none_iff_exists'.mp h
  obtain ⟨h₁, h₂, h₃⟩ := bodyStart_eq_some_iff.mp hr
  refine ⟨_, _, token_eq_some h₁, token_eq_some h₂, ?_, ?_⟩
  · intro hu
    rw [hu, firstToken_nil] at h₂
    cases h₂
  · intro hu
    rw [hu] at h₃
    cases h₃

theorem scheme_append (h : bodyStart s ≠ none) (t : List Byte) :
    firstToken (ascii " ") (s ++ t) = some (ascii "GETFILE") := by
  obtain ⟨u, u', hu, -, hne, -⟩ := bodyStart_tokens h
  exact (firstToken_of_token (token_append_rest hu hne t)).1

/-- If "OK" is the first word for both sets of delimiters, it has the same rest. -/
theorem token_ok_space {u u' : List Byte} (h : token (ascii " \r\n") u = some (ascii "OK", u'))
    (hne : u' ≠ []) :
    firstToken (ascii " ") u = some (ascii "OK") ↔ token (ascii " ") u = some (ascii "OK", u') := by
  refine ⟨fun hok => ?_, fun hok => (firstToken_of_token hok).1⟩
  have hsub : ∀ a ∈ ascii " ", a ∈ ascii " \r\n" := by decide +kernel
  have hOK : ∀ a ∈ ascii "OK", a ∉ ascii " \r\n" := by decide +kernel
  obtain ⟨sp, hsp, hw, -, ⟨hu, -⟩ | ⟨y, hy, hu⟩⟩ := token_eq_some_iff.mp (token_eq_some hok)
  · rw [hu, token_open (fun a ha => hsub a (hsp a ha)) hw hOK] at h
    cases h
    exact absurd rfl hne
  · rw [hu, token_ended (fun a ha => hsub a (hsp a ha)) hw hOK (hsub y hy), Option.some.injEq,
      Prod.mk.injEq] at h
    rw [token_eq_some hok, h.2]

/-- Behind a header with its length, more bytes do not change what a close finds. -/
theorem accepted_append (h : bodyStart s ≠ none) (t : List Byte) : Accepted (s ++ t) ↔ Accepted s := by
  obtain ⟨u, u', hu, hu', hne, hne'⟩ := bodyStart_tokens h
  obtain ⟨h₁, h₂⟩ := firstToken_of_token hu
  obtain ⟨h₃, h₄⟩ := firstToken_of_token (token_append_rest hu hne t)
  have happ : u' ++ t ≠ [] := by simp [hne']
  unfold Accepted
  rw [h₁, h₂, h₃, h₄, token_ok_space hu' hne', token_ok_space (token_append_rest hu' hne' t) happ]
  refine and_congr_right fun _ => ⟨fun htok => ?_, fun htok => token_append_rest htok hne' t⟩
  obtain ⟨sp, hsp, hw, hwd, ⟨-, hnil⟩ | ⟨y, hy, heq⟩⟩ := token_eq_some_iff.mp htok
  · exact absurd hnil happ
  · rw [← List.cons_append, ← List.append_assoc] at heq
    exact token_eq_some_iff.mpr ⟨sp, hsp, hw, hwd, Or.inr ⟨y, hy, List.append_cancel_right heq⟩⟩

end Words

/-! ## What the client knows -/

/-- After some of the chunks the client has looked at the word behind the scheme and found `w`. -/
def Saw (w : List Byte) (cs : List Chunk) : Prop :=
  ∃ pre, pre <+: cs ∧ 10 < counted pre ∧ statusWord (headerString pre) = some w

/-- More than 7 bytes are there, and the first word is not the scheme. -/
def Rejected (got : List Chunk) : Prop :=
  7 < counted got ∧ firstToken (ascii " ") (headerString got) ≠ some (ascii "GETFILE")

/-- The peer has closed the connection, and the first two words are not the ones for it. -/
def ClosedBadly (got : List Chunk) (last : Option Ending) : Prop :=
  last = some .close ∧ ¬ Accepted (headerString got)

/-- What the client knows when it goes on after the chunks `cs`. -/
inductive Phase (cs : List Chunk) : StrLocals → View → Prop
  /-- it waits for the rest of the header -/
  | header (v : View) : Waiting cs →
      (v.status = .ok ∧ Saw (ascii "OK") cs ∨ v.status = .fileNotFound ∧ ¬ Saw (ascii "OK") cs) →
      Phase cs ⟨headerString cs, false, counted cs, 0⟩ v
  /-- it has got the header -/
  | body (l : StrLocals) (v : View) : l.headercheck = true → v.status = .ok →
      Saw (ascii "OK") cs → bodyStart l.fullData ≠ none → l.fullData <+: headerString cs →
      Phase cs l v

/-- What a request returns that has received `got`, and the status that it leaves. -/
inductive Returned (got : List Chunk) (last : Option Ending) : ℤ → GfStatus → Prop
  | invalid : Rejected got ∨ ClosedBadly got last → Returned got last (-1) .invalid
  | valid (ret : ℤ) (status : GfStatus) : ¬ Rejected got → ¬ ClosedBadly got last →
      (status = .ok ∧ Saw (ascii "OK") got ∨ status = .error ∧ Saw (ascii "ERROR") got ∨
        status = .fileNotFound ∧ (Saw (ascii "FILE_NOT_FOUND") got ∨
          ¬ Saw (ascii "OK") got ∧ ¬ Saw (ascii "ERROR") got)) →
      Returned got last ret status

/-- The client goes on, or it has returned with the last of the chunks. -/
def Knows (cs : List Chunk) : StrFlow → Prop
  | .done ret v => Returned cs none ret v.status
  | .next l v => Phase cs l v

section Phase

variable {cfg : Config} {cs : List Chunk} {c : Chunk} {l : StrLocals} {v : View} {flow : StrFlow}
  {w : List Byte}

theorem saw_concat : Saw w (cs ++ [c]) ↔ Saw w cs ∨
    10 < counted (cs ++ [c]) ∧ statusWord (headerString (cs ++ [c])) = some w := by
  constructor
  · rintro ⟨pre, hpre, h⟩
    rcases List.prefix_concat_iff.mp hpre with rfl | hpre
    · exact Or.inr h
    · exact Or.inl ⟨pre, hpre, h⟩
  · rintro (⟨pre, hpre, h⟩ | h)
    · exact ⟨pre, hpre.trans (List.prefix_append _ _), h⟩
    · exact ⟨cs ++ [c], List.prefix_refl _, h⟩

theorem not_saw_nil : ¬ Saw w [] := by
  rintro ⟨pre, hpre, h10, -⟩
  obtain rfl := List.prefix_nil.mp hpre
  exact absurd h10 (by decide +kernel)

theorem not_rejected_of_scheme
    (h : firstToken (ascii " ") (headerString cs) = some (ascii "GETFILE")) : ¬ Rejected cs :=
  fun hr => hr.2 h

theorem not_rejected_of_waiting (h : Waiting cs) : ¬ Rejected cs := by
  rintro ⟨h7, hscheme⟩
  rcases eq_or_ne cs [] with rfl | hne
  · exact absurd h7 (by decide +kernel)
  · rcases h cs hne (List.prefix_refl _) with hle | ⟨hget, -⟩
    · omega
    · exact hscheme hget

/-- While it waits, the client has not seen the status "ERROR". -/
theorem Waiting.not_saw_error (h : Waiting cs) : ¬ Saw (ascii "ERROR") cs := by
  rintro ⟨pre, hpre, h10, hword⟩
  rcases eq_or_ne pre [] with rfl | hne
  · exact absurd h10 (by decide +kernel)
  · rcases h pre hne hpre with hle | ⟨-, hle | ⟨-, -, herr⟩⟩
    · omega
    · omega
    · exact herr hword

theorem phase_start : Phase [] ⟨[], false, 0, 0⟩ (View.initial ⟨0, 0⟩ cfg.path) := by
  have hzero : counted [] = 0 := by decide +kernel
  have h := Phase.header (View.initial ⟨0, 0⟩ cfg.path) waiting_nil (Or.inr ⟨rfl, not_saw_nil⟩)
  rwa [hzero] at h

theorem not_closedBadly_none (got : List Chunk) : ¬ ClosedBadly got none := by
  rintro ⟨h, -⟩
  cases h

/-- One more chunk while the client waits for the rest of the header. -/
theorem phase_parsed {flow : StrFlow} (hwait : Waiting cs)
    (hstatus : v.status = .ok ∧ Saw (ascii "OK") cs ∨
      v.status = .fileNotFound ∧ ¬ Saw (ascii "OK") cs)
    (h : Parsed ⟨headerString (cs ++ [c]), false, counted (cs ++ [c]), 0⟩ v flow) :
    Knows (cs ++ [c]) flow := by
  have hno := not_closedBadly_none (cs ++ [c])
  have hsaw : ∀ w, 10 < counted (cs ++ [c]) → statusWord (headerString (cs ++ [c])) = some w →
      Saw w (cs ++ [c]) := fun w h10 hw => saw_concat.mpr (Or.inr ⟨h10, hw⟩)
  have hbody : bodyStart (headerString (cs ++ [c])) ≠ none →
      firstToken (ascii " ") (headerString (cs ++ [c])) = some (ascii "GETFILE") ∧
        statusWord (headerString (cs ++ [c])) = some (ascii "OK") := by
    intro hb
    obtain ⟨r, hr⟩ := Option.ne_none_iff_exists'.mp hb
    exact ⟨(bodyStart_eq_some_iff.mp hr).1, (bodyStart_eq_some_iff.mp hr).2.1⟩
  cases h with
  | rejected v' h7 hscheme hinv =>
    show Returned (cs ++ [c]) none (-1) v'.status
    rw [hinv]
    exact .invalid (Or.inl ⟨h7, hscheme⟩)
  | waits hw hnot =>
    refine Phase.header v (waiting_concat.mpr ⟨hwait, hw⟩) ?_
    rcases hstatus with ⟨hst, hok⟩ | ⟨hst, hok⟩
    · exact Or.inl ⟨hst, saw_concat.mpr (Or.inl hok)⟩
    · exact Or.inr ⟨hst, fun h => (saw_concat.mp h).elim hok hnot⟩
  | waitsOk hw h10 hword =>
    exact Phase.header _ (waiting_concat.mpr ⟨hwait, hw⟩) (Or.inl ⟨rfl, hsaw _ h10 hword⟩)
  | fileNotFound v' hscheme h10 hword hst =>
    exact Returned.valid 0 _ (not_rejected_of_scheme hscheme) hno
      (Or.inr (Or.inr ⟨hst, Or.inl (hsaw _ h10 hword)⟩))
  | error v' hscheme h10 hword hst =>
    exact Returned.valid 0 _ (not_rejected_of_scheme hscheme) hno
      (Or.inr (Or.inl ⟨hst, hsaw _ h10 hword⟩))
  | body l' v' h10 hb hl' hF hst =>
    dsimp only at hF hb
    exact Phase.body l' v' hl' hst (hsaw _ h10 (hbody hb).2) (by rwa [hF]) (by rw [hF])
  | complete v' h10 hb hst =>
    exact Returned.valid 0 _ (not_rejected_of_scheme (hbody hb).1) hno
      (Or.inl ⟨hst, hsaw _ h10 (hbody hb).2⟩)

/-- One more chunk. -/
theorem Phase.recv (h : Phase cs l v) (hflow : strChunk cfg c l v = .ok flow) :
    Knows (cs ++ [c]) flow := by
  cases h with
  | header v hwait hstatus =>
    have hparsed := strHeaderChunk_parsed hflow
    dsimp only at hparsed
    rw [← headerString_concat, ← counted_concat] at hparsed
    exact phase_parsed (v := { v with bytesreceived := counted (cs ++ [c]) }) hwait hstatus hparsed
  | body l v hl hst hsaw hb hpre =>
    have hchunk : flow = strBodyChunk cfg c
        { l with bytesReceivedTotal := sizeT (l.bytesReceivedTotal + c.data.length) }
        { v with bytesreceived := sizeT (l.bytesReceivedTotal + c.data.length) } := by
      unfold strChunk at hflow
      dsimp only at hflow
      rw [if_pos hl] at hflow
      exact (Except.ok.inj hflow).symm
    have hpre' : l.fullData <+: headerString (cs ++ [c]) := by
      rw [headerString_concat]
      exact hpre.trans (List.prefix_append _ _)
    have hsaw' : Saw (ascii "OK") (cs ++ [c]) := saw_concat.mpr (Or.inl hsaw)
    rw [hchunk]
    rcases strBodyChunk_cases cfg c
        { l with bytesReceivedTotal := sizeT (l.bytesReceivedTotal + c.data.length) }
        { v with bytesreceived := sizeT (l.bytesReceivedTotal + c.data.length) } with
      ⟨v', hdone, hv'⟩ | ⟨l', v', hnext, hl', hF, hv'⟩
    · rw [hdone]
      obtain ⟨t, ht⟩ := hpre'
      exact Returned.valid 0 _ (not_rejected_of_scheme (ht ▸ scheme_append hb t))
        (not_closedBadly_none _) (Or.inl ⟨hv'.trans hst, hsaw'⟩)
    · rw [hnext]
      exact Phase.body l' v' (hl'.trans hl) (hv'.trans hst) hsaw' (by rwa [hF]) (by rwa [hF])

/-- A connection that is closed, or not, at the end. -/
theorem strRecvEnd_status {e : Ending} {ret : ℤ} {v' : View}
    (h : strRecvEnd e l v = .ok (ret, v')) :
    ret = -1 ∧ (e = .close ∧ ¬ Accepted l.fullData ∧ v'.status = .invalid ∨
      ¬ (e = .close ∧ ¬ Accepted l.fullData) ∧ v'.status = v.status) := by
  cases e with
  | error => cases h; exact ⟨rfl, Or.inr ⟨by simp, rfl⟩⟩
  | close =>
    refine ⟨strRecvEnd_ret h, ?_⟩
    unfold strRecvEnd at h
    unfold Accepted
    dsimp only at h
    cases hs : firstToken (ascii " ") (restToken (ascii " ") l.fullData) with
    | none => simp [hs] at h
    | some status =>
      simp only [hs] at h
      by_cases hok : status = ascii "OK" ∧ firstToken (ascii " ") l.fullData = some (ascii "GETFILE")
      · rw [if_pos hok] at h
        refine Or.inr ⟨by simp [hok.1, hok.2], ?_⟩
        cases hf : firstToken (ascii " \r\n")
            (restToken (ascii " ") (restToken (ascii " ") l.fullData)) <;>
          rw [hf] at h <;> cases h <;> rfl
      · rw [if_neg hok] at h
        refine Or.inl ⟨rfl, fun hacc => hok ⟨Option.some.inj hacc.2, hacc.1⟩, ?_⟩
        cases h
        rfl

/-- The end of the connection. -/
theorem Phase.recvEnd (h : Phase cs l v) {e : Ending} {ret : ℤ} {v' : View}
    (hend : strRecvEnd e l v = .ok (ret, v')) : Returned cs (some e) ret v'.status := by
  have hclosed : ClosedBadly cs (some e) ↔ e = .close ∧ ¬ Accepted l.fullData := by
    unfold ClosedBadly
    rw [Option.some.injEq]
    cases h with
    | header v hwait hstatus => exact Iff.rfl
    | body l v hl hst hsaw hb hpre =>
      obtain ⟨t, ht⟩ := hpre
      rw [← ht, accepted_append hb t]
  have hrejected : ¬ Rejected cs := by
    cases h with
    | header v hwait hstatus => exact not_rejected_of_waiting hwait
    | body l v hl hst hsaw hb hpre =>
      obtain ⟨t, ht⟩ := hpre
      exact not_rejected_of_scheme (ht ▸ scheme_append hb t)
  obtain ⟨rfl, ⟨he, hacc, hinv⟩ | ⟨hno, hst'⟩⟩ := strRecvEnd_status hend
  · rw [hinv]
    exact .invalid (Or.inr (hclosed.mpr ⟨he, hacc⟩))
  · refine .valid _ _ hrejected (fun h => hno (hclosed.mp h)) ?_
    rw [hst']
    cases h with
    | header v hwait hstatus =>
      rcases hstatus with ⟨hst, hok⟩ | ⟨hst, hok⟩
      · exact Or.inl ⟨hst, hok⟩
      · exact Or.inr (Or.inr ⟨hst, Or.inr ⟨hok, hwait.not_saw_error⟩⟩)
    | body l v hl hst hsaw hb hpre => exact Or.inl ⟨hst, hsaw⟩

/-- What the client knows after the chunks `cs` if it goes on. -/
theorem after_phase (h : (StrFlow.start cfg).after cfg cs = .ok (.next l v)) : Phase cs l v := by
  induction cs using List.reverseRecOn generalizing l v with
  | nil => cases h; exact phase_start
  | append_singleton cs c ih =>
    rw [StrFlow.after_concat] at h
    cases hflow : (StrFlow.start cfg).after cfg cs with
    | error f => rw [hflow] at h; cases h
    | ok flow =>
      rw [hflow] at h
      cases flow with
      | done ret v' => cases h
      | next l' v' => exact (ih hflow).recv h

/-- What a request has returned, by what it has received. -/
theorem Receives.returned {junk : Gfcrequest} {rs : Recvs} {got : List Chunk}
    {last : Option Ending} {o : Outcome} {log : List Event} (h : Receives junk cfg rs got last)
    (hres : request junk cfg rs = .ok (o, log)) : Returned got last o.ret o.status := by
  obtain ⟨⟨rest, hchunks⟩, hwaits, ⟨hig, rfl⟩ | ⟨hno, rfl, rfl⟩⟩ := h
  · have hnext := ignores_iff.mp hig
    rcases List.eq_nil_or_concat' got with rfl | ⟨cs, c, rfl⟩
    · exact absurd rfl (hnext _ _)
    · have hcs : ¬ Ignores junk cfg cs := hwaits cs (List.prefix_append _ _) (by simp)
      rw [ignores_iff] at hcs
      push Not at hcs
      obtain ⟨l, v, hflow⟩ := hcs
      rw [show rs = ⟨cs ++ [c] ++ rest, rs.ending⟩ by rw [hchunks], request_after] at hres
      rw [StrFlow.after_concat, hflow] at hnext hres
      cases hchunk : strChunk cfg c l v with
      | error f =>
        rw [show Except.bind (Except.ok (StrFlow.next l v)) (StrFlow.recv cfg · c) =
          strChunk cfg c l v from rfl, hchunk] at hres
        cases hres
      | ok flow =>
        rw [show Except.bind (Except.ok (StrFlow.next l v)) (StrFlow.recv cfg · c) =
          strChunk cfg c l v from rfl, hchunk] at hres hnext
        have hknows := (after_phase hflow).recv hchunk
        cases flow with
        | done ret v' =>
          cases hres
          exact hknows
        | next l' v' => exact absurd rfl (hnext l' v')
  · rw [ignores_iff] at hno
    push Not at hno
    obtain ⟨l, v, hflow⟩ := hno
    rw [show rs = ⟨rs.chunks, rs.ending⟩ from rfl, request_end hflow] at hres
    cases hend : strRecvEnd rs.ending l v with
    | error f => rw [hend] at hres; cases hres
    | ok b =>
      rw [hend] at hres
      cases hres
      exact (after_phase hflow).recvEnd hend

end Phase

/-! ## The grammar of responses -/

section Grammar

variable {R : List Byte} {got : List Chunk} {w : List Byte} {d : Byte}

/-- The received bytes hold the complete header of a well-formed response that they begin. -/
def Good (R : List Byte) : Prop :=
  (∃ r, Gfserver.WellFormed r ∧ R <+: r) ∧ ascii "\r\n\r\n" <:+: R

/-- The statuses of the protocol. -/
def statuses : List (List Byte) := [ascii "OK", ascii "FILE_NOT_FOUND", ascii "ERROR"]

theorem statuses_eq : statuses = [[79, 75],
    [70, 73, 76, 69, 95, 78, 79, 84, 95, 70, 79, 85, 78, 68], [69, 82, 82, 79, 82]] := by
  decide +kernel

theorem statuses_clean : ∀ w ∈ statuses, w ≠ [] ∧ (∀ a ∈ w, a ∉ ascii " \r\n" ∧ a ≠ 0) ∧
    2 ≤ w.length ∧ w.length ≤ 14 := by
  have hdelim : ascii " \r\n" = [32, 13, 10] := by decide
  rw [statuses_eq, hdelim]
  decide +kernel

/-- No status is the beginning of another one. -/
theorem statuses_prefix : ∀ w ∈ statuses, ∀ w' ∈ statuses, w' <+: w → w' = w := by
  rw [statuses_eq]
  decide +kernel

/-- A complete header has a status with a delimiter behind it. -/
theorem Good.word (h : Good R) : ∃ w ∈ statuses, ∃ d ∈ ascii " \r\n",
    ascii "GETFILE " ++ w ++ [d] <+: R := by
  obtain ⟨⟨r, hr, hR⟩, hend⟩ := h
  -- the LF stands behind the status
  have hlf : (10 : Byte) ∈ R := hend.subset (by decide)
  have hfront : ∀ w ∈ statuses, ∀ d ∈ ascii " \r", ∀ m, r = ascii "GETFILE " ++ w ++ [d] ++ m →
      ascii "GETFILE " ++ w ++ [d] <+: R := by
    rintro w hw d hd m rfl
    rcases List.prefix_or_prefix_of_prefix hR (List.prefix_append _ m) with hle | hle
    · have hno : ∀ w ∈ statuses, ∀ d ∈ ascii " \r", (10 : Byte) ∉ ascii "GETFILE " ++ w ++ [d] := by
        have hscheme : ascii "GETFILE " = [71, 69, 84, 70, 73, 76, 69, 32] := by decide
        have hdelim : ascii " \r" = [32, 13] := by decide
        rw [statuses_eq, hscheme, hdelim]
        decide +kernel
      exact absurd (hle.subset hlf) (hno w hw d hd)
    · exact hle
  have hsub : ∀ d ∈ ascii " \r", d ∈ ascii " \r\n" := by decide +kernel
  -- spaces, or the CR, behind a status without a length
  have hnext : ∀ sp : List Byte, (∀ a ∈ sp, a = 32) →
      ∃ d ∈ ascii " \r", ∃ m, sp ++ ascii "\r\n\r\n" = d :: m := by
    intro sp hsp
    cases sp with
    | nil => exact ⟨13, by decide, _, rfl⟩
    | cons x sp => exact ⟨x, by rw [hsp x (by simp)]; decide, _, rfl⟩
  cases hr with
  | ok sp content hsp =>
    exact ⟨ascii "OK", by decide, 32, by decide, hfront _ (by decide) 32 (by decide)
      (decimal content.length ++ (sp ++ (ascii "\r\n\r\n" ++ content)))
      (by rw [show ascii "GETFILE OK " = ascii "GETFILE " ++ ascii "OK" ++ [32] by decide]
          simp only [List.append_assoc])⟩
  | fileNotFound sp hsp =>
    obtain ⟨d, hd, m, hm⟩ := hnext sp hsp
    exact ⟨ascii "FILE_NOT_FOUND", by decide, d, hsub d hd, hfront _ (by decide) d hd m
      (by rw [List.append_assoc, hm, show ascii "GETFILE FILE_NOT_FOUND" =
            ascii "GETFILE " ++ ascii "FILE_NOT_FOUND" by decide]
          simp only [List.append_assoc, List.singleton_append])⟩
  | error sp hsp =>
    obtain ⟨d, hd, m, hm⟩ := hnext sp hsp
    exact ⟨ascii "ERROR", by decide, d, hsub d hd, hfront _ (by decide) d hd m
      (by rw [List.append_assoc, hm, show ascii "GETFILE ERROR" =
            ascii "GETFILE " ++ ascii "ERROR" by decide]
          simp only [List.append_assoc, List.singleton_append])⟩

/-- A string without a NUL at the front of the received bytes is at the front of the header
    string. -/
theorem prefix_headerString {u : List Byte} (h : u <+: received got) (h0 : 0 ∉ u) :
    u <+: headerString got := by
  induction got generalizing u with
  | nil => exact h
  | cons c cs ih =>
    obtain ⟨x, hx⟩ := h
    rw [received_cons] at hx
    have hcons : headerString (c :: cs) = c.data.takeWhile (· ≠ 0) ++ headerString cs := rfl
    rw [hcons]
    have hclean : ∀ a ∈ u, decide (a ≠ 0) = true := fun a ha => by
      simpa using ne_of_mem_of_not_mem ha h0
    rcases List.append_eq_append_iff.mp hx with ⟨a, ha, -⟩ | ⟨a, rfl, ha⟩
    · rw [ha, List.takeWhile_append_of_pos hclean, List.append_assoc]
      exact List.prefix_append _ _
    · rw [List.takeWhile_eq_self_iff.mpr fun b hb => hclean b (List.mem_append_left _ hb)]
      exact List.prefix_append_right_inj _ |>.mpr
        (ih ⟨x, ha.symm⟩ fun h => h0 (List.mem_append_right _ h))

theorem headerString_clean (h0 : 0 ∉ received got) : headerString got = received got := by
  induction got with
  | nil => rfl
  | cons c cs ih =>
    rw [received_cons] at h0 ⊢
    have hcons : headerString (c :: cs) = c.data.takeWhile (· ≠ 0) ++ headerString cs := rfl
    rw [hcons, ih fun h => h0 (List.mem_append_right _ h)]
    congr 1
    refine List.takeWhile_eq_self_iff.mpr fun a ha => ?_
    simpa using ne_of_mem_of_not_mem (List.mem_append_left _ ha) h0

/-- The rest of a string behind the scheme. -/
theorem restToken_scheme (s : List Byte) : restToken (ascii " ") (ascii "GETFILE " ++ s) = s :=
  (firstToken_of_token (token_scheme s)).2

theorem statusWord_ended (hw : w ∈ statuses) (hd : d ∈ ascii " \r\n") {s : List Byte}
    (h : ascii "GETFILE " ++ w ++ [d] <+: s) : statusWord s = some w := by
  obtain ⟨x, rfl⟩ := h
  obtain ⟨hne, hclean, -⟩ := statuses_clean w hw
  rw [statusWord, List.append_assoc, List.append_assoc, restToken_scheme]
  exact (firstToken_of_token (token_front hne (fun a ha => (hclean a ha).1) hd)).1

theorem header_clean (hw : w ∈ statuses) (hd : d ∈ ascii " \r\n") :
    (0 : Byte) ∉ ascii "GETFILE " ++ w ++ [d] := by
  have hget : (0 : Byte) ∉ ascii "GETFILE " := by decide
  have hsep : (0 : Byte) ∉ ascii " \r\n" := by decide
  have hw0 : (0 : Byte) ∉ w := fun h => ((statuses_clean w hw).2.1 0 h).2 rfl
  simp only [List.mem_append, List.mem_singleton, not_or]
  exact ⟨⟨hget, hw0⟩, fun h => hsep (h ▸ hd)⟩

/-- With the whole header received, the client sees its status. -/
theorem saw_of_prefix (hw : w ∈ statuses) (hd : d ∈ ascii " \r\n")
    (h : ascii "GETFILE " ++ w ++ [d] <+: received got) : Saw w got := by
  obtain ⟨-, -, h2, h14⟩ := statuses_clean w hw
  have hlen : (ascii "GETFILE " ++ w ++ [d]).length = w.length + 9 := by
    have h8 : (ascii "GETFILE ").length = 8 := by decide
    simp only [List.length_append, h8, List.length_singleton]
    omega
  have hle := h.length_le
  rw [hlen] at hle
  obtain ⟨pre, c, post, rfl, hpre, hc⟩ := exists_crossing got (T := w.length + 8) (by omega)
  have hsplit : pre ++ c :: post = pre ++ [c] ++ post := by simp
  have htotal : (received (pre ++ [c])).length = (received pre).length + c.data.length := by
    rw [received_append, received_cons, received_nil, List.append_nil, List.length_append]
  have hcle := c.le
  have hcount : counted (pre ++ [c]) = (received pre).length + c.data.length := by
    rw [counted, htotal]
    exact sizeT_natCast (by unfold BUFSIZE at hcle; omega)
  refine ⟨pre ++ [c], ⟨post, hsplit.symm⟩, by omega, ?_⟩
  refine statusWord_ended hw hd (prefix_headerString ?_ (header_clean hw hd))
  rw [hsplit, received_append] at h
  exact List.prefix_of_prefix_length_le h (List.prefix_append _ _) (by rw [hlen, htotal]; omega)

/-- And it sees no other one. -/
theorem saw_unique {w' : List Byte} (hw : w ∈ statuses) (hw' : w' ∈ statuses)
    (hd : d ∈ ascii " \r\n") (h : ascii "GETFILE " ++ w ++ [d] <+: received got)
    (hsaw : Saw w' got) : w' = w := by
  obtain ⟨pre, ⟨post, rfl⟩, h10, hword⟩ := hsaw
  have hpre : received pre <+: received (pre ++ post) := by
    rw [received_append]
    exact List.prefix_append _ _
  have hclean := header_clean hw hd
  rcases List.prefix_or_prefix_of_prefix h hpre with hlong | hshort
  · have hseen := statusWord_ended hw hd (prefix_headerString hlong hclean)
    rw [hseen, Option.some.injEq] at hword
    exact hword.symm
  · -- a beginning of the header with some of the status
    have h8 : (ascii "GETFILE ").length = 8 := by decide
    have hle : counted pre ≤ (received pre).length := by
      unfold counted sizeT
      omega
    rw [headerString_clean fun h0 => hclean (hshort.subset h0)] at hword
    rw [List.append_assoc] at hshort
    obtain ⟨y, hy⟩ : ascii "GETFILE " <+: received pre :=
      List.prefix_of_prefix_length_le (List.prefix_append _ _) hshort (by omega)
    rw [← hy, List.prefix_append_right_inj] at hshort
    rw [← hy, statusWord, restToken_scheme] at hword
    rcases List.prefix_concat_iff.mp hshort with rfl | hshort
    · have hfront : firstToken (ascii " \r\n") (w ++ [d]) = some w := by
        obtain ⟨hne, hcl, -⟩ := statuses_clean w hw
        exact (firstToken_of_token (token_front hne (fun a ha => (hcl a ha).1) hd)).1
      rw [hfront, Option.some.injEq] at hword
      exact hword.symm
    · have hne : y ≠ [] := by
        rintro rfl
        rw [firstToken_nil] at hword
        cases hword
      obtain ⟨-, hcl, -⟩ := statuses_clean w hw
      rw [(firstToken_of_token (token_whole hne fun a ha =>
        (hcl a (hshort.subset ha)).1)).1, Option.some.injEq] at hword
      exact statuses_prefix w hw w' hw' (hword ▸ hshort)

end Grammar

/-! ## Faithful reports -/

section Faithful

variable {junk : Gfcrequest} {cfg : Config} {rs : Recvs} {got : List Chunk}
  {last : Option Ending} {o : Outcome} {log : List Event}

/-- A report about the received bytes `R`: each status of the protocol stands at their front, and
    if they are no prefix of a well-formed response, or do not hold a complete header, a failure
    is returned, and the status is `GF_INVALID`. -/
structure Faithful (R : List Byte) (o : Outcome) : Prop where
  ok : o.status = .ok → ascii "GETFILE OK" <+: R
  fileNotFound : o.status = .fileNotFound → ascii "GETFILE FILE_NOT_FOUND" <+: R
  error : o.status = .error → ascii "GETFILE ERROR" <+: R
  invalid : (¬ ∃ r, Gfserver.WellFormed r ∧ R <+: r) ∨ ¬ ascii "\r\n\r\n" <:+: R →
    o.ret < 0 ∧ o.status = .invalid

/-- With the complete header of a well-formed response, the status is the one of the header. -/
theorem Good.faithful (h : Good (received got)) {ret : ℤ} {status : GfStatus}
    (hret : Returned got last ret status) :
    (status = .ok → ascii "GETFILE OK" <+: received got) ∧
      (status = .fileNotFound → ascii "GETFILE FILE_NOT_FOUND" <+: received got) ∧
      (status = .error → ascii "GETFILE ERROR" <+: received got) := by
  obtain ⟨w, hw, d, hd, hpre⟩ := h.word
  have hsaw := saw_of_prefix hw hd hpre
  have hfront : ∀ w', w' = w → ascii "GETFILE " ++ w' <+: received got := by
    rintro w' rfl
    exact (List.prefix_append _ _).trans hpre
  have hunique : ∀ w' ∈ statuses, Saw w' got → w' = w := fun w' hw' h =>
    saw_unique hw hw' hd hpre h
  have hok : ascii "GETFILE OK" = ascii "GETFILE " ++ ascii "OK" := by decide
  have hfnf : ascii "GETFILE FILE_NOT_FOUND" = ascii "GETFILE " ++ ascii "FILE_NOT_FOUND" := by
    decide
  have herr : ascii "GETFILE ERROR" = ascii "GETFILE " ++ ascii "ERROR" := by decide
  rw [hok, hfnf, herr]
  cases hret with
  | invalid => simp
  | valid _ _ _ _ hst =>
    rcases hst with ⟨rfl, h⟩ | ⟨rfl, h⟩ | ⟨rfl, h⟩
    · simpa using hfront _ (hunique _ (by decide) h)
    · simpa using hfront _ (hunique _ (by decide) h)
    · refine ⟨by simp, fun _ => hfront _ ?_, by simp⟩
      rcases h with h | ⟨hnok, hnerr⟩
      · exact hunique _ (by decide) h
      · have hall : ∀ w ∈ statuses, w ≠ ascii "OK" → w ≠ ascii "ERROR" →
            ascii "FILE_NOT_FOUND" = w := by decide +kernel
        exact hall w hw (fun h => hnok (h ▸ hsaw)) fun h => hnerr (h ▸ hsaw)

/-- Of the bytes received, `gfc_perform` reports faithfully exactly if they hold the complete
    header of a well-formed response that they begin, or more than 7 bytes have been received
    whose first word is not the scheme, or the peer closes and the first two words are not
    "GETFILE" and "OK". -/
theorem status_faithful_iff (junk : Gfcrequest) (cfg : Config) (rs : Recvs) (got : List Chunk)
    (last : Option Ending) (o : Outcome) (log : List Event) (hgot : Receives junk cfg rs got last)
    (hres : request junk cfg rs = .ok (o, log)) :
    Faithful (received got) o ↔ Good (received got) ∨ Rejected got ∨ ClosedBadly got last := by
  have hret := hgot.returned hres
  constructor
  · intro h
    by_cases hgood : Good (received got)
    · exact Or.inl hgood
    · obtain ⟨-, hinv⟩ := h.invalid (not_and_or.mp hgood)
      generalize o.ret = ret at hret
      generalize o.status = status at hret hinv
      cases hret with
      | invalid hbad => exact Or.inr hbad
      | valid _ _ _ _ hst =>
        subst hinv
        rcases hst with ⟨h, -⟩ | ⟨h, -⟩ | ⟨h, -⟩ <;> cases h
  · rintro (hgood | hbad)
    · obtain ⟨h₁, h₂, h₃⟩ := hgood.faithful hret
      exact ⟨h₁, h₂, h₃, fun h => absurd hgood (not_and_or.mpr h)⟩
    · have hinv : o.ret = -1 ∧ o.status = .invalid := by
        generalize o.ret = ret at hret ⊢
        generalize o.status = status at hret ⊢
        cases hret with
        | invalid => exact ⟨rfl, rfl⟩
        | valid _ _ hrej hclosed => exact (hbad.elim hrej hclosed).elim
      obtain ⟨hneg, hst⟩ := hinv
      exact ⟨by simp [hst], by simp [hst], by simp [hst],
        fun _ => ⟨by rw [hneg]; decide, hst⟩⟩

/-- A single chunk is received. -/
theorem Receives.single {c : Chunk} {e : Ending} (h : Receives junk cfg ⟨[c], e⟩ got last) :
    got = [c] := by
  have hnil : ¬ Ignores junk cfg [] := not_ignores_of_next rfl
  rcases List.prefix_concat_iff.mp (show got <+: [] ++ [c] from h.got_prefix) with hgot | hgot
  · exact hgot
  · rw [List.prefix_nil.mp hgot] at h
    rcases h.last with ⟨hig, -⟩ | ⟨-, hnone, -⟩
    · exact absurd hig hnil
    · cases hnone

/-- An answer in another protocol. -/
theorem status_faithful_http :
    ∃ o log, request .zeroed (downloadConfig (ascii "localhost") (ascii "/a") 8080 2)
        ⟨[⟨ascii "HTTP/1.1 400 Bad Request", by decide +kernel, by decide +kernel⟩], .close⟩ =
          .ok (o, log) ∧ Faithful (ascii "HTTP/1.1 400 Bad Request") o := by
  obtain ⟨got, last, hgot⟩ := exists_receives .zeroed
    (downloadConfig (ascii "localhost") (ascii "/a") 8080 2)
    ⟨[⟨ascii "HTTP/1.1 400 Bad Request", by decide +kernel, by decide +kernel⟩], .close⟩
  have hok : (request .zeroed (downloadConfig (ascii "localhost") (ascii "/a") 8080 2)
      ⟨[⟨ascii "HTTP/1.1 400 Bad Request", by decide +kernel, by decide +kernel⟩],
        .close⟩).isOk = true := by decide +kernel
  cases hres : request .zeroed (downloadConfig (ascii "localhost") (ascii "/a") 8080 2)
      ⟨[⟨ascii "HTTP/1.1 400 Bad Request", by decide +kernel, by decide +kernel⟩], .close⟩ with
  | error f => rw [hres] at hok; cases hok
  | ok b =>
    have hiff := status_faithful_iff .zeroed
      (downloadConfig (ascii "localhost") (ascii "/a") 8080 2) _ got last b.1 b.2 hgot hres
    rw [hgot.single] at hiff
    exact ⟨b.1, b.2, rfl, hiff.mpr (Or.inr (Or.inl ⟨by decide +kernel, by decide +kernel⟩))⟩

/-- The header "GETFILE ERROR" without its terminator: `gfc_perform` returns 0. -/
theorem status_not_faithful :
    ¬ ∀ (junk : Gfcrequest) (cfg : Config) (rs : Recvs) (got : List Chunk) (last : Option Ending)
      (o : Outcome) (log : List Event), (∀ c ∈ rs.chunks, c.data.length ≤ 4095) →
      Receives junk cfg rs got last → request junk cfg rs = .ok (o, log) →
        Faithful (received got) o := by
  intro h
  obtain ⟨got, last, hgot⟩ := exists_receives .zeroed
    (downloadConfig (ascii "localhost") (ascii "/a") 8080 2)
    ⟨[⟨ascii "GETFILE ERROR", by decide +kernel, by decide +kernel⟩], .close⟩
  have hzero : ((request .zeroed (downloadConfig (ascii "localhost") (ascii "/a") 8080 2)
      ⟨[⟨ascii "GETFILE ERROR", by decide +kernel, by decide +kernel⟩], .close⟩).map
        fun r => r.1.ret) = .ok 0 := by decide +kernel
  cases hres : request .zeroed (downloadConfig (ascii "localhost") (ascii "/a") 8080 2)
      ⟨[⟨ascii "GETFILE ERROR", by decide +kernel, by decide +kernel⟩], .close⟩ with
  | error f => rw [hres] at hzero; cases hzero
  | ok b =>
    have hfaith := h .zeroed (downloadConfig (ascii "localhost") (ascii "/a") 8080 2) _ got last
      b.1 b.2 (by simp [ascii]) hgot hres
    rw [hgot.single] at hfaith
    obtain ⟨hneg, -⟩ := hfaith.invalid (Or.inr (by decide +kernel))
    rw [hres] at hzero
    have hret : b.1.ret = 0 := Except.ok.inj hzero
    omega

end Faithful

end IntroOS.Gfclient
