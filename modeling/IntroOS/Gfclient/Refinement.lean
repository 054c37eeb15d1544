import IntroOS.Gfclient.OnStrings

/-!
# `gfc_perform` refines the client on strings

Every part of `gfc_perform` is related to its counterpart on strings. `Rep` says that a
request of the process is seen as a `View`, `FlowRel` that an iteration ended alike. The
step lemmas follow the order of the source.

Main results:

* `gfcPerformLoop_refines`: the loop, from any state in which the header is pending.
* `request_eq`: a request that runs alone.
-/

namespace IntroOS.Gfclient

open CString Concurrency

/-! ## The representation relation -/

/-- The request has the callbacks of `cfg`. -/
def Registered (cfg : Config) (r : Gfcrequest) : Prop :=
  r.headfunc = cfg.head.map Prod.fst ∧ r.headarg = cfg.head.bind Prod.snd ∧
    r.writefunc = some cfg.writefunc ∧ r.writearg = cfg.writearg

def viewOf (r : Gfcrequest) (log : List Event) : View :=
  ⟨r.status, r.filelen, r.bytesreceived, r.bytesFileReceived, log⟩

/-- Request `h` of thread `t` is the record `r`, seen as `v`. -/
def RepAs (cfg : Config) (t : Tid) (h : Handle) (st : Store) (r : Gfcrequest) (v : View) : Prop :=
  st.req h = some r ∧ Registered cfg r ∧ viewOf r (st.log t) = v

/-- Request `h` of thread `t` is seen as `v`. -/
def Rep (cfg : Config) (t : Tid) (h : Handle) (st : Store) (v : View) : Prop :=
  ∃ r, RepAs cfg t h st r v

/-- The local variables with the string at `fullData`. -/
def Locals.abs (l : Locals) (s : List Byte) : StrLocals :=
  ⟨s, l.headercheck, l.bytesReceivedTotal, l.bytesReceivedFILE⟩

/-- Two iterations end alike. -/
def FlowRel (cfg : Config) (t : Tid) (h : Handle) : Flow → Store → StrFlow → Prop
  | .done ret, st, .done ret' v => ret = ret' ∧ Rep cfg t h st v
  | .next l, st, .next l' v => Rep cfg t h st v ∧ ∃ s, st.str l.fullData = .ok s ∧ l' = l.abs s
  | _, _, _ => False

def Store.modifyReq (st : Store) (h : Handle) (f : Gfcrequest → Gfcrequest) : Store :=
  { st with reqs := Function.update st.reqs h.tid ((st.reqs h.tid).modify h.idx f) }

def Store.emit (st : Store) (t : Tid) (e : Event) : Store :=
  { st with log := Function.update st.log t (st.log t ++ [e]) }

theorem exec_writeRequest (t : Tid) (h : Handle) (f : Gfcrequest → Gfcrequest) (st : Store) :
    exec t (.writeRequest h f) st = .ok ((), st.modifyReq h f) := rfl

theorem exec_emit (t : Tid) (e : Event) (st : Store) :
    exec t (.emit e) st = .ok ((), st.emit t e) := rfl

theorem exec_readRequest {t : Tid} {h : Handle} {st : Store} {r : Gfcrequest}
    (hr : st.req h = some r) : exec t (.readRequest h) st = .ok (r, st) := by
  simp [exec, hr]

@[simp] theorem str_modifyReq (st : Store) (h : Handle) (f : Gfcrequest → Gfcrequest) (p : Ptr) :
    (st.modifyReq h f).str p = st.str p := rfl

section Steps

variable {cfg : Config} {t : Tid} {h : Handle} {st st' : Store} {r : Gfcrequest} {v : View}

/-- An assignment to a field of the request. -/
theorem RepAs.write (hr : RepAs cfg t h st r v) (f : Gfcrequest → Gfcrequest)
    (hreg : Registered cfg (f r)) :
    RepAs cfg t h (st.modifyReq h f) (f r) (viewOf (f r) v.log) := by
  obtain ⟨hreq, -, rfl⟩ := hr
  refine ⟨?_, hreg, rfl⟩
  have hget : (st.reqs h.tid)[h.idx]? = some r := hreq
  simp [Store.req, Store.modifyReq, hget]

theorem RepAs.setStatus (hr : RepAs cfg t h st r v) (x : GfStatus) :
    RepAs cfg t h (st.modifyReq h fun r => { r with status := x }) { r with status := x }
      { v with status := x } := by
  obtain rfl : viewOf r (st.log t) = v := hr.2.2
  exact hr.write (fun r => { r with status := x }) hr.2.1

theorem RepAs.setBytesreceived (hr : RepAs cfg t h st r v) (x : ℕ) :
    RepAs cfg t h (st.modifyReq h fun r => { r with bytesreceived := x }) { r with bytesreceived := x }
      { v with bytesreceived := x } := by
  obtain rfl : viewOf r (st.log t) = v := hr.2.2
  exact hr.write (fun r => { r with bytesreceived := x }) hr.2.1

theorem RepAs.setBytesFileReceived (hr : RepAs cfg t h st r v) (x : ℕ) :
    RepAs cfg t h (st.modifyReq h fun r => { r with bytesFileReceived := x }) { r with bytesFileReceived := x }
      { v with bytesFileReceived := x } := by
  obtain rfl : viewOf r (st.log t) = v := hr.2.2
  exact hr.write (fun r => { r with bytesFileReceived := x }) hr.2.1

theorem RepAs.setFilelen (hr : RepAs cfg t h st r v) (x : ℕ) :
    RepAs cfg t h (st.modifyReq h fun r => { r with filelen := x }) { r with filelen := x }
      { v with filelen := x } := by
  obtain rfl : viewOf r (st.log t) = v := hr.2.2
  exact hr.write (fun r => { r with filelen := x }) hr.2.1

theorem RepAs.setFilelenstr (hr : RepAs cfg t h st r v) (x : Option Ptr) :
    RepAs cfg t h (st.modifyReq h fun r => { r with filelenstr := x }) { r with filelenstr := x }
      v := by
  obtain rfl : viewOf r (st.log t) = v := hr.2.2
  exact hr.write (fun r => { r with filelenstr := x }) hr.2.1

theorem RepAs.setHeader (hr : RepAs cfg t h st r v) (x : List Byte) :
    RepAs cfg t h (st.modifyReq h fun r => { r with header := x }) { r with header := x }
      v := by
  obtain rfl : viewOf r (st.log t) = v := hr.2.2
  exact hr.write (fun r => { r with header := x }) hr.2.1

theorem RepAs.setHeadlen (hr : RepAs cfg t h st r v) (x : ℕ) :
    RepAs cfg t h (st.modifyReq h fun r => { r with headlen := x }) { r with headlen := x }
      v := by
  obtain rfl : viewOf r (st.log t) = v := hr.2.2
  exact hr.write (fun r => { r with headlen := x }) hr.2.1

/-- A call of a callback. -/
theorem RepAs.emit (hr : RepAs cfg t h st r v) (e : Event) :
    RepAs cfg t h (st.emit t e) r { v with log := v.log ++ [e] } := by
  obtain ⟨hreq, hreg, rfl⟩ := hr
  exact ⟨hreq, hreg, by simp [viewOf, Store.emit]⟩

/-- Operations on strings do not touch the request. -/
theorem RepAs.untouched (hr : RepAs cfg t h st r v) (hu : Untouched st st') :
    RepAs cfg t h st' r v := by
  obtain ⟨hreq, hreg, hv⟩ := hr
  obtain ⟨h1, h2, -⟩ := hu
  refine ⟨?_, hreg, by rw [h2]; exact hv⟩
  simpa [Store.req, h1] using hreq

theorem RepAs.rep (hr : RepAs cfg t h st r v) : Rep cfg t h st v := ⟨r, hr⟩

/-! ## Callbacks -/

theorem callHeadfunc_refines (hr : RepAs cfg t h st r v) (data : List Byte) :
    Prog.Refines (exec t) (callHeadfunc h data) st (.ok ())
      (fun _ st' _ => RepAs cfg t h st' r { v with log := v.log ++ cfg.headCalls data } ∧
        ∀ p, st'.str p = st.str p) := by
  obtain ⟨hfunc, harg, -, -⟩ := hr.2.1
  unfold callHeadfunc readRequest
  simp only [Prog.op_bind, Prog.ret_bind]
  refine .op (exec_readRequest hr.1) ?_
  rcases hhead : cfg.head with - | ⟨f, - | arg⟩
  · simp only [hhead, Option.bind_none] at harg
    simp only [harg]
    exact .ret ⟨by simpa [Config.headCalls, hhead] using hr, fun _ => rfl⟩
  · simp only [hhead, Option.bind_some] at harg
    simp only [harg]
    exact .ret ⟨by simpa [Config.headCalls, hhead] using hr, fun _ => rfl⟩
  · simp only [hhead, Option.bind_some, Option.map_some] at harg hfunc
    simp only [harg, hfunc, emit]
    refine .op (exec_emit _ _ _) (.ret ⟨?_, fun _ => rfl⟩)
    simpa [Config.headCalls, hhead] using hr.emit (.head f data (some arg))

theorem callWritefunc_refines (hr : RepAs cfg t h st r v) (data : List Byte) :
    Prog.Refines (exec t) (callWritefunc h data) st (.ok ())
      (fun _ st' _ => RepAs cfg t h st' r { v with log := v.log ++ [cfg.writeCall data] } ∧
        ∀ p, st'.str p = st.str p) := by
  obtain ⟨-, -, hfunc, harg⟩ := hr.2.1
  unfold callWritefunc readRequest
  simp only [Prog.op_bind, Prog.ret_bind]
  refine .op (exec_readRequest hr.1) ?_
  simp only [hfunc, emit]
  refine .op (exec_emit _ _ _) (.ret ⟨?_, fun _ => rfl⟩)
  simpa [Config.writeCall, harg] using hr.emit (.write cfg.writefunc data cfg.writearg)

/-! ## A chunk behind the header -/

theorem bodyChunk_refines (hr : RepAs cfg t h st r v) (c : Chunk) {l : Locals} {s : List Byte}
    (hs : st.str l.fullData = .ok s) :
    Prog.Refines (exec t) (bodyChunk h c l) st (.ok (strBodyChunk cfg c (l.abs s) v))
      (FlowRel cfg t h) := by
  obtain rfl : viewOf r (st.log t) = v := hr.2.2
  unfold bodyChunk
  refine (callWritefunc_refines hr c.data).seq fun _ st₁ ⟨hr₁, hstr₁⟩ => ?_
  unfold writeRequest readRequest
  simp only [Prog.op_bind, Prog.ret_bind]
  refine .op (exec_writeRequest _ _ _ _) ?_
  have hr₂ := hr₁.setBytesFileReceived (sizeT (l.bytesReceivedFILE + c.data.length))
  refine .op (exec_readRequest hr₂.1) ?_
  by_cases heq : sizeT (l.bytesReceivedFILE + c.data.length) = r.filelen
  · have habs : strBodyChunk cfg c (l.abs s) (viewOf r (st.log t)) = .done 0 _ := if_pos heq
    rw [habs, if_pos heq]
    exact .ret ⟨rfl, hr₂.rep⟩
  · have habs : strBodyChunk cfg c (l.abs s) (viewOf r (st.log t)) = .next _ _ := if_neg heq
    rw [habs, if_neg heq]
    exact .ret ⟨hr₂.rep, s, by rw [str_modifyReq, hstr₁, hs], rfl⟩

/-! ## The body bytes that come with the header -/

theorem strcmpEq_refines {p : Ptr} {s lit : List Byte} (hs : st.str p = .ok s) :
    Prog.Refines (exec t) (strcmpEq (some p) lit) st (.ok (s == lit))
      (fun b st' b' => b = b' ∧ st' = st) := by
  unfold strcmpEq string
  simp only [Prog.op_bind, Prog.ret_bind]
  exact .op (exec_string hs) (.ret ⟨rfl, rfl⟩)

theorem firstData_refines (hr : RepAs cfg t h st r v) {l : Locals} {s filelen data : List Byte}
    {pfilelen pdata : Ptr} (hs : st.str l.fullData = .ok s) (hfilelen : st.str pfilelen = .ok filelen)
    (hdata : st.str pdata = .ok data) (hstr : r.filelenstr = some pfilelen)
    (hlt : data.length < 2 ^ 31) :
    Prog.Refines (exec t) (firstData h (some pfilelen) (some pdata) l) st
      (.ok (strFirstData cfg filelen data (l.abs s) v)) (FlowRel cfg t h) := by
  have hint : int32 data.length = data.length := int32_natCast hlt
  unfold firstData string readRequest writeRequest bytes
  simp only [Prog.op_bind, Prog.ret_bind]
  refine .op (exec_string hdata) ?_
  generalize hfile : sizeT (l.bytesReceivedFILE + int32 data.length) = file
  rw [hint] at hfile
  obtain rfl : viewOf r (st.log t) = v := hr.2.2
  have hr₁ := hr.setBytesFileReceived file
  refine .op (exec_writeRequest _ _ _ _) (.op (exec_string hfilelen) ?_)
  refine .op (exec_readRequest hr₁.1) ?_
  dsimp only
  rw [hstr]
  refine .op (exec_string hfilelen) ?_
  refine .op (exec_writeRequest _ _ _ _) (.op (exec_writeRequest _ _ _ _) ?_)
  have hr₂ := hr₁.setHeader (okHeader filelen)
  have hr₃ := hr₂.setHeadlen (okHeader filelen).length
  refine (callHeadfunc_refines hr₃ (okHeader filelen)).seq fun _ st₄ ⟨hr₄, hstr₄⟩ => ?_
  have hdata₄ : st₄.str pdata = .ok data := (hstr₄ pdata).trans hdata
  have hbytes : exec t (.bytes (some pdata) (sizeT (int32 data.length))) st₄ = .ok (data, st₄) := by
    rw [hint, sizeT_natCast (by omega)]
    exact exec_bytes hdata₄
  refine .op hbytes ?_
  refine (callWritefunc_refines hr₄ data).seq fun _ st₅ ⟨hr₅, hstr₅⟩ => ?_
  refine .op (exec_readRequest hr₅.1) ?_
  have hs₅ : st₅.str l.fullData = .ok s := by rw [hstr₅, hstr₄, ← hs]; rfl
  subst hfile
  by_cases heq : sizeT (l.bytesReceivedFILE + data.length) = r.filelen
  · have habs : strFirstData cfg filelen data (l.abs s) (viewOf r (st.log t)) = .done 0 _ :=
      if_pos heq
    rw [habs, if_pos heq]
    exact .ret ⟨rfl, hr₅.rep⟩
  · have habs : strFirstData cfg filelen data (l.abs s) (viewOf r (st.log t)) = .next _ _ :=
      if_neg heq
    rw [habs, if_neg heq]
    exact .ret ⟨hr₅.rep, s, hs₅, rfl⟩

/-! ## Parsing the header -/

/-- `strtok` will go on with the string `s` at `q`; the string `F` at `full` is in another
    block. -/
structure Scanning (cfg : Config) (t : Tid) (h : Handle) (st : Store) (r : Gfcrequest) (v : View)
    (q : Ptr) (s : List Byte) (full : Ptr) (F : List Byte) : Prop where
  rep : RepAs cfg t h st r v
  saved : st.saved = some q
  rest : st.str q = .ok s
  fullStr : st.str full = .ok F
  apart : ¬ SameBlock full q

variable {q full : Ptr} {s F : List Byte}

theorem AfterStrtok.scanning {o : Option Ptr} {p : Ptr} {d : List Byte}
    (ha : AfterStrtok st p st' o q d s) (hr : RepAs cfg t h st r v) (hF : st.str full = .ok F)
    (hapart : ¬ SameBlock full p) :
    Scanning cfg t h st' r v q (restToken d s) full F where
  rep := hr.untouched ha.untouched
  saved := ha.saved
  rest := ha.rest
  fullStr := (ha.settled full F ⟨hF, Or.inl hapart⟩).1
  apart := fun hsame =>
    hapart ⟨hsame.1.trans ha.block.1, hsame.2.trans ha.block.2⟩

/-- The next token. -/
theorem Scanning.strtok (hS : Scanning cfg t h st r v q s full F) (d : List Byte) :
    ∃ o q' st', exec t (.strtok none d) st = .ok (o, st') ∧
      Scanning cfg t h st' r v q' (restToken d s) full F ∧ IsToken st' q' o (firstToken d s) ∧
      ∀ o' tok, IsToken st q o' tok → IsToken st' q' o' tok := by
  obtain ⟨o, q', st', he, ha⟩ := execStrtok_spec d hS.rest
  refine ⟨o, q', st', ?_, ha.scanning hS.rep hS.fullStr hS.apart, ha.tok, fun o' tok => ha.isToken⟩
  rw [exec_strtok d (p := q) (by simpa using hS.saved), he]

/-- `strtok(NULL, "")` returns the whole rest, and a call that goes on from there scans it
    again. -/
theorem Scanning.skip (hS : Scanning cfg t h st r v q s full F) (d : List Byte) :
    ∃ rest st₁ o q' st', exec t (.strtok none []) st = .ok (rest, st₁) ∧
      exec t (.strtok rest d) st₁ = .ok (o, st') ∧
      Scanning cfg t h st' r v q' (restToken d s) full F ∧
      IsToken st' q' o (firstToken d s) := by
  obtain ⟨rest, q₁, st₁, he, ha⟩ := execStrtok_spec [] hS.rest
  have hS₁ := ha.scanning hS.rep hS.fullStr hS.apart
  -- the position from which the second call starts
  obtain ⟨p, hp, hs, hblock⟩ : ∃ p, rest.or st₁.saved = some p ∧ st₁.str p = .ok s ∧
      SameBlock p q := by
    rcases eq_or_ne s [] with rfl | hne
    · obtain rfl := ha.tok.none
      exact ⟨q₁, by simpa using ha.saved, by simpa using ha.rest, ha.block⟩
    · have htok : firstToken [] s = some s :=
        (firstToken_of_token (token_whole hne (by simp))).1
      obtain ⟨p, rfl, hset⟩ := (htok ▸ ha.tok).some
      exact ⟨p, by simp, hset.1, ha.tokBlock p rfl⟩
  obtain ⟨o, q', st', he', ha'⟩ := execStrtok_spec d hs
  refine ⟨rest, st₁, o, q', st', ?_, ?_, ha'.scanning hS₁.rep hS₁.fullStr fun hsame =>
    hS.apart ⟨hsame.1.trans hblock.1, hsame.2.trans hblock.2⟩, ha'.tok⟩
  · rw [exec_strtok [] (p := q) (by simpa using hS.saved), he]
  · rw [exec_strtok d hp, he']

theorem Scanning.writeRequest (hS : Scanning cfg t h st r v q s full F)
    {f : Gfcrequest → Gfcrequest} {r' : Gfcrequest} {v' : View}
    (hr : RepAs cfg t h (st.modifyReq h f) r' v') :
    Scanning cfg t h (st.modifyReq h f) r' v' q s full F :=
  ⟨hr, hS.saved, hS.rest, hS.fullStr, hS.apart⟩

theorem isToken_modifyReq {o : Option Ptr} {tok : Option (List Byte)}
    (f : Gfcrequest → Gfcrequest) (ht : IsToken st q o tok) :
    IsToken (st.modifyReq h f) q o tok := by
  cases o <;> cases tok <;> exact ht

theorem chooseData_refines {o2 o3 : Option Ptr} {temp2 fileData : Option (List Byte)}
    (h2 : IsToken st q o2 temp2) (h3 : IsToken st q o3 fileData) :
    Prog.Refines (exec t) (chooseData o2 o3) st (.ok (strChooseData temp2 fileData))
      (fun o st' tok => st' = st ∧ IsToken st q o tok) := by
  unfold chooseData strChooseData
  cases temp2 with
  | none =>
    obtain rfl := h2.none
    exact .ret ⟨rfl, by simpa using h3⟩
  | some s2 =>
    obtain ⟨p, rfl, hset⟩ := h2.some
    simp only [Option.isSome_some, if_true, true_and]
    refine (strcmpEq_refines hset.1).seq fun b st' hb => ?_
    obtain ⟨rfl, rfl⟩ := hb
    by_cases hcr : s2 = ascii "\r"
    · subst hcr
      exact .ret ⟨rfl, by simpa using h3⟩
    · simp only [hcr, Bool.not_eq_eq_eq_not, Bool.not_true, beq_eq_false_iff_ne, ne_eq,
        not_false_eq_true, if_true, Option.some.injEq]
      exact .ret ⟨rfl, h2⟩

theorem headerOk_refines {l : Locals} (hS : Scanning cfg t h st r v q s l.fullData F)
    (hl : l.headercheck = false)
    (hlt : ∀ u, behindLength s = some u → u.length < 2 ^ 31) :
    Prog.Refines (exec t) (headerOk h l) st (.ok (strHeaderOk cfg s (l.abs F) v))
      (FlowRel cfg t h) := by
  unfold headerOk strtok writeRequest string
  simp only [Prog.op_bind, Prog.ret_bind]
  refine .op (exec_writeRequest _ _ _ _) ?_
  obtain rfl : viewOf r (st.log t) = v := hS.rep.2.2
  have hS₀ := hS.writeRequest (hS.rep.setStatus .ok)
  obtain ⟨rest, st₁, o, q₂, st₂, he₁, he₂, hS₂, ht₂⟩ := hS₀.skip (ascii " \r\n")
  obtain ⟨o₁, q₃, st₃, he₃, hS₃, ht₃, hk₃⟩ := hS₂.strtok (ascii "\n")
  obtain ⟨o₂, q₄, st₄, he₄, hS₄, ht₄, hk₄⟩ := hS₃.strtok (ascii "\n")
  obtain ⟨o₃, q₅, st₅, he₅, hS₅, ht₅, hk₅⟩ := hS₄.strtok (ascii "\n")
  refine .op he₁ (.op he₂ (.op he₃ (.op he₄ (.op he₅ ?_))))
  replace ht₂ := hk₅ _ _ (hk₄ _ _ (hk₃ _ _ ht₂))
  replace ht₃ := hk₅ _ _ (hk₄ _ _ ht₃)
  replace ht₄ := hk₅ _ _ ht₄
  clear he₁ he₂ he₃ he₄ he₅ hk₃ hk₄ hk₅ hS₀ hS₂ hS₃ hS₄
  cases ht1 : firstToken (ascii "\n") (restToken (ascii " \r\n") s) with
  | none =>
    rw [strHeaderOk_incomplete ht1]
    rw [ht1] at ht₃
    obtain rfl := ht₃.none
    simp only [Option.isSome_none, Bool.and_false]
    refine (chooseData_refines ht₄ ht₅).seq fun o' st' hdata => ?_
    obtain ⟨hst, ht⟩ := hdata
    -- nothing stands behind the length
    rw [restToken_of_none ht1] at ht
    obtain rfl := IsToken.none (by simpa [strChooseData] using ht)
    subst hst
    refine .ret ⟨hS₅.rep.rep, F, hS₅.fullStr, ?_⟩
    rw [Locals.abs, Locals.abs, hl]
  | some temp1 =>
    obtain ⟨u, hu⟩ : ∃ u, token (ascii " \r\n") s = some u := by
      by_contra hnone
      rw [← Option.ne_none_iff_exists', not_not] at hnone
      rw [restToken_of_none (firstToken_eq_none.mpr hnone)] at ht1
      simp at ht1
    obtain ⟨filelen, u⟩ := u
    obtain ⟨hu1, hu2⟩ := firstToken_of_token hu
    rw [hu2] at ht1 ht₃ ht₄ ht₅
    have htok := token_eq_some ht1
    rw [hu1] at ht₂
    rw [ht1] at ht₃
    obtain ⟨p, rfl, hset⟩ := ht₂.some
    obtain ⟨p₁, rfl, -⟩ := ht₃.some
    set w := restToken (ascii "\n") u
    have hlw : w.length < 2 ^ 31 := hlt w (by simp [behindLength, afterTokens, hu, htok])
    have hcomplete : afterTokens [(ascii " \r\n", (· = filelen)), (ascii "\n", fun _ => true)] s =
        some w := by simp [afterTokens, hu, htok]
    rw [strHeaderOk_complete hcomplete]
    simp only [Option.isSome_some, Bool.and_true, if_true]
    refine .op (exec_writeRequest _ _ _ _) (.op (exec_string hset.1) ?_)
    refine .op (exec_writeRequest _ _ _ _) ?_
    have hr₆ := hS₅.rep.setFilelenstr (some p)
    have hr₇ := hr₆.setFilelen (sizeT (atol filelen))
    have hS₇ := (hS₅.writeRequest hr₆).writeRequest hr₇
    refine (chooseData_refines (isToken_modifyReq _ (isToken_modifyReq _ ht₄))
      (isToken_modifyReq _ (isToken_modifyReq _ ht₅))).seq fun o' st' hchosen => ?_
    obtain ⟨hst, ht⟩ := hchosen
    subst hst
    cases hdata : strChooseData (firstToken (ascii "\n") w)
        (firstToken (ascii "\n") (restToken (ascii "\n") w)) with
    | none =>
      rw [hdata] at ht
      obtain rfl := ht.none
      exact .ret ⟨hS₇.rep.rep, F, hS₇.fullStr, rfl⟩
    | some data =>
      rw [hdata] at ht
      obtain ⟨pdata, rfl, hsetdata⟩ := ht.some
      exact firstData_refines hS₇.rep (l := { l with headercheck := true }) hS₇.fullStr hset.1
        hsetdata.1 rfl ((strChooseData_length hdata).trans_lt hlw)

/-- A reply without a body: the status is set and the header callback called. -/
theorem replyStatus_refines {l : Locals} (hS : Scanning cfg t h st r v q s l.fullData F)
    (status : GfStatus) (data : List Byte) :
    Prog.Refines (exec t) (do
      writeRequest h fun r => { r with status := status }
      callHeadfunc h data
      return Flow.done 0) st
      (.ok (.done 0 { v with status := status, log := v.log ++ cfg.headCalls data }))
      (FlowRel cfg t h) := by
  obtain rfl : viewOf r (st.log t) = v := hS.rep.2.2
  have hr₁ := hS.rep.setStatus status
  refine .op (exec_writeRequest _ _ _ _) ?_
  exact (callHeadfunc_refines hr₁ data).seq fun _ st₂ ⟨hr₂, _⟩ => .ret ⟨rfl, hr₂.rep⟩

theorem parseHeader_refines {l : Locals} {checkformat : Ptr} (hr : RepAs cfg t h st r v)
    (hF : st.str l.fullData = .ok F) (hcopy : st.str checkformat = .ok F)
    (hapart : ¬ SameBlock l.fullData checkformat) (hl : l.headercheck = false)
    (hlt : ∀ u, bodyStart F = some u → u.length < 2 ^ 31) :
    Prog.Refines (exec t) (parseHeader h checkformat l) st (strParseHeader cfg (l.abs F) v)
      (FlowRel cfg t h) := by
  obtain rfl : viewOf r (st.log t) = v := hr.2.2
  unfold parseHeader strParseHeader
  by_cases h7 : l.bytesReceivedTotal > 7
  · rw [if_pos h7, if_pos (show (l.abs F).bytesReceivedTotal > 7 from h7)]
    unfold strtok
    simp only [Prog.op_bind, Prog.ret_bind]
    obtain ⟨o, q, st₁, he, ha⟩ := execStrtok_spec (ascii " ") hcopy
    refine .op (by rw [exec_strtok _ (p := checkformat) (by simp), he]) ?_
    have hS₁ := ha.scanning hr hF hapart
    have hF' : (l.abs F).fullData = F := rfl
    rw [hF']
    cases hscheme : firstToken (ascii " ") F with
    | none =>
      obtain rfl := (hscheme ▸ ha.tok).none
      exact .fault rfl
    | some scheme =>
      obtain ⟨p, rfl, hset⟩ := (hscheme ▸ ha.tok).some
      refine (strcmpEq_refines hset.1).seq fun b st' hb => ?_
      obtain ⟨rfl, rfl⟩ := hb
      by_cases hget : scheme = ascii "GETFILE"
      · subst hget
        simp only [beq_self_eq_true, Bool.not_true, Bool.false_eq_true, if_false, ne_eq,
          not_true_eq_false]
        by_cases h10 : l.bytesReceivedTotal > 10
        · rw [if_pos h10, if_pos (show (l.abs F).bytesReceivedTotal > 10 from h10)]
          obtain ⟨o₂, q₂, st₂, he₂, hS₂, ht₂, -⟩ := hS₁.strtok (ascii " \r\n")
          refine .op he₂ ?_
          cases hstatus : firstToken (ascii " \r\n") (restToken (ascii " ") F) with
          | none =>
            obtain rfl := (hstatus ▸ ht₂).none
            exact .fault rfl
          | some status =>
            obtain ⟨p₂, rfl, hset₂⟩ := (hstatus ▸ ht₂).some
            refine (strcmpEq_refines hset₂.1).seq fun b st' hb => ?_
            obtain ⟨rfl, rfl⟩ := hb
            by_cases hok : status = ascii "OK"
            · subst hok
              simp only [beq_self_eq_true, Bool.not_true, Bool.false_eq_true, if_false, if_true]
              refine headerOk_refines hS₂ hl fun u hu => hlt u ?_
              refine afterTokens_cons_some.mpr ⟨_, _, token_eq_some hscheme, by simp, ?_⟩
              exact afterTokens_cons_some.mpr ⟨_, _, token_eq_some hstatus, by simp, hu⟩
            · simp only [hok, if_true, if_false, Bool.not_eq_eq_eq_not, Bool.not_true,
                beq_eq_false_iff_ne, ne_eq, not_false_eq_true]
              refine (strcmpEq_refines hset₂.1).seq fun b st' hb => ?_
              obtain ⟨rfl, rfl⟩ := hb
              by_cases hfnf : status = ascii "FILE_NOT_FOUND"
              · simp only [hfnf, beq_self_eq_true, if_true]
                exact replyStatus_refines hS₂ _ _
              · simp only [hfnf, beq_iff_eq, if_false]
                refine (strcmpEq_refines hset₂.1).seq fun b st' hb => ?_
                obtain ⟨rfl, rfl⟩ := hb
                by_cases herr : status = ascii "ERROR"
                · simp only [herr, beq_self_eq_true, if_true]
                  exact replyStatus_refines hS₂ _ _
                · simp only [herr, beq_iff_eq, if_false]
                  exact .ret ⟨hS₂.rep.rep, F, hS₂.fullStr, rfl⟩
        · rw [if_neg h10, if_neg (show ¬ (l.abs F).bytesReceivedTotal > 10 from h10)]
          exact .ret ⟨hS₁.rep.rep, F, hS₁.fullStr, rfl⟩
      · simp only [hget, ne_eq, not_false_eq_true, if_true, Bool.not_eq_eq_eq_not, Bool.not_true,
          beq_eq_false_iff_ne]
        refine .op (exec_writeRequest _ _ _ _) (.op (exec_writeRequest _ _ _ _) (.ret ⟨rfl, ?_⟩))
        have hr₂ := hS₁.rep.setStatus .invalid
        exact (hr₂.setBytesFileReceived l.bytesReceivedTotal).rep
  · rw [if_neg h7, if_neg (show ¬ (l.abs F).bytesReceivedTotal > 7 from h7)]
    exact .ret ⟨hr.rep, F, hF, rfl⟩

/-! ## The iterations -/

theorem headerChunk_refines {l : Locals} (hr : RepAs cfg t h st r v) (c : Chunk)
    (hF : st.str l.fullData = .ok F) (hl : l.headercheck = false)
    (hlt : ∀ new u, cstr (recvBuf c) 0 = .ok new → bodyStart (F ++ new) = some u →
      u.length < 2 ^ 31) :
    Prog.Refines (exec t) (headerChunk h c l) st (strHeaderChunk cfg c (l.abs F) v)
      (FlowRel cfg t h) := by
  unfold headerChunk string
  simp only [Prog.op_bind, Prog.ret_bind]
  refine .op (exec_string hF) ?_
  cases hnew : cstr (recvBuf c) 0 with
  | error f =>
    rw [strHeaderChunk, hnew]
    exact .fault rfl
  | ok new =>
    have hzero : 0 ∉ F ++ new := by
      obtain ⟨b, -, hb⟩ := Store.str_eq_ok hF
      simp [(cstr_eq_ok_iff.mp hb).1, (cstr_eq_ok_iff.mp hnew).1]
    dsimp only
    by_cases hlong : l.bytesReceivedTotal < F.length + new.length
    · rw [if_pos hlong, strHeaderChunk_long hnew hlong]
      exact .fault rfl
    rw [if_neg hlong, strHeaderChunk_fits hnew (not_lt.mp hlong)]
    unfold malloc
    simp only [Prog.op_bind, Prog.ret_bind]
    set st₁ := st.push t (F ++ new ++ [0]) with hst₁
    have hstr₁ : st₁.str (st.newPtr t) = .ok (F ++ new) := str_push_new hzero
    refine .op (exec_malloc t _ st) (.op (exec_string hstr₁) (.op (exec_malloc t _ st₁) ?_))
    obtain ⟨hold, hapart⟩ := str_push_old t (F ++ new ++ [0]) hstr₁
    exact parseHeader_refines (l := { l with fullData := st.newPtr t })
      ((hr.untouched (untouched_push _ _ _)).untouched (untouched_push _ _ _))
      hold (str_push_new hzero) hapart hl (fun u => hlt new u hnew)

/-- What `gfc_perform` returns, and the view of the request then. -/
def RetRel (cfg : Config) (t : Tid) (h : Handle) (ret : ℤ) (st : Store) (b : ℤ × View) : Prop :=
  ret = b.1 ∧ Rep cfg t h st b.2

/-- The end of `recvEnd`: anything but "GETFILE OK" is an invalid header. -/
theorem closeStatus_refines {oscheme ostatus : Option Ptr} {scheme status : Option (List Byte)}
    (hr : RepAs cfg t h st r v) (hscheme : IsToken st q oscheme scheme)
    (hstatus : IsToken st q ostatus status) (hnone : scheme = none → status = none) :
    Prog.Refines (exec t) (do
      if !(← strcmpEq ostatus (ascii "OK")) then
        writeRequest h fun r => { r with status := .invalid }
      else if !(← strcmpEq oscheme (ascii "GETFILE")) then
        writeRequest h fun r => { r with status := .invalid }
      return -1) st
      (match status with
        | none => .error .nullPointer
        | some status =>
          if status = ascii "OK" ∧ scheme = some (ascii "GETFILE") then .ok (-1, v)
          else .ok (-1, { v with status := .invalid }))
      (RetRel cfg t h) := by
  obtain rfl : viewOf r (st.log t) = v := hr.2.2
  have hr₁ := hr.setStatus .invalid
  cases status with
  | none =>
    obtain rfl := hstatus.none
    exact .fault rfl
  | some status =>
    obtain ⟨p, rfl, hset⟩ := hstatus.some
    refine (strcmpEq_refines hset.1).seq fun b st' hb => ?_
    obtain ⟨rfl, rfl⟩ := hb
    by_cases hok : status = ascii "OK"
    · simp only [hok, beq_self_eq_true, Bool.not_true, Bool.false_eq_true, if_false, true_and]
      cases scheme with
      | none => exact absurd (hnone rfl) (by simp)
      | some scheme =>
        obtain ⟨p', rfl, hset'⟩ := hscheme.some
        refine (strcmpEq_refines hset'.1).seq fun b st' hb => ?_
        obtain ⟨rfl, rfl⟩ := hb
        by_cases hget : scheme = ascii "GETFILE"
        · simp only [hget, beq_self_eq_true, Bool.not_true, Bool.false_eq_true, if_false, if_true]
          exact .ret ⟨rfl, hr.rep⟩
        · simp only [hget, Option.some.injEq, if_false, Bool.not_eq_eq_eq_not, Bool.not_true,
            beq_eq_false_iff_ne, ne_eq, not_false_eq_true, if_true]
          exact .op (exec_writeRequest _ _ _ _) (.ret ⟨rfl, hr₁.rep⟩)
    · simp only [hok, false_and, if_false, Bool.not_eq_eq_eq_not, Bool.not_true,
        beq_eq_false_iff_ne, ne_eq, not_false_eq_true, if_true]
      exact .op (exec_writeRequest _ _ _ _) (.ret ⟨rfl, hr₁.rep⟩)

theorem recvEnd_refines {l : Locals} (hr : RepAs cfg t h st r v) (e : Ending)
    (hF : st.str l.fullData = .ok F) :
    Prog.Refines (exec t) (recvEnd h e l) st (strRecvEnd e (l.abs F) v) (RetRel cfg t h) := by
  have hr₁ := hr.setBytesreceived (sizeT (l.bytesReceivedTotal + e.bytesrecv))
  unfold recvEnd writeRequest
  simp only [Prog.op_bind, Prog.ret_bind]
  refine .op (exec_writeRequest _ _ _ _) ?_
  cases e with
  | error => exact .ret ⟨rfl, hr₁.rep⟩
  | close =>
    unfold strtok string
    simp only [Prog.op_bind, Prog.ret_bind]
    obtain ⟨oscheme, q₁, st₁, he₁, ha₁⟩ := execStrtok_spec (ascii " ")
      (show (st.modifyReq h _).str l.fullData = .ok F from hF)
    obtain ⟨ostatus, q₂, st₂, he₂, ha₂⟩ := execStrtok_spec (ascii " ") ha₁.rest
    obtain ⟨ofilelen, q₃, st₃, he₃, ha₃⟩ := execStrtok_spec (ascii " \r\n") ha₂.rest
    refine .op (by rw [exec_strtok _ (p := l.fullData) (by simp), he₁]) ?_
    refine .op (by rw [exec_strtok _ (p := q₁) (by simpa using ha₁.saved), he₂]) ?_
    refine .op (by rw [exec_strtok _ (p := q₂) (by simpa using ha₂.saved), he₃]) ?_
    refine .op (exec_writeRequest _ _ _ _) ?_
    have hr₃ := ((hr₁.untouched ha₁.untouched).untouched ha₂.untouched).untouched ha₃.untouched
    have hr₄ := hr₃.setBytesreceived (sizeT (l.bytesReceivedTotal + Ending.close.bytesrecv))
    have hscheme := ha₃.isToken (ha₂.isToken ha₁.tok)
    have hstatus := ha₃.isToken ha₂.tok
    have hnone : firstToken (ascii " ") F = none →
        firstToken (ascii " ") (restToken (ascii " ") F) = none := by
      intro hnone
      rw [restToken_of_none hnone, firstToken_nil]
    have hF' : (l.abs F).fullData = F := rfl
    unfold strRecvEnd
    dsimp only
    rw [hF']
    cases hlen : firstToken (ascii " \r\n") (restToken (ascii " ") (restToken (ascii " ") F)) with
    | none =>
      obtain rfl := (hlen ▸ ha₃.tok).none
      exact closeStatus_refines hr₄ (isToken_modifyReq _ hscheme) (isToken_modifyReq _ hstatus) hnone
    | some filelen =>
      obtain ⟨p, rfl, hset⟩ := (hlen ▸ ha₃.tok).some
      have hr₅ := hr₄.setFilelen (sizeT (atol filelen))
      have hr₆ := hr₅.setFilelenstr (some p)
      rw [Option.isSome_some, if_pos rfl]
      refine .op (exec_string hset.1) ?_
      refine .op (exec_writeRequest _ _ _ _) (.op (exec_writeRequest _ _ _ _) ?_)
      exact closeStatus_refines hr₆
        (isToken_modifyReq _ (isToken_modifyReq _ (isToken_modifyReq _ hscheme)))
        (isToken_modifyReq _ (isToken_modifyReq _ (isToken_modifyReq _ hstatus))) hnone

/-- The next iteration, if there is one. -/
theorem goOn_refines {e : Ending} {cs : List Chunk}
    (ih : ∀ {st v} {l : Locals} {F}, Rep cfg t h st v → st.str l.fullData = .ok F →
      (l.headercheck = false → Pending F l.bytesReceivedTotal) →
      Prog.Refines (exec t) (gfcPerformLoop h e cs l) st (perform cfg e cs (l.abs F) v)
        (RetRel cfg t h))
    {a : Flow} {b : StrFlow} (hab : FlowRel cfg t h a st' b)
    (hpend : ∀ l v, b = .next l v → l.headercheck = false → Pending l.fullData l.bytesReceivedTotal) :
    Prog.Refines (exec t)
      (match a with
        | .done ret => return ret
        | .next l => gfcPerformLoop h e cs l) st'
      (match b with
        | .done ret v => .ok (ret, v)
        | .next l v => perform cfg e cs l v) (RetRel cfg t h) := by
  cases a with
  | done ret =>
    cases b with
    | done ret' v' => exact .ret hab
    | next l' v' => exact hab.elim
  | next la =>
    cases b with
    | done ret' v' => exact hab.elim
    | next l' v' =>
      obtain ⟨hrep, F', hF', rfl⟩ := hab
      exact ih hrep hF' fun hla => hpend _ _ rfl hla

/-- The loop, from any state in which the header is pending or complete. -/
theorem gfcPerformLoop_refines (e : Ending) (cs : List Chunk) {l : Locals}
    (hr : Rep cfg t h st v) (hF : st.str l.fullData = .ok F)
    (hl : l.headercheck = false → Pending F l.bytesReceivedTotal) :
    Prog.Refines (exec t) (gfcPerformLoop h e cs l) st (perform cfg e cs (l.abs F) v)
      (RetRel cfg t h) := by
  induction cs generalizing st v l F with
  | nil =>
    obtain ⟨r, hr⟩ := hr
    exact recvEnd_refines hr e hF
  | cons c cs ih =>
    obtain ⟨r, hr⟩ := hr
    unfold gfcPerformLoop perform writeRequest
    simp only [Prog.op_bind, Prog.ret_bind]
    refine .op (exec_writeRequest _ _ _ _) ?_
    have hr₁ := hr.setBytesreceived (sizeT (l.bytesReceivedTotal + c.data.length))
    set l₁ : Locals := { l with
      bytesReceivedTotal := sizeT (l.bytesReceivedTotal + c.data.length) } with hl₁
    by_cases hcheck : l.headercheck = true
    · rw [if_pos hcheck, if_pos (show (l.abs F).headercheck = true from hcheck)]
      refine (bodyChunk_refines hr₁ c (l := l₁) hF).result.bind fun a st' b hflow =>
        goOn_refines ih hflow.1 ?_
      have hb := hflow.2
      rintro l' v' rfl hfalse
      rw [← strBodyChunk_headercheck (Except.ok.inj hb), Locals.abs, hl₁, hcheck] at hfalse
      cases hfalse
    · rw [if_neg hcheck, if_neg (show ¬ (l.abs F).headercheck = true from hcheck)]
      rw [Bool.not_eq_true] at hcheck
      refine (headerChunk_refines hr₁ c (l := l₁) hF hcheck fun new u hnew hu => ?_).result.bind
        fun a st' b hflow => goOn_refines ih hflow.1 ?_
      · exact (hl hcheck).body_lt ((cstr_recvBuf_length hnew).trans c.le) hu
      · have hb := hflow.2
        rintro l' v' rfl hfalse
        cases hnew : cstr (recvBuf c) 0 with
        | error f => simp [strHeaderChunk, hnew, Except.bind] at hb
        | ok new =>
          by_cases hlong : l₁.bytesReceivedTotal < F.length + new.length
          · rw [strHeaderChunk_long hnew hlong] at hb
            cases hb
          · rw [strHeaderChunk_fits hnew (not_lt.mp hlong)] at hb
            obtain ⟨rfl, hnone⟩ := strParseHeader_next hb hfalse
            exact ⟨by simpa [Locals.abs] using hlong, hnone⟩

/-! ## A whole request -/

/-- Request `h` of thread `t` is the record `r`, `gfr` refers to it, and the thread has
    done `log`. -/
def Has (t : Tid) (h : Handle) (st : Store) (r : Gfcrequest) (log : List Event) : Prop :=
  st.gfr = some h ∧ st.req h = some r ∧ st.log t = log

variable {log : List Event}

theorem writeRequest_refines (hh : Has t h st r log) (f : Gfcrequest → Gfcrequest) :
    Prog.Refines (exec t) (writeRequest h f) st (.ok ()) fun _ st' _ => Has t h st' (f r) log := by
  obtain ⟨hgfr, hreq, hlog⟩ := hh
  have hget : (st.reqs h.tid)[h.idx]? = some r := hreq
  exact .op (exec_writeRequest _ _ _ _)
    (.ret ⟨hgfr, by simp [Store.req, Store.modifyReq, hget], hlog⟩)

theorem exec_getGfr (hgfr : st.gfr = some h) : exec t .getGfr st = .ok (h, st) := by
  simp [exec, hgfr]

theorem gfrAssign_refines (hh : Has t h st r log) (f : Gfcrequest → Gfcrequest) :
    Prog.Refines (exec t) (gfrAssign f) st (.ok ()) fun _ st' _ => Has t h st' (f r) log := by
  unfold gfrAssign getGfr
  exact .op (exec_getGfr hh.1) (writeRequest_refines hh f)

/-- The request as `gfc_create` leaves it. -/
def createdRequest (junk : Gfcrequest) : Gfcrequest :=
  { junk with
    headfunc := none, headarg := none, writefunc := none, writearg := none, server := none,
    path := none, status := .fileNotFound, filelen := 0, filelenstr := none, headlen := 0,
    bytesreceived := 0, bytesFileReceived := 0 }

theorem gfcCreate_refines (junk : Gfcrequest) :
    Prog.Refines (exec t) (gfcCreate junk) Store.empty (.ok ())
      fun h' st' _ => h' = ⟨t, 0⟩ ∧ Has t ⟨t, 0⟩ st' (createdRequest junk) [] := by
  unfold gfcCreate mallocRequest setGfr
  simp only [Prog.op_bind, Prog.ret_bind]
  refine .op rfl (.op rfl ?_)
  refine (@gfrAssign_refines t ⟨t, 0⟩ _ junk []
    ⟨rfl, by simp [Store.req, Store.empty], rfl⟩ _).seq fun _ _ h => ?_
  iterate 11 refine (gfrAssign_refines h _).seq fun _ _ h => ?_
  unfold getGfr
  exact .op (exec_getGfr h.1) (.ret ⟨rfl, h⟩)

/-- The last calls of `gfcSetup`. -/
theorem gfcSetWrite_refines (hh : Has t h st r log) (hpath : r.path = some cfg.path)
    (hfunc : r.headfunc = cfg.head.map Prod.fst) (harg : r.headarg = cfg.head.bind Prod.snd)
    (hnone : r.writearg = none) (hview : viewOf r log = v) :
    Prog.Refines (exec t) (do
      gfcSetWritefunc h cfg.writefunc
      match cfg.writearg with
      | none => pure ()
      | some arg => gfcSetWritearg h arg) st (.ok ())
      fun _ st' _ => ∃ r, Has t h st' r log ∧ Registered cfg r ∧ r.path = some cfg.path ∧
        viewOf r log = v := by
  refine (writeRequest_refines hh _).seq fun _ st₁ h₁ => ?_
  cases hwarg : cfg.writearg with
  | none => exact .ret ⟨_, h₁, ⟨hfunc, harg, rfl, hnone.trans hwarg.symm⟩, hpath, hview⟩
  | some warg =>
    refine (writeRequest_refines h₁ _).mono fun _ st₂ _ h₂ => ?_
    exact ⟨_, h₂, ⟨hfunc, harg, rfl, hwarg.symm⟩, hpath, hview⟩

/-- After the calls of `gfc_set_*` the callbacks and the path are those of `cfg`. -/
theorem gfcSetup_refines {junk : Gfcrequest} (hh : Has t h st (createdRequest junk) log) :
    Prog.Refines (exec t) (gfcSetup h cfg) st (.ok ())
      fun _ st' _ => ∃ r, Has t h st' r log ∧ Registered cfg r ∧ r.path = some cfg.path ∧
        viewOf r log = ⟨.fileNotFound, 0, 0, 0, log⟩ := by
  unfold gfcSetup
  refine (writeRequest_refines hh _).seq fun _ _ h₁ => ?_
  refine (writeRequest_refines h₁ _).seq fun _ _ h₂ => ?_
  refine (writeRequest_refines h₂ _).seq fun _ _ h₃ => ?_
  rcases hhead : cfg.head with - | ⟨f, - | arg⟩
  · exact gfcSetWrite_refines h₃ rfl (by simp [hhead, createdRequest])
      (by simp [hhead, createdRequest]) rfl rfl
  · refine (writeRequest_refines h₃ _).seq fun _ _ h₄ => ?_
    exact gfcSetWrite_refines h₄ rfl (by simp [hhead]) (by simp [hhead, createdRequest]) rfl rfl
  · refine (writeRequest_refines h₃ _).seq fun _ _ h₄ => ?_
    refine (writeRequest_refines h₄ _).seq fun _ _ h₅ => ?_
    exact gfcSetWrite_refines h₅ rfl (by simp [hhead]) (by simp [hhead]) rfl rfl

/-- What a request that runs alone returns, and what its thread has done. -/
theorem requestThread_refines (junk : Gfcrequest) (cfg : Config) (rs : Recvs) :
    Prog.Refines (exec t) (requestThread junk cfg rs) Store.empty
      (performRequest cfg rs ⟨t, 0⟩)
      fun o st' b => o = b.2.outcome b.1 ∧ st'.log t = b.2.log := by
  unfold requestThread
  refine (gfcCreate_refines junk).seq fun h st₁ ⟨hh, h₁⟩ => ?_
  subst hh
  refine .op (exec_emit _ _ _) ?_
  have h₂ : Has t ⟨t, 0⟩ (st₁.emit t (.created ⟨t, 0⟩)) (createdRequest junk)
      [.created ⟨t, 0⟩] := ⟨h₁.1, h₁.2.1, by simp [Store.emit, h₁.2.2]⟩
  refine (gfcSetup_refines h₂).seq fun _ st₃ ⟨r, h₃, hreg, hpath, hview⟩ => ?_
  have hr₃ : RepAs cfg t ⟨t, 0⟩ st₃ r ⟨.fileNotFound, 0, 0, 0, [.created ⟨t, 0⟩]⟩ :=
    ⟨h₃.2.1, hreg, by rw [h₃.2.2, hview]⟩
  have hperform : Prog.Refines (exec t) (gfcPerform ⟨t, 0⟩ rs) st₃ (performRequest cfg rs ⟨t, 0⟩)
      (RetRel cfg t ⟨t, 0⟩) := by
    unfold gfcPerform malloc readRequest
    simp only [Prog.op_bind, Prog.ret_bind]
    refine .op (exec_malloc t _ st₃) (.op (exec_readRequest (hr₃.untouched (untouched_push _ _ _)).1) ?_)
    rw [hpath]
    refine .op (exec_emit _ _ _) ?_
    have hempty : (st₃.push t [0]).str (st₃.newPtr t) = .ok [] := str_push_new (s := []) (by simp)
    exact gfcPerformLoop_refines rs.ending rs.chunks (l := ⟨st₃.newPtr t, false, 0, 0⟩)
      ((hr₃.untouched (untouched_push _ _ _)).emit _).rep hempty
      fun _ => Pending.nil
  have hmap : performRequest cfg rs ⟨t, 0⟩ = (performRequest cfg rs ⟨t, 0⟩).bind .ok := by
    cases performRequest cfg rs ⟨t, 0⟩ <;> rfl
  rw [hmap]
  refine hperform.bind fun ret st₄ b ⟨hret, r₄, hr₄⟩ => ?_
  obtain ⟨ret', v⟩ := b
  obtain rfl : ret = ret' := hret
  obtain rfl : viewOf r₄ (st₄.log t) = v := hr₄.2.2
  have hread := exec_readRequest (t := t) hr₄.1
  exact .op hread (.op hread (.op hread (.op hread (.ret ⟨rfl, rfl⟩))))

end Steps

/-- A request that runs alone, on strings. -/
theorem request_eq (junk : Gfcrequest) (cfg : Config) (rs : Recvs) :
    request junk cfg rs =
      (performRequest cfg rs ⟨0, 0⟩).map fun b => (b.2.outcome b.1, b.2.log) := by
  have h := requestThread_refines (t := 0) junk cfg rs
  unfold Prog.Refines at h
  unfold request
  cases hrun : (requestThread junk cfg rs).alone (exec 0) Store.empty with
  | error f =>
    cases hperf : performRequest cfg rs ⟨0, 0⟩ with
    | error f' => rw [hrun, hperf] at h; rw [show f = f' from h]; rfl
    | ok b => rw [hrun, hperf] at h; exact h.elim
  | ok as =>
    cases hperf : performRequest cfg rs ⟨0, 0⟩ with
    | error f' => rw [hrun, hperf] at h; exact h.elim
    | ok b =>
      rw [hrun, hperf] at h
      simp only [Except.map, h.1, h.2]

end IntroOS.Gfclient
