import IntroOS.Gfclient.Refinement

/-!
# Concurrent requests

Threads that each make one request in the same process. They share the file-level variable
`gfr` and the position that `strtok` has saved; the memory and the requests of a thread are
its own.

Main results:

* `requestThread_safe`: alone, a thread touches its own memory and its own request only.
* `isolates`: as long as each thread finds its own values in the two shared variables, the
  others do not change what it sees.
* `requests_isolated`: in the runs in which they do, every request ends as it does alone.
-/

namespace IntroOS.Gfclient

open CString Concurrency

/-! ## Private operations -/

/-- A pointer into the memory of thread `t`, or a null pointer. -/
def Own (t : Tid) (p : Option Ptr) : Prop := ∀ q, p = some q → q.tid = t

/-- The operation uses memory and requests of thread `t` only. -/
def Private (t : Tid) : Op → Prop
  | .malloc _ | .mallocRequest _ | .getGfr | .crash _ => True
  | .setGfr h | .readRequest h | .writeRequest h _ => h.tid = t
  | .string p | .bytes p _ | .strtok p _ => Own t p
  | .emit e => ∀ h, e = .created h → h.tid = t

/-- The operation uses the memory of a thread and its request `h`, and does not use `gfr`. -/
def Using (h : Handle) : Op → Prop
  | .malloc _ | .crash _ => True
  | .mallocRequest _ | .setGfr _ | .getGfr => False
  | .readRequest h' => h' = h
  | .writeRequest h' f => h' = h ∧ ∀ r, Own h.tid r.filelenstr → Own h.tid (f r).filelenstr
  | .string p | .bytes p _ | .strtok p _ => Own h.tid p
  | .emit e => ∀ h', e = .created h' → h'.tid = h.tid

/-- The response gives pointers of thread `t` only. -/
def Answers (t : Tid) : (o : Op) → o.Res → Prop
  | .malloc _, p => p.tid = t
  | .readRequest _, r => Own t r.filelenstr
  | .strtok _ _, p => Own t p
  | .mallocRequest _, h | .getGfr, h => h.tid = t
  | _, _ => True

/-- The program uses the memory of a thread and its request `h`. -/
abbrev Uses {α : Type} (h : Handle) (p : CProg α) (Q : α → Prop) : Prop :=
  p.Within (Using h) (Answers h.tid) Q

section Uses

variable {h : Handle} {l : Locals} {e : Ending} {c : Chunk} {data : List Byte}
  {filelen fileData temp2 : Option Ptr}

theorem own_none (t : Tid) : Own t none := fun _ => nofun

theorem own_some {t : Tid} {p : Ptr} : Own t (some p) ↔ p.tid = t := by simp [Own]

/-! ### One operation after the other -/

section Op

variable {α : Type} {p : Option Ptr} {n : ℕ} {block delim : List Byte} {f : Gfcrequest → Gfcrequest}
  {Q : α → Prop}

theorem uses_malloc {k : Ptr → CProg α} (hk : ∀ p, p.tid = h.tid → Uses h (k p) Q) :
    Uses h (malloc block >>= k) Q := ⟨trivial, hk⟩

theorem uses_writeRequest {k : Unit → CProg α}
    (hf : ∀ r, Own h.tid r.filelenstr → Own h.tid (f r).filelenstr) (hk : Uses h (k ()) Q) :
    Uses h (writeRequest h f >>= k) Q := ⟨⟨rfl, hf⟩, fun _ _ => hk⟩

theorem uses_readRequest {k : Gfcrequest → CProg α}
    (hk : ∀ r, Own h.tid r.filelenstr → Uses h (k r) Q) : Uses h (readRequest h >>= k) Q :=
  ⟨rfl, hk⟩

theorem uses_string {k : List Byte → CProg α} (hp : Own h.tid p) (hk : ∀ s, Uses h (k s) Q) :
    Uses h (string p >>= k) Q := ⟨hp, fun s _ => hk s⟩

theorem uses_bytes {k : List Byte → CProg α} (hp : Own h.tid p) (hk : ∀ s, Uses h (k s) Q) :
    Uses h (bytes p n >>= k) Q := ⟨hp, fun s _ => hk s⟩

theorem uses_strtok {k : Option Ptr → CProg α} (hp : Own h.tid p)
    (hk : ∀ q, Own h.tid q → Uses h (k q) Q) : Uses h (strtok p delim >>= k) Q := ⟨hp, hk⟩

theorem uses_strcmpEq {k : Bool → CProg α} {lit : List Byte} (hp : Own h.tid p)
    (hk : ∀ b, Uses h (k b) Q) : Uses h (strcmpEq p lit >>= k) Q := ⟨hp, fun _ _ => hk _⟩

theorem uses_crash {fault : Fault} : Uses h (crash fault : CProg α) Q := ⟨trivial, nofun⟩

end Op

/-! ### `gfc_perform` -/

/-- The next iteration of the loop has its data in the memory of the thread. -/
def Flow.Keeps (t : Tid) : Flow → Prop
  | .done _ => True
  | .next l => l.fullData.tid = t

theorem recvEnd_uses (hl : l.fullData.tid = h.tid) : Uses h (recvEnd h e l) fun _ => True := by
  unfold recvEnd
  refine uses_writeRequest (fun _ hr => hr) ?_
  cases e with
  | error => trivial
  | close =>
    refine uses_strtok (own_some.mpr hl) fun scheme hscheme => ?_
    refine uses_strtok (own_none _) fun status hstatus => uses_strtok (own_none _) fun filelen hlen => ?_
    refine uses_writeRequest (fun _ hr => hr) ?_
    have hlast : Uses h (do
        if !(← strcmpEq status (ascii "OK")) then
          writeRequest h fun r => { r with status := .invalid }
        else if !(← strcmpEq scheme (ascii "GETFILE")) then
          writeRequest h fun r => { r with status := .invalid }
        return (-1 : ℤ)) fun _ => True := by
      refine uses_strcmpEq hstatus fun b => ?_
      cases b with
      | false => exact uses_writeRequest (fun _ hr => hr) trivial
      | true =>
        refine uses_strcmpEq hscheme fun b => ?_
        cases b with
        | false => exact uses_writeRequest (fun _ hr => hr) trivial
        | true => trivial
    rw [Uses, Prog.within_ite]
    refine ⟨fun _ => uses_string hlen fun s => ?_, fun _ => hlast⟩
    exact uses_writeRequest (fun _ hr => hr) (uses_writeRequest (fun _ _ => hlen) hlast)

theorem callHeadfunc_uses : Uses h (callHeadfunc h data) fun _ => True := by
  refine uses_readRequest fun r _ => ?_
  cases r.headarg with
  | none => trivial
  | some arg =>
    cases r.headfunc with
    | none => exact uses_crash
    | some f => exact ⟨fun _ => nofun, fun _ _ => trivial⟩

theorem callWritefunc_uses : Uses h (callWritefunc h data) fun _ => True := by
  refine uses_readRequest fun r _ => ?_
  cases r.writefunc with
  | none => exact uses_crash
  | some f => exact ⟨fun _ => nofun, fun _ _ => trivial⟩

theorem chooseData_uses (htemp2 : Own h.tid temp2) (hdata : Own h.tid fileData) :
    Uses h (chooseData temp2 fileData) (Own h.tid) := by
  unfold chooseData
  rw [Uses, Prog.within_ite]
  refine ⟨fun _ => uses_strcmpEq htemp2 fun b => ?_, fun _ => hdata⟩
  cases b with
  | false => exact htemp2
  | true => exact hdata

theorem firstData_uses (hlen : Own h.tid filelen) (hdata : Own h.tid fileData)
    (hl : l.fullData.tid = h.tid) :
    Uses h (firstData h filelen fileData l) (Flow.Keeps h.tid) := by
  unfold firstData
  refine uses_string hdata fun content => uses_writeRequest (fun _ hr => hr) ?_
  refine uses_string hlen fun _ => uses_readRequest fun r hr => uses_string hr fun filelenstr => ?_
  refine uses_writeRequest (fun _ hr => hr) (uses_writeRequest (fun _ hr => hr) ?_)
  refine callHeadfunc_uses.bind fun _ _ => uses_bytes hdata fun part => ?_
  refine callWritefunc_uses.bind fun _ _ => uses_readRequest fun r _ => ?_
  rw [Uses, Prog.within_ite]
  exact ⟨fun _ => trivial, fun _ => hl⟩

theorem headerOk_uses (hl : l.fullData.tid = h.tid) :
    Uses h (headerOk h l) (Flow.Keeps h.tid) := by
  unfold headerOk
  refine uses_writeRequest (fun _ hr => hr) (uses_strtok (own_none _) fun rest hrest => ?_)
  refine uses_strtok hrest fun filelen hfilelen => uses_strtok (own_none _) fun temp1 _ => ?_
  refine uses_strtok (own_none _) fun temp2 htemp2 => uses_strtok (own_none _) fun fileData hdata => ?_
  have hlast : ∀ l : Locals, l.fullData.tid = h.tid →
      Uses h (do
        let fileData ← chooseData temp2 fileData
        if fileData.isSome then firstData h filelen fileData l else return .next l)
        (Flow.Keeps h.tid) := by
    intro l hl
    refine (chooseData_uses htemp2 hdata).bind fun fileData hdata => ?_
    rw [Prog.within_ite]
    exact ⟨fun _ => firstData_uses hfilelen hdata hl, fun _ => hl⟩
  dsimp only
  rw [Uses, Prog.within_ite]
  refine ⟨fun _ => uses_writeRequest (fun _ _ => hfilelen) (uses_string hfilelen fun s => ?_),
    fun _ => hlast _ hl⟩
  exact uses_writeRequest (fun _ hr => hr) (hlast _ hl)

theorem parseHeader_uses {checkformat : Ptr} (hcheck : checkformat.tid = h.tid)
    (hl : l.fullData.tid = h.tid) : Uses h (parseHeader h checkformat l) (Flow.Keeps h.tid) := by
  unfold parseHeader
  rw [Uses, Prog.within_ite]
  refine ⟨fun _ => uses_strtok (own_some.mpr hcheck) fun scheme hscheme => ?_, fun _ => hl⟩
  refine uses_strcmpEq hscheme fun b => ?_
  cases b with
  | false => exact uses_writeRequest (fun _ hr => hr) (uses_writeRequest (fun _ hr => hr) trivial)
  | true =>
    simp only [Bool.not_true, Bool.false_eq_true, if_false]
    rw [Uses, Prog.within_ite]
    refine ⟨fun _ => uses_strtok (own_none _) fun status hstatus => ?_, fun _ => hl⟩
    refine uses_strcmpEq hstatus fun b => ?_
    cases b with
    | true => exact headerOk_uses hl
    | false =>
      refine uses_strcmpEq hstatus fun b => ?_
      cases b with
      | true =>
        exact uses_writeRequest (fun _ hr => hr) (callHeadfunc_uses.bind fun _ _ => trivial)
      | false =>
        refine uses_strcmpEq hstatus fun b => ?_
        cases b with
        | true =>
          exact uses_writeRequest (fun _ hr => hr) (callHeadfunc_uses.bind fun _ _ => trivial)
        | false => exact hl

theorem headerChunk_uses (hl : l.fullData.tid = h.tid) :
    Uses h (headerChunk h c l) (Flow.Keeps h.tid) := by
  unfold headerChunk
  refine uses_string (own_some.mpr hl) fun old => ?_
  cases cstr (recvBuf c) 0 with
  | error fault => exact uses_crash
  | ok new =>
    dsimp only
    rw [Uses, Prog.within_ite]
    refine ⟨fun _ => uses_crash, fun _ => uses_malloc fun currecvdata hcur => ?_⟩
    refine uses_string (own_some.mpr hcur) fun cur => uses_malloc fun checkformat hcheck => ?_
    exact parseHeader_uses hcheck hcur

theorem bodyChunk_uses (hl : l.fullData.tid = h.tid) :
    Uses h (bodyChunk h c l) (Flow.Keeps h.tid) := by
  unfold bodyChunk
  refine callWritefunc_uses.bind fun _ _ => uses_writeRequest (fun _ hr => hr) ?_
  refine uses_readRequest fun r _ => ?_
  rw [Uses, Prog.within_ite]
  exact ⟨fun _ => trivial, fun _ => hl⟩

theorem gfcPerformLoop_uses (cs : List Chunk) (hl : l.fullData.tid = h.tid) :
    Uses h (gfcPerformLoop h e cs l) fun _ => True := by
  induction cs generalizing l with
  | nil => exact recvEnd_uses hl
  | cons c cs ih =>
    refine uses_writeRequest (fun _ hr => hr) ?_
    have hchunk : ∀ flow : Flow, flow.Keeps h.tid → Uses h (match flow with
        | .done ret => pure ret
        | .next l => gfcPerformLoop h e cs l) fun _ => True := by
      intro flow hflow
      cases flow with
      | done ret => trivial
      | next l => exact ih hflow
    dsimp only
    rw [Uses, Prog.within_ite]
    refine ⟨fun _ => Prog.Within.bind (bodyChunk_uses ?_) hchunk,
      fun _ => Prog.Within.bind (headerChunk_uses ?_) hchunk⟩ <;> exact hl

theorem gfcPerform_uses (rs : Recvs) : Uses h (gfcPerform h rs) fun _ => True := by
  refine uses_malloc fun fullData hfull => uses_readRequest fun r _ => ?_
  cases r.path with
  | none => exact uses_crash
  | some path => exact ⟨fun _ => nofun, fun _ _ => gfcPerformLoop_uses rs.chunks hfull⟩

theorem gfcSetWrite_uses (cfg : Config) : Uses h (do
    gfcSetWritefunc h cfg.writefunc
    match cfg.writearg with
    | none => pure ()
    | some arg => gfcSetWritearg h arg) fun _ => True := by
  refine uses_writeRequest (fun _ hr => hr) ?_
  cases cfg.writearg with
  | none => trivial
  | some arg => exact ⟨⟨rfl, fun _ hr => hr⟩, fun _ _ => trivial⟩

theorem gfcSetup_uses (cfg : Config) : Uses h (gfcSetup h cfg) fun _ => True := by
  have hlast := gfcSetWrite_uses (h := h) cfg
  unfold gfcSetup
  refine uses_writeRequest (fun _ hr => hr) (uses_writeRequest (fun _ hr => hr) ?_)
  refine uses_writeRequest (fun _ hr => hr) ?_
  rcases cfg.head with - | ⟨f, - | arg⟩
  · exact hlast
  · exact uses_writeRequest (fun _ hr => hr) hlast
  · exact uses_writeRequest (fun _ hr => hr) (uses_writeRequest (fun _ hr => hr) hlast)

/-- What a thread does with its request. -/
theorem request_uses (cfg : Config) (rs : Recvs) :
    Uses h (do
      emit (.created h)
      gfcSetup h cfg
      let ret ← gfcPerform h rs
      let status ← gfcGetStatus h
      let filelen ← gfcGetFilelen h
      let bytesreceived ← gfcGetBytesreceived h
      let recvTotal := (← readRequest h).bytesreceived
      return (⟨ret, status, filelen, bytesreceived, recvTotal⟩ : Outcome)) fun _ => True := by
  refine ⟨fun h' heq => by cases heq; rfl, fun _ _ => (gfcSetup_uses cfg).bind fun _ _ => ?_⟩
  refine (gfcPerform_uses rs).bind fun ret _ => ?_
  exact ⟨rfl, fun _ _ => ⟨rfl, fun _ _ => ⟨rfl, fun _ _ => ⟨rfl, fun _ _ => trivial⟩⟩⟩⟩

/-! ### `gfc_create` -/

/-- The operations of `gfc_create`. -/
def Creating (t : Tid) : Op → Prop
  | .mallocRequest _ | .getGfr => True
  | .setGfr h | .writeRequest h _ => h.tid = t
  | _ => False

theorem gfcCreate_within (t : Tid) (junk : Gfcrequest) :
    (gfcCreate junk).Within (Creating t) (Answers t) fun _ => True := by
  have hassign : ∀ {α : Type} {f : Gfcrequest → Gfcrequest} {k : Unit → CProg α} {Q : α → Prop},
      (k ()).Within (Creating t) (Answers t) Q →
        (gfrAssign f >>= k).Within (Creating t) (Answers t) Q :=
    fun hk => ⟨trivial, fun _ hh => ⟨hh, fun _ _ => hk⟩⟩
  refine ⟨trivial, fun h hh => ⟨hh, fun _ _ => ?_⟩⟩
  iterate 12 refine hassign ?_
  exact ⟨trivial, fun _ _ => trivial⟩

end Uses

/-! ## One thread alone -/

section Alone

variable {t : Tid} {h : Handle} {o : Op} {s s' : Store} {r : o.Res}

/-- The two shared variables hold values of thread `t`. -/
def SharedOwn (t : Tid) (s : Store) : Prop := (∀ h, s.gfr = some h → h.tid = t) ∧ Own t s.saved

theorem creating_keeps (hs : SharedOwn t s) (ho : Creating t o) (he : exec t o s = .ok (r, s')) :
    Answers t o r ∧ SharedOwn t s' := by
  cases o with
  | mallocRequest junk =>
    cases he
    exact ⟨rfl, hs⟩
  | getGfr =>
    cases hgfr : s.gfr with
    | none => simp [exec, hgfr] at he
    | some h =>
      simp only [exec, hgfr] at he
      cases he
      exact ⟨hs.1 _ hgfr, hs⟩
  | setGfr h =>
    cases he
    exact ⟨trivial, fun h' heq => by cases heq; exact ho, hs.2⟩
  | writeRequest h f =>
    cases he
    exact ⟨trivial, hs⟩
  | malloc | readRequest | string | bytes | strtok | emit | crash => exact ho.elim

/-- `strtok` keeps to its thread, and the string that it goes on with too. -/
theorem execStrtok_own {p : Ptr} {delim : List Byte} {q : Option Ptr} (hp : p.tid = t)
    (he : execStrtok p delim s = .ok (q, s')) :
    Own t q ∧ Own t s'.saved ∧ s'.reqs = s.reqs ∧ s'.log = s.log ∧ s'.gfr = s.gfr ∧
      s'.saved ≠ none ∧ ∀ u, u ≠ t → s'.mem u = s.mem u := by
  unfold execStrtok at he
  cases hb : s.block p with
  | none => rw [hb] at he; cases he
  | some b =>
    simp only [hb] at he
    cases htok : strtokAt b p.off delim with
    | error f => rw [htok] at he; cases he
    | ok res =>
      rw [htok] at he
      cases he
      refine ⟨?_, fun _ heq => by cases heq; exact hp, rfl, rfl, rfl, nofun, fun u hu => ?_⟩
      · intro q hq
        obtain ⟨j, -, rfl⟩ := Option.map_eq_some_iff.mp hq
        exact hp
      · exact Function.update_of_ne (hp ▸ hu) ..

/-- Reading strings and bytes changes nothing. -/
theorem exec_string_store {p : Option Ptr} {str : List Byte}
    (he : exec t (.string p) s = .ok (str, s')) : s' = s := by
  cases p with
  | none => cases he
  | some p =>
    cases hb : s.block p with
    | none => simp [exec, hb] at he
    | some b =>
      simp only [exec, hb] at he
      cases hc : cstr b p.off with
      | error f => rw [hc] at he; cases he
      | ok str' => rw [hc] at he; cases he; rfl

theorem exec_bytes_store {p : Option Ptr} {n : ℕ} {str : List Byte}
    (he : exec t (.bytes p n) s = .ok (str, s')) : s' = s := by
  cases p with
  | none => cases he
  | some p =>
    cases hb : s.block p with
    | none => simp [exec, hb] at he
    | some b =>
      simp only [exec, hb] at he
      by_cases hle : p.off + n ≤ b.length
      · rw [if_pos hle] at he
        cases he
        rfl
      · rw [if_neg hle] at he
        cases he

/-- The shared position and the pointer in request `h` are those of its thread. -/
def RequestOwn (h : Handle) (s : Store) : Prop :=
  Own h.tid s.saved ∧ ∀ r, s.req h = some r → Own h.tid r.filelenstr

theorem using_keeps (hs : RequestOwn h s) (ho : Using h o) (he : exec h.tid o s = .ok (r, s')) :
    Answers h.tid o r ∧ RequestOwn h s' := by
  cases o with
  | malloc block =>
    cases he
    exact ⟨rfl, hs⟩
  | readRequest h' =>
    obtain rfl : h' = h := ho
    cases hr : s.req h' with
    | none => simp [exec, hr] at he
    | some req =>
      simp only [exec, hr] at he
      cases he
      exact ⟨hs.2 _ hr, hs⟩
  | writeRequest h' f =>
    obtain ⟨rfl, hf⟩ := ho
    cases he
    refine ⟨trivial, hs.1, fun r hr => ?_⟩
    simp only [Store.req, Function.update_self, List.getElem?_modify_eq] at hr
    obtain ⟨r₀, hr₀, rfl⟩ := Option.map_eq_some_iff.mp hr
    exact hf r₀ (hs.2 r₀ hr₀)
  | string p =>
    obtain rfl := exec_string_store he
    exact ⟨trivial, hs⟩
  | bytes p n =>
    obtain rfl := exec_bytes_store he
    exact ⟨trivial, hs⟩
  | strtok p delim =>
    have hreq : s'.reqs = s.reqs → ∀ r, s'.req h = some r → Own h.tid r.filelenstr :=
      fun heq r hr => hs.2 r (by rwa [Store.req, heq] at hr)
    cases p with
    | some p =>
      obtain ⟨hq, hsaved, hreqs, -⟩ := execStrtok_own (ho p rfl) he
      exact ⟨hq, hsaved, hreq hreqs⟩
    | none =>
      cases hsv : s.saved with
      | none => simp [exec, hsv] at he
      | some p =>
        simp only [exec, hsv] at he
        obtain ⟨hq, hsaved, hreqs, -⟩ := execStrtok_own (hs.1 p hsv) he
        exact ⟨hq, hsaved, hreq hreqs⟩
  | emit e =>
    cases he
    exact ⟨trivial, hs⟩
  | crash f => cases he
  | mallocRequest | setGfr | getGfr => exact ho.elim

/-- Alone, a thread touches its own memory and its own request only. -/
theorem requestThread_safe (t : Tid) (junk : Gfcrequest) (cfg : Config) (rs : Recvs) :
    (requestThread junk cfg rs).Safe (exec t) (Private t) Store.empty := by
  have hempty : SharedOwn t Store.empty := ⟨fun _ => nofun, fun _ => nofun⟩
  have hcreate := gfcCreate_within t junk
  refine Prog.Safe.bind (((hcreate.safe (I := SharedOwn t) fun _ _ _ _ => creating_keeps) hempty).mono
    ?_) fun h s hrun => ?_
  · intro o ho
    cases o <;> first | exact ho | exact ho.elim
  have hshared := (hcreate.result (I := SharedOwn t) (fun _ _ _ _ => creating_keeps) hempty hrun).2
  have hcreated := @gfcCreate_refines t junk
  unfold Prog.Refines at hcreated
  rw [hrun] at hcreated
  obtain ⟨rfl, hhas⟩ := hcreated
  have hown : RequestOwn ⟨t, 0⟩ s := by
    refine ⟨hshared.2, fun r hr => ?_⟩
    rw [hhas.2.1] at hr
    cases hr
    exact own_none t
  refine ((request_uses cfg rs).safe (I := RequestOwn ⟨t, 0⟩) (fun _ _ _ _ => using_keeps)
    hown).mono ?_
  intro o ho
  cases o with
  | malloc | crash | string | bytes | strtok | emit => exact ho
  | readRequest h => exact congrArg Handle.tid ho
  | writeRequest h f => exact congrArg Handle.tid ho.1
  | mallocRequest | setGfr | getGfr => exact ho.elim

end Alone

/-! ## Threads together -/

/-- The thread finds its own value in a shared variable that the operation reads. -/
def ownShared (t : Tid) (o : Op) (s : Store) : Bool :=
  match o with
  | .getGfr => s.gfr.all fun h => h.tid == t
  | .strtok none _ => s.saved.all fun p => p.tid == t
  | _ => true

/-- Thread `t` sees the same in both states, and the handles it has got are its own. -/
structure SameView (t : Tid) (s s₀ : Store) : Prop where
  mem : s.mem t = s₀.mem t
  reqs : s.reqs t = s₀.reqs t
  log : s.log t = s₀.log t
  saved : ∀ p, s.saved = some p → p.tid = t → s₀.saved = some p
  saved_none : s.saved = none → s₀.saved = none
  gfr : ∀ h, s.gfr = some h → h.tid = t → s₀.gfr = some h
  gfr_none : s.gfr = none → s₀.gfr = none
  created : ∀ h, Event.created h ∈ s.log t → h.tid = t

section Together

variable {t u : Tid} {s s₀ s' : Store} {o : Op} {r : o.Res} {p : Ptr} {delim : List Byte}
  {q : Option Ptr} {e : Fault}

theorem sameView_empty (t : Tid) : SameView t Store.empty Store.empty :=
  ⟨rfl, rfl, rfl, fun _ => nofun, fun _ => rfl, fun _ => nofun, fun _ => rfl, fun _ => nofun⟩

namespace SameView

theorem block (hv : SameView t s s₀) (hp : p.tid = t) : s.block p = s₀.block p := by
  rw [Store.block, Store.block, hp, hv.mem]

theorem req {h : Handle} (hv : SameView t s s₀) (hh : h.tid = t) : s.req h = s₀.req h := by
  rw [Store.req, Store.req, hh, hv.reqs]

theorem exec_string {p : Option Ptr} (hv : SameView t s s₀) (hp : Own t p) :
    exec t (.string p) s₀ = (exec t (.string p) s).map fun rs => (rs.1, s₀) := by
  cases p with
  | none => rfl
  | some p =>
    simp only [exec, ← hv.block (hp p rfl)]
    cases s.block p with
    | none => rfl
    | some b =>
      dsimp only
      cases cstr b p.off <;> rfl

theorem exec_bytes {p : Option Ptr} {n : ℕ} (hv : SameView t s s₀) (hp : Own t p) :
    exec t (.bytes p n) s₀ = (exec t (.bytes p n) s).map fun rs => (rs.1, s₀) := by
  cases p with
  | none => rfl
  | some p =>
    simp only [exec, ← hv.block (hp p rfl)]
    cases s.block p with
    | none => rfl
    | some b => by_cases hle : p.off + n ≤ b.length <;> simp [hle, Except.map]

theorem execStrtok (hv : SameView t s s₀) (hp : p.tid = t)
    (he : Gfclient.execStrtok p delim s = .ok (q, s')) :
    ∃ s₀', Gfclient.execStrtok p delim s₀ = .ok (q, s₀') ∧ SameView t s' s₀' := by
  unfold Gfclient.execStrtok at he ⊢
  rw [← hv.block hp]
  cases hb : s.block p with
  | none => rw [hb] at he; cases he
  | some b =>
    simp only [hb] at he ⊢
    cases htok : strtokAt b p.off delim with
    | error f => rw [htok] at he; cases he
    | ok res =>
      rw [htok] at he
      cases he
      subst hp
      refine ⟨_, rfl, ?_, hv.reqs, hv.log, fun _ heq _ => heq, nofun, hv.gfr, hv.gfr_none, hv.created⟩
      simp only [Function.update_self, hv.mem]

theorem execStrtok_error (hv : SameView t s s₀) (hp : p.tid = t)
    (he : Gfclient.execStrtok p delim s = .error e) :
    Gfclient.execStrtok p delim s₀ = .error e := by
  unfold Gfclient.execStrtok at he ⊢
  rw [← hv.block hp]
  cases hb : s.block p with
  | none => rw [hb] at he; exact he
  | some b =>
    simp only [hb] at he ⊢
    cases htok : strtokAt b p.off delim with
    | error f => rw [htok] at he; exact he
    | ok res => rw [htok] at he; cases he

end SameView

/-- The saved position that a thread may use, alone and together. -/
theorem saved_own (ho : ownShared t (.strtok none delim) s = true) (hs : s.saved = some p) :
    p.tid = t := by
  simpa [ownShared, hs] using ho

theorem gfr_own {h : Handle} (ho : ownShared t .getGfr s = true) (hs : s.gfr = some h) :
    h.tid = t := by
  simpa [ownShared, hs] using ho

/-- An operation of the thread itself. -/
theorem SameView.own (hv : SameView t s s₀) (hp : Private t o) (ho : ownShared t o s = true)
    (he : exec t o s = .ok (r, s')) : ∃ s₀', exec t o s₀ = .ok (r, s₀') ∧ SameView t s' s₀' := by
  cases o with
  | malloc block =>
    cases he
    refine ⟨{ s₀ with mem := Function.update s₀.mem t (s₀.mem t ++ [block]) },
      by rw [exec, hv.mem], ?_, hv.reqs, hv.log, hv.saved, hv.saved_none, hv.gfr, hv.gfr_none,
      hv.created⟩
    simp only [Function.update_self, hv.mem]
  | mallocRequest junk =>
    cases he
    refine ⟨{ s₀ with reqs := Function.update s₀.reqs t (s₀.reqs t ++ [junk]) },
      by rw [exec, hv.reqs], hv.mem, ?_, hv.log, hv.saved, hv.saved_none, hv.gfr, hv.gfr_none,
      hv.created⟩
    simp only [Function.update_self, hv.reqs]
  | setGfr h =>
    cases he
    refine ⟨_, rfl, hv.mem, hv.reqs, hv.log, hv.saved, hv.saved_none, fun _ heq _ => heq, ?_,
      hv.created⟩
    intro hnone
    cases hnone
  | getGfr =>
    cases hgfr : s.gfr with
    | none => simp [exec, hgfr] at he
    | some h =>
      simp only [exec, hgfr] at he
      cases he
      exact ⟨s₀, by rw [exec, hv.gfr _ hgfr (gfr_own ho hgfr)], hv⟩
  | readRequest h =>
    cases hr : s.req h with
    | none => simp [exec, hr] at he
    | some req =>
      simp only [exec, hr] at he
      cases he
      exact ⟨s₀, by rw [exec, ← hv.req hp, hr], hv⟩
  | writeRequest h f =>
    cases he
    obtain rfl : h.tid = t := hp
    refine ⟨_, rfl, hv.mem, ?_, hv.log, hv.saved, hv.saved_none, hv.gfr, hv.gfr_none, hv.created⟩
    simp only [Function.update_self, hv.reqs]
  | string p =>
    obtain rfl := exec_string_store he
    exact ⟨s₀, by rw [hv.exec_string hp, he]; rfl, hv⟩
  | bytes p n =>
    obtain rfl := exec_bytes_store he
    exact ⟨s₀, by rw [hv.exec_bytes hp, he]; rfl, hv⟩
  | strtok p delim =>
    cases p with
    | some p => exact hv.execStrtok (hp p rfl) he
    | none =>
      cases hsv : s.saved with
      | none => simp [exec, hsv] at he
      | some p =>
        simp only [exec, hsv] at he
        have hown := saved_own ho hsv
        obtain ⟨s₀', he₀, hv'⟩ := hv.execStrtok hown he
        exact ⟨s₀', by rw [exec, hv.saved p hsv hown]; exact he₀, hv'⟩
  | emit ev =>
    cases he
    refine ⟨_, rfl, hv.mem, hv.reqs, ?_, hv.saved, hv.saved_none, hv.gfr, hv.gfr_none, ?_⟩
    · simp only [Function.update_self, hv.log]
    · intro h hmem
      simp only [Function.update_self, List.mem_append, List.mem_singleton] at hmem
      rcases hmem with hmem | hmem
      · exact hv.created h hmem
      · exact hp h hmem.symm
  | crash f => cases he

/-- A fault of an operation of the thread itself. -/
theorem SameView.fails (hv : SameView t s s₀) (hp : Private t o) (ho : ownShared t o s = true)
    (he : exec t o s = .error e) : exec t o s₀ = .error e := by
  cases o with
  | malloc | mallocRequest | setGfr | writeRequest | emit => cases he
  | getGfr =>
    cases hgfr : s.gfr with
    | none =>
      rw [exec, hv.gfr_none hgfr]
      simpa only [exec, hgfr] using he
    | some h => simp [exec, hgfr] at he
  | readRequest h =>
    rw [exec, ← hv.req hp]
    cases hr : s.req h with
    | none => simpa only [exec, hr] using he
    | some req => simp [exec, hr] at he
  | string p => rw [hv.exec_string hp, he]; rfl
  | bytes p n => rw [hv.exec_bytes hp, he]; rfl
  | strtok p delim =>
    cases p with
    | some p => exact hv.execStrtok_error (hp p rfl) he
    | none =>
      cases hsv : s.saved with
      | none =>
        rw [exec, hv.saved_none hsv]
        simpa only [exec, hsv] using he
      | some p =>
        simp only [exec, hsv] at he
        have hown := saved_own ho hsv
        rw [exec, hv.saved p hsv hown]
        exact hv.execStrtok_error hown he
  | crash f => exact he

/-- An operation of another thread. -/
theorem SameView.frame (hne : t ≠ u) (hv : SameView t s s₀) (hp : Private u o)
    (ho : ownShared u o s = true) (he : exec u o s = .ok (r, s')) : SameView t s' s₀ := by
  have hother : ∀ {β : Type} {f : Tid → β} {b : β}, Function.update f u b t = f t :=
    Function.update_of_ne hne ..
  -- `strtok` on a string of the other thread
  have hstrtok : ∀ {p : Ptr} {delim : List Byte} {q : Option Ptr}, p.tid = u →
      Gfclient.execStrtok p delim s = .ok (q, s') → SameView t s' s₀ := by
    intro p delim q hpu hexec
    obtain ⟨-, hsaved, hreqs, hlog, hgfr, hnone, hmem⟩ := execStrtok_own hpu hexec
    exact ⟨(hmem t hne).trans hv.mem, by rw [hreqs, hv.reqs], by rw [hlog, hv.log],
      fun p' heq hp' => absurd (hp'.symm.trans (hsaved p' heq)) hne, fun heq => absurd heq hnone,
      by rw [hgfr]; exact hv.gfr, by rw [hgfr]; exact hv.gfr_none, by rw [hlog]; exact hv.created⟩
  cases o with
  | malloc block =>
    cases he
    exact { hv with mem := hother.trans hv.mem }
  | mallocRequest junk =>
    cases he
    exact { hv with reqs := hother.trans hv.reqs }
  | setGfr h =>
    cases he
    refine { hv with gfr := fun h' heq hh' => ?_, gfr_none := nofun }
    cases heq
    exact absurd (hh'.symm.trans hp) hne
  | getGfr =>
    cases hgfr : s.gfr with
    | none => simp [exec, hgfr] at he
    | some h =>
      simp only [exec, hgfr] at he
      cases he
      exact hv
  | readRequest h =>
    cases hr : s.req h with
    | none => simp [exec, hr] at he
    | some req =>
      simp only [exec, hr] at he
      cases he
      exact hv
  | writeRequest h f =>
    cases he
    obtain rfl : h.tid = u := hp
    exact { hv with reqs := hother.trans hv.reqs }
  | string p =>
    obtain rfl := exec_string_store he
    exact hv
  | bytes p n =>
    obtain rfl := exec_bytes_store he
    exact hv
  | strtok p delim =>
    cases p with
    | some p => exact hstrtok (hp p rfl) he
    | none =>
      cases hsv : s.saved with
      | none => simp [exec, hsv] at he
      | some p =>
        simp only [exec, hsv] at he
        exact hstrtok (saved_own ho hsv) he
  | emit ev =>
    cases he
    refine { hv with log := hother.trans hv.log, created := fun h hmem => hv.created h ?_ }
    change Event.created h ∈ Function.update s.log u _ t at hmem
    rwa [hother] at hmem
  | crash f => cases he

theorem isolates : Isolates exec (fun t o s => ownShared t o s = true) Private SameView where
  own := SameView.own
  fails := SameView.fails
  frame := SameView.frame

end Together

/-! ## Concurrent requests -/

/-- The process in which thread `t` makes the request `cfg t` and receives `rs t`. -/
def requests (junk : Tid → Gfcrequest) (cfg : Tid → Config) (rs : Tid → Recvs) :
    System (Process Tid Op Op.Res Outcome Fault Store) Tid :=
  threads exec (fun t => requestThread (junk t) (cfg t) (rs t)) Store.empty

/-- The outcome of the request of thread `t` when it runs alone, and what it has done. -/
def requestAlone (t : Tid) (junk : Gfcrequest) (cfg : Config) (rs : Recvs) :
    Except Fault (Outcome × List Event) :=
  ((requestThread junk cfg rs).alone (exec t) Store.empty).map fun (o, s) => (o, s.log t)

/-- No request has disturbed another one: the handles that `gfc_create` has returned to the
    threads are distinct, every request that has ended has ended as it does alone, and a fault
    of the process is the fault of some request alone. -/
structure Undisturbed (junk : Tid → Gfcrequest) (cfg : Tid → Config) (rs : Tid → Recvs)
    (S : Process Tid Op Op.Res Outcome Fault Store) : Prop where
  distinct : ∀ t u h, .created h ∈ S.store.log t → .created h ∈ S.store.log u → t = u
  outcome : ∀ t o, S.progs t = .ret o →
    requestAlone t (junk t) (cfg t) (rs t) = .ok (o, S.store.log t)
  fault : ∀ e, S.fault = some e → ∃ t, requestAlone t (junk t) (cfg t) (rs t) = .error e

/-- The requests do not disturb each other in the runs in which every use of `gfr` finds the
    request of its own thread, and every `strtok(NULL, …)` the position that its own thread
    has saved. -/
theorem requests_isolated (junk : Tid → Gfcrequest) (cfg : Tid → Config) (rs : Tid → Recvs)
    (S : Process Tid Op Op.Res Outcome Fault Store)
    (h : (requests junk cfg rs).Reach (opGuard fun t o s => ownShared t o s = true) S) :
    Undisturbed junk cfg rs S := by
  obtain ⟨hstep, hfault⟩ := isolates.run (fun _ => Store.empty)
    (fun t => requestThread_safe t (junk t) (cfg t) (rs t)) sameView_empty h
  have hcreated : ∀ t handle, Event.created handle ∈ S.store.log t → handle.tid = t := by
    intro t handle hmem
    obtain ⟨s, hview, -⟩ := hstep t
    exact hview.created handle hmem
  refine ⟨fun t u handle ht hu => ?_, fun t o ho => ?_, fun e he => ?_⟩
  · exact (hcreated t handle ht).symm.trans (hcreated u handle hu)
  · obtain ⟨s, hview, -, halone⟩ := hstep t
    rw [ho, Prog.alone_ret] at halone
    rw [requestAlone, ← halone, hview.log]
    rfl
  · obtain ⟨t, ht⟩ := hfault e he
    exact ⟨t, by rw [requestAlone, ht]; rfl⟩

/-- Threads whose connections fail at once. -/
def failing : System (Process Tid Op Op.Res Outcome Fault Store) Tid :=
  requests (fun _ => .zeroed) (fun _ => downloadConfig [] [] 0 0) fun _ => ⟨[], .error⟩

/-- The header of a file and the file, in one piece. -/
def heyStream : Recvs :=
  ⟨[⟨ascii "GETFILE OK 3 \r\n\r\nhey", by decide +kernel, by decide +kernel⟩], .error⟩

/-- Threads that download this file. -/
def heyRequests : System (Process Tid Op Op.Res Outcome Fault Store) Tid :=
  requests (fun _ => .zeroed) (fun _ => downloadConfig (ascii "h") (ascii "/a") 8080 2) fun _ => heyStream

/-- Two threads create their requests one after the other and go on in turn, but for the calls of
    `strtok` on the header. -/
def heySchedule : List Tid :=
  List.replicate 28 0 ++ List.replicate 28 1 ++ (List.replicate 13 [0, 1]).flatten ++
    List.replicate 10 0 ++ List.replicate 10 1 ++ (List.replicate 20 [0, 1]).flatten

theorem requests_isolated_two : ∃ S,
    heyRequests.runWith (opCheck ownShared) heySchedule heyRequests.init = some S ∧
      S.store.log 0 = [.created ⟨0, 0⟩, .sent (clientscheme (ascii "/a")),
        .write 1 (ascii "hey") (some 2)] ∧
      Undisturbed (fun _ => .zeroed) (fun _ => downloadConfig (ascii "h") (ascii "/a") 8080 2)
        (fun _ => heyStream) S := by
  have hlog : (heyRequests.runWith (opCheck ownShared) heySchedule heyRequests.init).map
      (fun S => S.store.log 0) = some [.created ⟨0, 0⟩, .sent (clientscheme (ascii "/a")),
        .write 1 (ascii "hey") (some 2)] := by decide +kernel
  obtain ⟨S, hS, heq⟩ := Option.map_eq_some_iff.mp hlog
  exact ⟨S, hS, heq, requests_isolated _ _ _ S
    ((System.Reach.runWith .init hS).mono fun _ _ => opGuard_of_opCheck)⟩

/-- The second thread assigns `gfr` before the first one has read it back: both get the same
    handle. -/
theorem requests_disturbed :
    ¬ ∀ (junk : Tid → Gfcrequest) (cfg : Tid → Config) (rs : Tid → Recvs)
      (S : Process Tid Op Op.Res Outcome Fault Store),
      (requests junk cfg rs).Reach System.anyStep S → Undisturbed junk cfg rs S := by
  intro h
  have hlog : (failing.run (List.replicate 2 0 ++ List.replicate 2 1 ++ List.replicate 26 0 ++
      List.replicate 26 1) failing.init).map (fun S => (S.store.log 0, S.store.log 1)) =
      some ([.created ⟨1, 0⟩], [.created ⟨1, 0⟩]) := by decide +kernel
  obtain ⟨S, hS, heq⟩ := Option.map_eq_some_iff.mp hlog
  obtain ⟨h₀, h₁⟩ := Prod.mk.inj heq
  have hsame := (h _ _ _ S (System.reach_of_run hS)).distinct 0 1 ⟨1, 0⟩ (by simp [h₀]) (by simp [h₁])
  exact absurd hsame (by decide)

end IntroOS.Gfclient
