import IntroOS.Gfserver.Transfer
import IntroOS.Mtgf.Dispatch
import IntroOS.Mtgf.Transfers

/-!
# The answers of the workers

What the connections of the multi-threaded server get (`thd_callback` of `pr1/mtgf/handler.c`),
against what `handler_get` of the single-threaded one does with them (`pr1/gflib/handler.c`).

* As in `Transfers`, each call of a queue operation is one step: a pop in the midst of
  `steque_enqueue` can lose a request (`QueueRace`).
* The two handlers are compared for the path that the worker finds behind `ctx->path` when it looks
  it up, once for each connection; it may be that of a later request (`PathRace`).

Main results:

* `Transfers.busy_of_workerStep`: a step of a worker leaves it as it was what becomes of its
  connection in the end.
* `concurrent_answers`: whatever the schedule of these steps, each connection gets what the
  single-threaded handler sends for the path that is looked up for it, byte by byte.
-/

namespace IntroOS.Mtgf

open Concurrency Gfserver

/-- The connection that a worker is busy with. -/
def TransferPc.ctx : TransferPc → Option ℕ
  | unlock ctx | lookup ctx | notFound ctx | header ctx _ | lockFile ctx _ | read ctx _ _
  | send ctx _ _ _ | abort ctx => some ctx
  | test | lock | pop | unlockFile | exit => none

/-- The connection whose request a step appends to the queue. -/
def TransferAct.request {w : ℕ} : TransferAct w → Option ℕ
  | .enqueue _ ctx => some ctx
  | .worker _ => none

/-- What `handler_get` of the single-threaded server makes of a new connection. -/
def Surroundings.answer (e : Surroundings) (ctx : ℕ) : Sock :=
  (handlerGet e.content (e.reads ctx) (e.io ctx) (e.paths ctx) Sock.new).2

/-- What a worker makes of its connection by the steps that are left for it at `pc`. -/
def Surroundings.rest (e : Surroundings) (ctx : ℕ) (sock : Sock) (pc : TransferPc) : Sock :=
  match pc with
  | .unlock _ | .lookup _ =>
    (handlerGet e.content (e.reads ctx) (e.io ctx) (e.paths ctx) sock).2
  | .notFound _ => (gfsSendheader (e.io ctx) sock .fileNotFound 0).2
  | .header _ file =>
    (handlerLoop (e.reads ctx) (e.io ctx) file.bytes 0
      (gfsSendheader (e.io ctx) sock .ok (CString.sizeT file.bytes.length)).2).2
  | .lockFile _ file => (handlerLoop (e.reads ctx) (e.io ctx) file.bytes 0 sock).2
  | .read _ file bytesTransferred =>
    (handlerLoop (e.reads ctx) (e.io ctx) file.bytes bytesTransferred sock).2
  | .send _ file bytesTransferred buffer =>
    let r := gfsSend (e.io ctx) sock buffer
    if r.1 ≠ buffer.length then gfsAbort r.2
    else (handlerLoop (e.reads ctx) (e.io ctx) file.bytes (bytesTransferred + buffer.length) r.2).2
  | .abort _ => gfsAbort sock
  | _ => sock

/-! ## One connection -/

section Connection

variable {e : Surroundings} {ctx : ℕ} {sock : Sock} {pc : TransferPc} {io : WriteResults}

theorem rest_of_idle (h : pc.ctx = none) : e.rest ctx sock pc = sock := by
  cases pc <;> first | rfl | cases h

theorem gfsSend_wire_start (io : WriteResults) (s : Sock) (data : List CString.Byte) :
    s.wire <+: (gfsSend io s data).2.wire := by
  obtain ⟨u, -, hu, -⟩ := gfsSend_wire io s data
  exact ⟨u, hu.symm⟩

theorem handlerLoop_wire_start (reads : ReadResults) (io : WriteResults) (file : List CString.Byte)
    (off : ℕ) (s : Sock) : s.wire <+: (handlerLoop reads io file off s).2.wire := by
  fun_induction handlerLoop reads io file off s with
  | case1 off s hlt buffer hzero => exact List.prefix_rfl
  | case2 off s hlt buffer hpos r hshort => exact gfsSend_wire_start io s buffer
  | case3 off s hlt buffer hpos r hfull ih => exact (gfsSend_wire_start io s buffer).trans ih
  | case4 off s hge => exact List.prefix_rfl

theorem handlerGet_wire_start (content : Content) (reads : ReadResults) (io : WriteResults)
    (path : List CString.Byte) (s : Sock) :
    s.wire <+: (handlerGet content reads io path s).2.wire := by
  unfold handlerGet
  cases content path with
  | none => exact gfsSend_wire_start io s _
  | some file => exact (gfsSend_wire_start io s _).trans (handlerLoop_wire_start ..)

/-- What has been sent stays. -/
theorem wire_prefix_rest (e : Surroundings) (ctx : ℕ) (sock : Sock) (pc : TransferPc) :
    sock.wire <+: (e.rest ctx sock pc).wire := by
  cases pc with
  | unlock c => exact handlerGet_wire_start ..
  | lookup c => exact handlerGet_wire_start ..
  | notFound c => exact gfsSend_wire_start ..
  | header c file => exact (gfsSend_wire_start ..).trans (handlerLoop_wire_start ..)
  | lockFile c file => exact handlerLoop_wire_start ..
  | read c file n => exact handlerLoop_wire_start ..
  | send c file n buffer =>
    have hsend := gfsSend_wire_start (e.io ctx) sock buffer
    unfold Surroundings.rest
    dsimp only
    split_ifs with hshort
    · exact hsend
    · exact hsend.trans (handlerLoop_wire_start ..)
  | abort c => exact List.prefix_rfl
  | test | lock | pop | unlockFile | exit => exact List.prefix_rfl

end Connection

namespace Transfers

variable {w : ℕ} {e : Surroundings} {s s' : Transfers w} {i : Fin w} {ctx : ℕ}

/-! ## The steps of a worker -/

/-- What a step of worker `i` does to the queue and the connections. -/
inductive Busy (e : Surroundings) (s : Transfers w) (i : Fin w) (s' : Transfers w) : Prop
  /-- nothing -/
  | idle (pc : TransferPc) (before : (s.pcs i).ctx = none) (after : pc.ctx = none)
    (pcs : s'.pcs = Function.update s.pcs i pc) (socks : s'.socks = s.socks)
    (requeue : s'.requeue = s.requeue)
  /-- it takes the oldest request -/
  | take (ctx : ℕ) (before : (s.pcs i).ctx = none) (pop : s.requeue.pop = .ok (ctx, s'.requeue))
    (pcs : s'.pcs = Function.update s.pcs i (.unlock ctx)) (socks : s'.socks = s.socks)
  /-- it goes on with its connection -/
  | serve (ctx : ℕ) (pc : TransferPc) (sock : Sock) (before : (s.pcs i).ctx = some ctx)
    (after : pc.ctx = some ctx ∨ pc.ctx = none)
    (rest : e.rest ctx sock pc = e.rest ctx (s.socks ctx) (s.pcs i))
    (pcs : s'.pcs = Function.update s.pcs i pc) (socks : s'.socks = Function.update s.socks ctx sock)
    (requeue : s'.requeue = s.requeue)

/-- A step on the connection that leaves its bytes as they are. -/
theorem Busy.think (pc old : TransferPc) (hold : s.pcs i = old) (before : old.ctx = some ctx)
    (after : pc.ctx = some ctx) (rest : e.rest ctx (s.socks ctx) pc = e.rest ctx (s.socks ctx) old)
    (pcs : s'.pcs = Function.update s.pcs i pc) (socks : s'.socks = s.socks)
    (requeue : s'.requeue = s.requeue) : Busy e s i s' := by
  subst hold
  exact .serve ctx pc (s.socks ctx) before (.inl after) rest pcs
    (socks.trans (Function.update_eq_self ..).symm) requeue

theorem busy_of_workerStep (h : s.workerStep e i = some s') : Busy e s i s' := by
  have hself : s.pcs = Function.update s.pcs i (s.pcs i) := (Function.update_eq_self i s.pcs).symm
  have hmoves := workerMoves_of_step h
  generalize hpc : s.pcs i = pc at hmoves
  cases hmoves with
  | test =>
    refine .idle _ (by rw [hpc]; rfl) ?_ rfl rfl rfl
    split_ifs <;> rfl
  | lock free => exact .idle .pop (by rw [hpc]; rfl) rfl rfl rfl rfl
  | pop c q hpop => exact .take c (by rw [hpc]; rfl) hpop rfl rfl
  | underflow halt hpop =>
    have hidle : (s.pcs i).ctx = none := by rw [hpc]; rfl
    exact .idle (s.pcs i) hidle hidle hself rfl rfl
  | unlock c => exact .think (.lookup c) _ hpc rfl rfl rfl rfl rfl rfl
  | missing c hfile =>
    refine .think (.notFound c) _ hpc rfl rfl ?_ rfl rfl rfl
    rw [Surroundings.rest, Surroundings.rest, handlerGet, hfile]
  | found c file hfile =>
    refine .think (.header c file) _ hpc rfl rfl ?_ rfl rfl rfl
    rw [Surroundings.rest, Surroundings.rest, handlerGet, hfile]
  | notFound c =>
    refine .serve c .test _ (by rw [hpc]; rfl) (.inr rfl) ?_ rfl rfl rfl
    rw [hpc]
    rfl
  | header c file =>
    refine .serve c (.lockFile c file) _ (by rw [hpc]; rfl) (.inl rfl) ?_ rfl rfl rfl
    rw [hpc]
    rfl
  | lockFile c file free => exact .think (.read c file 0) _ hpc rfl rfl rfl rfl rfl rfl
  | readFails c file n hlt hnone =>
    refine .think (.abort c) _ hpc rfl rfl ?_ rfl rfl rfl
    conv_rhs => rw [Surroundings.rest, handlerLoop, if_pos hlt]
    dsimp only
    rw [if_pos hnone]
    rfl
  | read c file n hlt hsome =>
    refine .think (.send c file n _) _ hpc rfl rfl ?_ rfl rfl rfl
    conv_rhs => rw [Surroundings.rest, handlerLoop, if_pos hlt]
    dsimp only
    rw [if_neg hsome, Surroundings.rest]
    split_ifs <;> rfl
  | readEnd c file n hend =>
    refine .serve c .unlockFile (s.socks c) (by rw [hpc]; rfl) (.inr rfl) ?_ rfl
      (Function.update_eq_self ..).symm rfl
    rw [hpc, rest_of_idle rfl, Surroundings.rest, handlerLoop, if_neg hend]
  | sendFails c file n buffer hshort =>
    refine .serve c (.abort c) _ (by rw [hpc]; rfl) (.inl rfl) ?_ rfl rfl rfl
    rw [hpc, Surroundings.rest, Surroundings.rest]
    rw [if_pos hshort]
  | send c file n buffer hfull =>
    refine .serve c (.read c file (n + buffer.length)) _ (by rw [hpc]; rfl) (.inl rfl) ?_ rfl rfl rfl
    rw [hpc, Surroundings.rest, Surroundings.rest]
    rw [if_neg hfull]
  | unlockFile => exact .idle .test (by rw [hpc]; rfl) rfl rfl rfl rfl
  | abort c =>
    refine .serve c .exit _ (by rw [hpc]; rfl) (.inr rfl) ?_ rfl rfl rfl
    rw [hpc]
    rfl
  | exit =>
    have hidle : (s.pcs i).ctx = none := by rw [hpc]; rfl
    exact .idle (s.pcs i) hidle hidle hself rfl rfl

/-! ## One connection among the others -/

/-- How far connection `ctx` is, when `requests` have been enqueued and `items` wait. -/
inductive Stage (e : Surroundings) (s : Transfers w) (requests items : List ℕ) (ctx : ℕ) : Prop
  /-- no request has come -/
  | unknown (asked : ctx ∉ requests) (waits : ctx ∉ items) (free : ∀ i, (s.pcs i).ctx ≠ some ctx)
    (sock : s.socks ctx = Sock.new)
  /-- the request waits in the queue -/
  | waiting (asked : ctx ∈ requests) (waits : ctx ∈ items) (free : ∀ i, (s.pcs i).ctx ≠ some ctx)
    (sock : s.socks ctx = Sock.new)
  /-- worker `i` has it -/
  | served (i : Fin w) (asked : ctx ∈ requests) (waits : ctx ∉ items)
    (self : (s.pcs i).ctx = some ctx) (alone : ∀ j, (s.pcs j).ctx = some ctx → j = i)
    (rest : e.rest ctx (s.socks ctx) (s.pcs i) = e.answer ctx)
  /-- a worker has been through with it -/
  | answered (asked : ctx ∈ requests) (waits : ctx ∉ items)
    (free : ∀ i, (s.pcs i).ctx ≠ some ctx) (sock : s.socks ctx = e.answer ctx)

section Stage

variable {requests requests' items items' : List ℕ}

/-- A step that concerns other connections only. -/
theorem Stage.frame (h : s.Stage e requests items ctx)
    (hasked : ctx ∈ requests' ↔ ctx ∈ requests) (hwaits : ctx ∈ items' ↔ ctx ∈ items)
    (hsock : s'.socks ctx = s.socks ctx)
    (hpcs : ∀ j, s'.pcs j = s.pcs j ∨ (s.pcs j).ctx ≠ some ctx ∧ (s'.pcs j).ctx ≠ some ctx) :
    s'.Stage e requests' items' ctx := by
  have hback : ∀ j, (s'.pcs j).ctx = some ctx → (s.pcs j).ctx = some ctx := by
    intro j hj
    rcases hpcs j with hsame | ⟨-, hne⟩
    · rwa [← hsame]
    · exact absurd hj hne
  cases h with
  | unknown hnew hout hfree hs =>
    exact .unknown (mt hasked.mp hnew) (mt hwaits.mp hout) (fun j hj => hfree j (hback j hj))
      (hsock.trans hs)
  | waiting hin hitem hfree hs =>
    exact .waiting (hasked.mpr hin) (hwaits.mpr hitem) (fun j hj => hfree j (hback j hj))
      (hsock.trans hs)
  | served i hin hout hself halone hrest =>
    have hsame : s'.pcs i = s.pcs i := (hpcs i).resolve_right fun hne => hne.1 hself
    refine .served i (hasked.mpr hin) (mt hwaits.mp hout) (by rw [hsame, hself])
      (fun j hj => halone j (hback j hj)) ?_
    rw [hsock, hsame, hrest]
  | answered hin hout hfree hs =>
    exact .answered (hasked.mpr hin) (mt hwaits.mp hout) (fun j hj => hfree j (hback j hj))
      (hsock.trans hs)

/-- Worker `i` moves to `pc`, and neither place is one with `ctx`. -/
theorem frame_update {pc : TransferPc} (hpcs : s'.pcs = Function.update s.pcs i pc)
    (hbefore : (s.pcs i).ctx ≠ some ctx) (hafter : pc.ctx ≠ some ctx) (j : Fin w) :
    s'.pcs j = s.pcs j ∨ (s.pcs j).ctx ≠ some ctx ∧ (s'.pcs j).ctx ≠ some ctx := by
  rw [hpcs]
  by_cases hj : j = i
  · subst hj
    rw [Function.update_self]
    exact .inr ⟨hbefore, hafter⟩
  · exact .inl (Function.update_of_ne hj ..)

/-- Worker `i` takes the request of `ctx` from the queue. -/
theorem Stage.take (h : s.Stage e requests (ctx :: items) ctx) (hnodup : ctx ∉ items)
    (hpcs : s'.pcs = Function.update s.pcs i (.unlock ctx)) (hsock : s'.socks = s.socks) :
    s'.Stage e requests items ctx := by
  cases h with
  | waiting hin _ hfree hs =>
    refine .served i hin hnodup (by rw [hpcs, Function.update_self]; rfl) (fun j hj => ?_) ?_
    · by_contra hne
      rw [hpcs, Function.update_of_ne hne] at hj
      exact hfree j hj
    · rw [hsock, hs, hpcs, Function.update_self]
      rfl
  | unknown _ hout _ _ => exact absurd List.mem_cons_self hout
  | served _ _ hout _ _ _ => exact absurd List.mem_cons_self hout
  | answered _ hout _ _ => exact absurd List.mem_cons_self hout

/-- Worker `i` goes on with connection `ctx`. -/
theorem Stage.serve {pc : TransferPc} (h : s.Stage e requests items ctx)
    (hbefore : (s.pcs i).ctx = some ctx) (hafter : pc.ctx = some ctx ∨ pc.ctx = none)
    (hrest : e.rest ctx (s'.socks ctx) pc = e.rest ctx (s.socks ctx) (s.pcs i))
    (hpcs : s'.pcs = Function.update s.pcs i pc) : s'.Stage e requests items ctx := by
  cases h with
  | served k hin hout hself halone hr =>
    obtain rfl := halone i hbefore
    have hself' : s'.pcs i = pc := by rw [hpcs, Function.update_self]
    have honly : ∀ j, (s'.pcs j).ctx = some ctx → j = i := by
      intro j hj
      by_contra hne
      rw [hpcs, Function.update_of_ne hne] at hj
      exact hne (halone j hj)
    rcases hafter with hctx | hnone
    · refine .served i hin hout (by rw [hself', hctx]) honly ?_
      rw [hself', hrest, hr]
    · refine .answered hin hout (fun j hj => ?_) ?_
      · obtain rfl := honly j hj
        rw [hself', hnone] at hj
        cases hj
      · rw [← hr, ← hrest, rest_of_idle hnone]
  | unknown _ _ hfree _ => exact absurd hbefore (hfree i)
  | waiting _ _ hfree _ => exact absurd hbefore (hfree i)
  | answered _ _ hfree _ => exact absurd hbefore (hfree i)

end Stage

/-! ## Every schedule -/

/-- Cells `l` represent the queue, no request is in it twice, and each connection is at one of its
    stages. -/
structure Answering (e : Surroundings) (s : Transfers w) (requests : List ℕ) (l : List (ℕ × ℕ)) :
    Prop where
  repr : s.requeue.Repr l
  nodup : (l.map Prod.snd).Nodup
  stage : ∀ ctx, s.Stage e requests (l.map Prod.snd) ctx

section Answering

variable {requests : List ℕ} {l : List (ℕ × ℕ)}

theorem answering_init : ((transfers e w).init).Answering e [] [] where
  repr := Steque.Repr.init
  nodup := List.nodup_nil
  stage _ := .unknown List.not_mem_nil List.not_mem_nil (fun _ hnone => by cases hnone) rfl

theorem Answering.worker (h : s.Answering e requests l) (hb : s.Busy e i s') :
    ∃ l', s'.Answering e requests l' := by
  cases hb with
  | idle pc hbefore hafter hpcs hsocks hqueue =>
    refine ⟨l, hqueue ▸ h.repr, h.nodup, fun ctx => ?_⟩
    apply (h.stage ctx).frame Iff.rfl Iff.rfl (congrFun hsocks ctx)
    exact frame_update hpcs (by simp [hbefore]) (by simp [hafter])
  | take c hbefore hpop hpcs hsocks =>
    cases l with
    | nil =>
      rw [h.repr.pop_nil] at hpop
      cases hpop
    | cons cell l =>
      obtain ⟨q, hq, hrepr⟩ := h.repr.pop
      rw [hq] at hpop
      cases hpop
      obtain ⟨hnew, hnodup⟩ := List.nodup_cons.mp h.nodup
      refine ⟨l, hrepr, hnodup, fun ctx => ?_⟩
      by_cases hctx : ctx = cell.2
      · subst hctx
        exact (h.stage cell.2).take hnew hpcs hsocks
      · apply (h.stage ctx).frame Iff.rfl ?_ (congrFun hsocks ctx)
        · exact frame_update hpcs (by simp [hbefore]) fun heq => hctx (Option.some.inj heq).symm
        · rw [List.map_cons, List.mem_cons, or_iff_right hctx]
  | serve c pc sock hbefore hafter hrest hpcs hsocks hqueue =>
    refine ⟨l, hqueue ▸ h.repr, h.nodup, fun ctx => ?_⟩
    by_cases hctx : ctx = c
    · subst hctx
      refine (h.stage ctx).serve hbefore hafter ?_ hpcs
      rw [hsocks, Function.update_self, hrest]
    · have hne : some c ≠ some ctx := fun heq => hctx (Option.some.inj heq).symm
      apply (h.stage ctx).frame Iff.rfl Iff.rfl
      · rw [hsocks, Function.update_of_ne hctx]
      · refine frame_update hpcs (by rwa [hbefore]) ?_
        rcases hafter with hsome | hnone
        · rwa [hsome]
        · simp [hnone]

theorem Answering.enqueue {node : ℕ} (h : s.Answering e requests l) (hnew : ctx ∉ requests)
    (hs : s.enqueueStep node ctx = some s') : ∃ l', s'.Answering e (requests ++ [ctx]) l' := by
  obtain ⟨hfree, hs⟩ := Option.ite_none_right_eq_some.mp hs
  obtain ⟨q, hq, hrepr⟩ := h.repr.enqueue (Option.isNone_iff_eq_none.mp hfree) ctx
  rw [hq] at hs
  cases hs
  have hitems : (l ++ [(node, ctx)]).map Prod.snd = l.map Prod.snd ++ [ctx] := List.map_append
  refine ⟨l ++ [(node, ctx)], hrepr, ?_, fun c => ?_⟩
  · have hout : ctx ∉ l.map Prod.snd := by
      cases h.stage ctx with
      | unknown _ hout _ _ => exact hout
      | waiting hin _ _ _ => exact absurd hin hnew
      | served _ _ hout _ _ _ => exact hout
      | answered _ hout _ _ => exact hout
    rw [hitems]
    exact List.nodup_append_comm.mp (List.nodup_cons.mpr ⟨hout, h.nodup⟩)
  · rw [hitems]
    by_cases hc : c = ctx
    · subst hc
      cases h.stage c with
      | unknown _ _ hfree hsock =>
        exact .waiting List.mem_concat_self List.mem_concat_self hfree hsock
      | waiting hin _ _ _ => exact absurd hin hnew
      | served _ hin _ _ _ _ => exact absurd hin hnew
      | answered hin _ _ _ => exact absurd hin hnew
    · have hother : ∀ xs : List ℕ, c ∈ xs ++ [ctx] ↔ c ∈ xs := fun xs => by
        rw [List.mem_append, List.mem_singleton, or_iff_left hc]
      exact (h.stage c).frame (hother requests) (hother (l.map Prod.snd)) rfl fun j => .inl rfl

theorem Answering.step {a : TransferAct w} (h : s.Answering e requests l)
    (hnodup : (requests ++ a.request.toList).Nodup) (hs : step e a s = some s') :
    ∃ l', s'.Answering e (requests ++ a.request.toList) l' := by
  have hrunning : s.ended = none := by
    unfold Transfers.step at hs
    split at hs
    · cases hs
    · assumption
    · assumption
  simp only [Transfers.step, hrunning] at hs
  cases a with
  | enqueue node ctx =>
    have hnew : ctx ∉ requests := fun hin =>
      (List.nodup_append.mp hnodup).2.2 ctx hin ctx List.mem_cons_self rfl
    exact h.enqueue hnew hs
  | worker i =>
    obtain ⟨l', hl'⟩ := h.worker (busy_of_workerStep hs)
    exact ⟨l', by rwa [TransferAct.request, Option.toList_none, List.append_nil]⟩

/-- What one step keeps, a run keeps: the induction is on the run, and the requests so far grow
    with it. -/
theorem Answering.run {as : List (TransferAct w)} (h : s.Answering e requests l)
    (hnodup : (requests ++ as.filterMap TransferAct.request).Nodup)
    (hs : (transfers e w).run as s = some s') :
    ∃ l', s'.Answering e (requests ++ as.filterMap TransferAct.request) l' := by
  induction as generalizing s requests l with
  | nil =>
    cases hs
    exact ⟨l, by rwa [List.filterMap_nil, List.append_nil]⟩
  | cons a as ih =>
    obtain ⟨u, hu, hrest⟩ := Option.bind_eq_some_iff.mp hs
    have hsplit : (a :: as).filterMap TransferAct.request =
        a.request.toList ++ as.filterMap TransferAct.request := by
      cases a <;> rfl
    rw [hsplit, ← List.append_assoc] at hnodup ⊢
    obtain ⟨l', hl'⟩ := h.step (List.nodup_append.mp hnodup).1 hu
    exact ih hl' hnodup hrest

end Answering

end Transfers

/-- The workers answer as the single-threaded server does for the paths that they look up, in every
    schedule of whole queue operations: a connection whose request has come waits with nothing sent,
    or is in the hands of one worker and has been sent a beginning of the answer of `handler_get`,
    or is as `handler_get` leaves it. -/
theorem concurrent_answers (e : Surroundings) (w : ℕ) (as : List (TransferAct w)) (s : Transfers w)
    (hrun : (transfers e w).run as (transfers e w).init = some s)
    (hnodup : (as.filterMap TransferAct.request).Nodup) (ctx : ℕ) :
    (ctx ∉ as.filterMap TransferAct.request → s.socks ctx = Sock.new) ∧
    (ctx ∈ as.filterMap TransferAct.request →
      ctx ∈ s.requeue.contents ∧ (∀ i, (s.pcs i).ctx ≠ some ctx) ∧ s.socks ctx = Sock.new ∨
      ctx ∉ s.requeue.contents ∧ (∃! i, (s.pcs i).ctx = some ctx) ∧
        (s.socks ctx).wire <+: (e.answer ctx).wire ∨
      ctx ∉ s.requeue.contents ∧ (∀ i, (s.pcs i).ctx ≠ some ctx) ∧ s.socks ctx = e.answer ctx) := by
  obtain ⟨l, hl⟩ := Transfers.answering_init.run hnodup hrun
  rw [hl.repr.contents]
  cases hl.stage ctx with
  | unknown hnew _ _ hsock => exact ⟨fun _ => hsock, fun hin => absurd hin hnew⟩
  | waiting hin hwaits hfree hsock =>
    exact ⟨fun hnew => absurd hin hnew, fun _ => .inl ⟨hwaits, hfree, hsock⟩⟩
  | served i hin hout hself halone hrest =>
    refine ⟨fun hnew => absurd hin hnew, fun _ => .inr (.inl ⟨hout, ⟨i, hself, halone⟩, ?_⟩)⟩
    rw [← hrest]
    exact wire_prefix_rest e ctx (s.socks ctx) (s.pcs i)
  | answered hin hout hfree hsock =>
    exact ⟨fun hnew => absurd hin hnew, fun _ => .inr (.inr ⟨hout, hfree, hsock⟩)⟩

/-- A file of one byte, and no call fails. -/
def goodRead : Surroundings := { failingRead with reads := fun _ _ => some 1 }

/-- Two requests and two workers; the first worker is through, the second waits for `filelock`. -/
def twoRequests : List (TransferAct 2) :=
  [.enqueue 0 0, .enqueue 1 1, .worker 0, .worker 0, .worker 0, .worker 0, .worker 1, .worker 1,
    .worker 1, .worker 1, .worker 0, .worker 1, .worker 0, .worker 0, .worker 1, .worker 0,
    .worker 0, .worker 0, .worker 0]

theorem concurrent_answers_two : ∃ s : Transfers 2,
    (transfers goodRead 2).run twoRequests (transfers goodRead 2).init = some s ∧
      s.socks 0 = goodRead.answer 0 ∧ (s.socks 1).wire <+: (goodRead.answer 1).wire := by
  have hvalue : ((transfers goodRead 2).run twoRequests (transfers goodRead 2).init).map
      (fun s => ((s.pcs 0).ctx, (s.pcs 1).ctx, (s.socks 0).wire.isEmpty)) =
      some (none, some 1, false) := by decide +kernel
  obtain ⟨s, hs, hat⟩ := Option.map_eq_some_iff.mp hvalue
  simp only [Prod.mk.injEq] at hat
  obtain ⟨hfirst, hsecond, hwire⟩ := hat
  refine ⟨s, hs, ?_, ?_⟩
  · rcases (concurrent_answers goodRead 2 twoRequests s hs (by decide) 0).2 (by decide) with
      ⟨-, -, hnew⟩ | ⟨-, ⟨i, hi, -⟩, -⟩ | ⟨-, -, hanswer⟩
    · rw [hnew] at hwire
      cases hwire
    · fin_cases i
      · exact absurd (hfirst.symm.trans hi) (by decide)
      · exact absurd (hsecond.symm.trans hi) (by decide)
    · exact hanswer
  · rcases (concurrent_answers goodRead 2 twoRequests s hs (by decide) 1).2 (by decide) with
      ⟨-, hfree, -⟩ | ⟨-, -, hstart⟩ | ⟨-, hfree, -⟩
    · exact absurd hsecond (hfree 1)
    · exact hstart
    · exact absurd hsecond (hfree 1)

end IntroOS.Mtgf
