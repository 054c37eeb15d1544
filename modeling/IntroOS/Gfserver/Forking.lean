import IntroOS.Concurrency.System

/-!
# The forking server

Model of the loop of `gfserver_serve` in `pr1/gflib/copy/gfserver.c` (lines 167–196). A connection
is served by a child process, which then goes on with the loop like its parent; no process closes
`hSocket`. `recvBuff` is not looked at, and the handler gets `gfs->filePath`, which is not modelled.

* The connections are numbered as they are accepted. A process has descriptors of those that it has
  accepted, and of those that its parent had at `fork`.
* `accept`, `fork`, `recv` and `shutdown` can fail; the handler can end the process by `gfs_abort`.
* The client sees the end of its stream when `shutdown` has been called, or when no process has a
  descriptor of its connection any more.

Main results:

* `forking_once`: whatever the interleaving, no connection is handled twice, and each one that has
  been served leaves one process more that waits for connections.
* `forking_ends_iff`: only `shutdown` ends a stream, so that the client of a connection whose `fork`
  or child has failed waits for ever.
-/

namespace IntroOS.Gfserver.Copy

open Concurrency

/-! ## Model -/

/-- Where a process is in the loop. -/
inductive ForkPc
  | accept
  | fork
  | recv
  | handle
  | shutdown
  | exited
  deriving DecidableEq, Repr

structure Proc where
  pc : ForkPc
  /-- `gfcontext->hSocket`; nothing if it is -1 -/
  hSocket : Option ℕ
  /-- the connections that the process has descriptors of -/
  fds : List ℕ
  deriving DecidableEq, Repr

structure Forking where
  procs : List Proc
  /-- how many connections have been accepted -/
  accepted : ℕ
  /-- the connections that the handler has been called for -/
  handled : List ℕ
  /-- the connections whose child has gone back to the loop -/
  finished : List ℕ
  /-- the connections that have been shut down for writing -/
  shut : List ℕ
  deriving DecidableEq, Repr

/-- The next call of process `i`, and whether it succeeds. -/
structure ForkAct where
  i : ℕ
  ok : Bool

/-- `exit`, also by `gfs_abort`. -/
def Proc.exit (p : Proc) : Proc := { p with pc := .exited, fds := [] }

namespace Forking

/-- Process `i` becomes `p`; the processes of `children` are new. -/
def goto (s : Forking) (i : ℕ) (p : Proc) (children : List Proc) : Forking :=
  { s with procs := s.procs.set i p ++ children }

def step (a : ForkAct) (s : Forking) : Option Forking :=
  match s.procs[a.i]? with
  | none => none
  | some p =>
    match p.pc with
    | .accept =>
      if a.ok then
        let hSocket := s.accepted
        some { s.goto a.i ⟨.fork, some hSocket, hSocket :: p.fds⟩ [] with
          accepted := s.accepted + 1 }
      else some (s.goto a.i { p with hSocket := none } [])
    | .fork =>
      -- `!fork()` is false also if `fork` fails
      let children := if a.ok then [{ p with pc := .recv }] else []
      some (s.goto a.i { p with pc := .accept } children)
    | .recv =>
      if a.ok then some (s.goto a.i { p with pc := .handle } [])
      else some (s.goto a.i p.exit [])
    | .handle =>
      let p' := if a.ok then { p with pc := .shutdown } else p.exit
      some { s.goto a.i p' [] with handled := s.handled ++ p.hSocket.toList }
    | .shutdown =>
      some { s.goto a.i { p with pc := .accept } [] with
        finished := s.finished ++ p.hSocket.toList
        shut := s.shut ++ if a.ok then p.hSocket.toList else [] }
    | .exited => none

end Forking

def forking : System Forking ForkAct where
  init := ⟨[⟨.accept, none, []⟩], 0, [], [], []⟩
  step := Forking.step

/-! ## One step -/

/-- The process is in the loop, not in the `if`. -/
def Proc.waits (p : Proc) : Bool := p.pc = .accept ∨ p.pc = .fork

/-- The process will call the handler for connection `c`, or its child will. -/
def Proc.task (c : ℕ) (p : Proc) : Bool :=
  (p.pc = .fork ∨ p.pc = .recv ∨ p.pc = .handle) ∧ p.hSocket = some c

/-- The process has still to shut connection `c` down, or its child has. -/
def Proc.pending (c : ℕ) (p : Proc) : Bool := p.task c ∨ p.pc = .shutdown ∧ p.hSocket = some c

variable {s s' : Forking} {a : ForkAct} {i : ℕ} {p p' : Proc} {children : List Proc}

/-- Counting over the processes, after one of them has changed. -/
theorem countP_goto (f : Proc → Bool) (hp : s.procs[i]? = some p) :
    (s.goto i p' children).procs.countP f + (f p).toNat =
      s.procs.countP f + (f p').toNat + children.countP f := by
  obtain ⟨hi, rfl⟩ := List.getElem?_eq_some_iff.mp hp
  have hset := @List.countP_set _ f s.procs i p' hi
  have hite : ∀ b : Bool, (if b = true then 1 else 0) = b.toNat := by
    intro b
    cases b <;> rfl
  rw [hite, hite] at hset
  have hpos : (f s.procs[i]).toNat ≤ s.procs.countP f := by
    cases hf : f s.procs[i] with
    | true => exact List.countP_pos_iff.mpr ⟨_, List.getElem_mem hi, hf⟩
    | false => exact Nat.zero_le _
  show (s.procs.set i p' ++ children).countP f + _ = _
  rw [List.countP_append, hset]
  omega

/-- What holds of all processes, after one of them has changed. -/
theorem forall_mem_goto {P : Proc → Prop} (h : ∀ q ∈ s.procs, P q) (hp' : P p')
    (hchildren : ∀ q ∈ children, P q) : ∀ q ∈ (s.goto i p' children).procs, P q := by
  intro q hq
  obtain hq | hq := List.mem_append.mp hq
  · obtain hq | rfl := List.mem_or_eq_of_mem_set hq
    · exact h q hq
    · exact hp'
  · exact hchildren q hq

/-- A process stays, unless it is the one that changes. -/
theorem exists_mem_goto {P : Proc → Prop} (hp : s.procs[i]? = some p) (hp' : P p → P p')
    (h : ∃ q ∈ s.procs, P q) : ∃ q ∈ (s.goto i p' children).procs, P q := by
  obtain ⟨q, hq, hP⟩ := h
  obtain ⟨hi, rfl⟩ := List.getElem?_eq_some_iff.mp hp
  obtain ⟨j, hj, rfl⟩ := List.getElem_of_mem hq
  by_cases hij : i = j
  · subst hij
    exact ⟨p', List.mem_append_left _ (List.mem_set hi p'), hp' hP⟩
  · refine ⟨s.procs[j], List.mem_append_left _ ?_, hP⟩
    rw [List.mem_iff_getElem]
    exact ⟨j, by rwa [List.length_set], List.getElem_set_ne hij _⟩

/-! ## The invariant -/

/-- A process that works for a connection has one. -/
def Proc.Ok (p : Proc) : Prop := p.pc = .accept ∨ p.pc = .exited ∨ p.hSocket ≠ none

/-- What holds in every run. -/
structure Inv (s : Forking) : Prop where
  ok : ∀ p ∈ s.procs, p.Ok
  /-- the connection of a process has been accepted -/
  hSocket_lt : ∀ p ∈ s.procs, ∀ c, p.hSocket = some c → c < s.accepted
  handled_lt : ∀ c ∈ s.handled, c < s.accepted
  shut_lt : ∀ c ∈ s.shut, c < s.accepted
  /-- a connection is handled once, now or later -/
  once : ∀ c, s.procs.countP (Proc.task c) + s.handled.count c ≤ 1
  /-- each child that has been through the `if` waits in the loop -/
  waiting : s.procs.countP Proc.waits = 1 + s.finished.length
  /-- a process in the loop keeps the connections that it has accepted -/
  kept : ∀ c < s.accepted, ∃ p ∈ s.procs, p.waits = true ∧ c ∈ p.fds

theorem Inv.init : Inv forking.init where
  ok p hp := .inl (by rw [List.mem_singleton.mp hp])
  hSocket_lt p hp c hc := by
    rw [List.mem_singleton.mp hp] at hc
    cases hc
  handled_lt _ hc := absurd hc List.not_mem_nil
  shut_lt _ hc := absurd hc List.not_mem_nil
  once _ := Nat.zero_le 1
  waiting := rfl
  kept c hc := absurd hc (Nat.not_lt_zero c)

/-- The steps other than an `accept` that succeeds: `p` becomes `p'` and may have a child, and its
    connection may become handled, finished or shut down. -/
theorem Inv.move (h : Inv s) (hp : s.procs[i]? = some p) {handled finished shut : List ℕ}
    (hprocs : s'.procs = (s.goto i p' children).procs) (haccepted : s'.accepted = s.accepted)
    (hhandled : s'.handled = s.handled ++ handled)
    (hfinished : s'.finished = s.finished ++ finished) (hshut : s'.shut = s.shut ++ shut)
    (hok : ∀ q ∈ p' :: children, q.Ok)
    (hsocket : ∀ q ∈ p' :: children, ∀ c, q.hSocket = some c → p.hSocket = some c)
    (hown : ∀ c ∈ handled ++ shut, p.hSocket = some c)
    (honce : ∀ c, (p'.task c).toNat + children.countP (Proc.task c) + handled.count c ≤
      (p.task c).toNat)
    (hwaits : p'.waits.toNat + children.countP Proc.waits = p.waits.toNat + finished.length)
    (hkept : p.waits = true → p'.waits = true ∧ p'.fds = p.fds) : Inv s' := by
  have hlt := h.hSocket_lt p (List.mem_of_getElem? hp)
  obtain ⟨hok', hokc⟩ := List.forall_mem_cons.mp hok
  obtain ⟨hsocket', hsocketc⟩ := List.forall_mem_cons.mp hsocket
  refine ⟨?_, ?_, ?_, ?_, ?_, ?_, ?_⟩
  · rw [hprocs]
    exact forall_mem_goto h.ok hok' hokc
  · rw [hprocs, haccepted]
    exact forall_mem_goto h.hSocket_lt (fun c hc => hlt c (hsocket' c hc))
      fun q hq c hc => hlt c (hsocketc q hq c hc)
  · rw [hhandled, haccepted]
    exact List.forall_mem_append.mpr
      ⟨h.handled_lt, fun c hc => hlt c (hown c (List.mem_append_left _ hc))⟩
  · rw [hshut, haccepted]
    exact List.forall_mem_append.mpr
      ⟨h.shut_lt, fun c hc => hlt c (hown c (List.mem_append_right _ hc))⟩
  · intro c
    have hcount := @countP_goto s i p p' children (Proc.task c) hp
    have hbefore := h.once c
    have hstep := honce c
    rw [hprocs, hhandled, List.count_append]
    omega
  · have hcount := @countP_goto s i p p' children Proc.waits hp
    have hbefore := h.waiting
    rw [hprocs, hfinished, List.length_append]
    omega
  · rw [hprocs, haccepted]
    intro c hc
    refine exists_mem_goto hp ?_ (h.kept c hc)
    rintro ⟨hw, hmem⟩
    obtain ⟨hw', hfds⟩ := hkept hw
    exact ⟨hw', hfds ▸ hmem⟩

/-- A connection that has just been accepted is a task for the first time. -/
theorem Inv.accept (h : Inv s) (hp : s.procs[i]? = some p) (hpc : p.pc = .accept) :
    Inv { s.goto i ⟨.fork, some s.accepted, s.accepted :: p.fds⟩ [] with
      accepted := s.accepted + 1 } := by
  refine ⟨?_, ?_, ?_, ?_, ?_, ?_, ?_⟩
  · exact forall_mem_goto h.ok (.inr (.inr (Option.some_ne_none _))) fun q hq => absurd hq List.not_mem_nil
  · refine forall_mem_goto (fun q hq c hc => (h.hSocket_lt q hq c hc).trans (Nat.lt_succ_self _)) ?_
      fun q hq => absurd hq List.not_mem_nil
    intro c hc
    cases hc
    exact Nat.lt_succ_self _
  · exact fun c hc => (h.handled_lt c hc).trans (Nat.lt_succ_self _)
  · exact fun c hc => (h.shut_lt c hc).trans (Nat.lt_succ_self _)
  · intro c
    have hcount := @countP_goto s i p ⟨.fork, some s.accepted, s.accepted :: p.fds⟩ []
      (Proc.task c) hp
    have hidle : p.task c = false := by simp [Proc.task, hpc]
    have hnew : (Proc.task c ⟨.fork, some s.accepted, s.accepted :: p.fds⟩).toNat ≤ 1 :=
      Bool.toNat_le _
    rw [hidle, List.countP_nil] at hcount
    show (s.goto i _ []).procs.countP _ + s.handled.count c ≤ 1
    by_cases hc : c = s.accepted
    · subst hc
      have htask : s.procs.countP (Proc.task s.accepted) = 0 := by
        rw [List.countP_eq_zero]
        intro q hq htask
        have hsocket : q.hSocket = some s.accepted := (of_decide_eq_true htask).2
        exact lt_irrefl _ (h.hSocket_lt q hq _ hsocket)
      have hhandled : s.handled.count s.accepted = 0 :=
        List.count_eq_zero.mpr fun hmem => lt_irrefl _ (h.handled_lt _ hmem)
      omega
    · have hother : Proc.task c ⟨.fork, some s.accepted, s.accepted :: p.fds⟩ = false := by
        simp [Proc.task, Ne.symm hc]
      have hbefore := h.once c
      rw [hother] at hcount
      omega
  · have hcount := @countP_goto s i p ⟨.fork, some s.accepted, s.accepted :: p.fds⟩ []
      Proc.waits hp
    have hbefore : p.waits = true := by simp [Proc.waits, hpc]
    have hafter : Proc.waits ⟨.fork, some s.accepted, s.accepted :: p.fds⟩ = true := rfl
    have hwaiting := h.waiting
    rw [hbefore, hafter, List.countP_nil] at hcount
    show (s.goto i _ []).procs.countP _ = 1 + s.finished.length
    omega
  · intro c hc
    obtain hlt | rfl := Nat.lt_succ_iff_lt_or_eq.mp hc
    · refine exists_mem_goto hp ?_ (h.kept c hlt)
      exact fun hkept => ⟨rfl, List.mem_cons_of_mem _ hkept.2⟩
    · obtain ⟨hi, -⟩ := List.getElem?_eq_some_iff.mp hp
      exact ⟨_, List.mem_append_left _ (List.mem_set hi _), rfl, List.mem_cons_self⟩

/-- A process that is not in the loop works for a connection. -/
theorem Proc.Ok.socket (h : p.Ok) (haccept : p.pc ≠ .accept) (hexited : p.pc ≠ .exited) :
    ∃ c, p.hSocket = some c :=
  Option.ne_none_iff_exists'.mp ((h.resolve_left haccept).resolve_left hexited)

theorem Inv.step (h : Inv s) (hs : forking.step a s = some s') : Inv s' := by
  have hs : Forking.step a s = some s' := hs
  unfold Forking.step at hs
  cases hp : s.procs[a.i]? with
  | none => simp [hp] at hs
  | some p =>
    have hok := h.ok p (List.mem_of_getElem? hp)
    have hnil : ∀ l : List ℕ, l = l ++ [] := fun l => (List.append_nil l).symm
    obtain ⟨pc, hSocket, fds⟩ := p
    rw [hp] at hs
    cases pc with
    | accept =>
      dsimp only at hs
      split_ifs at hs
      · cases hs
        exact h.accept hp rfl
      · cases hs
        refine h.move hp rfl rfl (hnil _) (hnil _) (hnil _) ?_ ?_ ?_ ?_ ?_ ?_
        all_goals simp [Proc.Ok, Proc.task, Proc.waits]
    | fork =>
      obtain ⟨c₀, rfl⟩ := hok.socket nofun nofun
      cases hs
      refine h.move hp rfl rfl (hnil _) (hnil _) (hnil _) ?_ ?_ ?_ ?_ ?_ ?_
      all_goals cases a.ok
      all_goals simp [Proc.Ok, Proc.task, Proc.waits, Bool.toNat, Bool.cond_decide]
    | recv =>
      obtain ⟨c₀, rfl⟩ := hok.socket nofun nofun
      dsimp only at hs
      split_ifs at hs
      · cases hs
        refine h.move hp rfl rfl (hnil _) (hnil _) (hnil _) ?_ ?_ ?_ ?_ ?_ ?_
        all_goals simp [Proc.Ok, Proc.task, Proc.waits]
      · cases hs
        refine h.move hp rfl rfl (hnil _) (hnil _) (hnil _) ?_ ?_ ?_ ?_ ?_ ?_
        all_goals simp [Proc.Ok, Proc.task, Proc.waits, Proc.exit]
    | handle =>
      obtain ⟨c₀, rfl⟩ := hok.socket nofun nofun
      cases hs
      refine h.move hp rfl rfl rfl (hnil _) (hnil _) ?_ ?_ ?_ ?_ ?_ ?_
      all_goals cases a.ok
      all_goals simp [Proc.Ok, Proc.task, Proc.waits, Proc.exit, Bool.toNat, Bool.cond_decide,
        List.count_singleton]
    | shutdown =>
      obtain ⟨c₀, rfl⟩ := hok.socket nofun nofun
      cases hs
      refine h.move hp rfl rfl (hnil _) rfl rfl ?_ ?_ ?_ ?_ ?_ ?_
      all_goals cases a.ok
      all_goals simp [Proc.Ok, Proc.task, Proc.waits]
    | exited => cases hs

theorem inv_of_reach (h : forking.Reach System.anyStep s) : Inv s :=
  h.invariant Inv.init fun _ _ _ h _ hs => h.step hs

/-! ## Results -/

/-- The handler is called at most once for each connection; and whenever a child has been through
    the `if`, there is one process more in the loop. -/
theorem forking_once (s : Forking) (h : forking.Reach System.anyStep s) :
    s.handled.Nodup ∧ s.procs.countP Proc.waits = 1 + s.finished.length := by
  have hinv := inv_of_reach h
  refine ⟨List.nodup_iff_count_le_one.mpr fun c => ?_, hinv.waiting⟩
  exact (Nat.le_add_left _ _).trans (hinv.once c)

/-- The client of connection `c` reads the end of its stream. -/
def Forking.Ends (s : Forking) (c : ℕ) : Prop := c ∈ s.shut ∨ ∀ p ∈ s.procs, c ∉ p.fds

/-- A process that waits keeps the connection open. -/
theorem Inv.ends_iff {c : ℕ} (h : Inv s) (hc : c < s.accepted) : s.Ends c ↔ c ∈ s.shut := by
  constructor
  · rintro (hshut | hclosed)
    · exact hshut
    · obtain ⟨p, hp, -, hfds⟩ := h.kept c hc
      exact absurd hfds (hclosed p hp)
  · exact .inl

/-- Nobody will shut connection `c` down. -/
structure Lost (c : ℕ) (s : Forking) : Prop where
  lt : c < s.accepted
  idle : ∀ p ∈ s.procs, p.pending c = false
  not_shut : c ∉ s.shut

theorem Lost.step {c : ℕ} (h : Lost c s) (hs : forking.step a s = some s') : Lost c s' := by
  have hs : Forking.step a s = some s' := hs
  unfold Forking.step at hs
  cases hp : s.procs[a.i]? with
  | none => simp [hp] at hs
  | some p =>
    have hidle := h.idle p (List.mem_of_getElem? hp)
    have hlt := h.lt
    have hshut := h.not_shut
    have hne : s.accepted ≠ c := by omega
    obtain ⟨pc, hSocket, fds⟩ := p
    rw [hp] at hs
    cases pc with
    | accept =>
      dsimp only at hs
      split_ifs at hs
      all_goals cases hs
      · refine ⟨hlt.trans (Nat.lt_succ_self _), forall_mem_goto h.idle ?_ ?_, hshut⟩
        all_goals simp [Proc.pending, Proc.task, hne]
      · refine ⟨hlt, forall_mem_goto h.idle ?_ ?_, hshut⟩
        all_goals simp [Proc.pending, Proc.task]
    | fork =>
      cases hs
      refine ⟨hlt, forall_mem_goto h.idle ?_ ?_, hshut⟩
      all_goals cases a.ok
      all_goals simp_all [Proc.pending, Proc.task]
    | recv =>
      dsimp only at hs
      split_ifs at hs
      all_goals cases hs
      all_goals refine ⟨hlt, forall_mem_goto h.idle ?_ ?_, hshut⟩
      all_goals simp_all [Proc.pending, Proc.task, Proc.exit]
    | handle =>
      cases hs
      refine ⟨hlt, forall_mem_goto h.idle ?_ ?_, hshut⟩
      all_goals cases a.ok
      all_goals simp_all [Proc.pending, Proc.task, Proc.exit]
    | shutdown =>
      cases hs
      refine ⟨hlt, forall_mem_goto h.idle ?_ ?_, ?_⟩
      all_goals cases a.ok
      all_goals simp_all [Proc.pending, Proc.task]
    | exited => cases hs

/-- Only `shutdown` ends a stream. A connection that nobody will shut down any more, because its
    `fork` or its child has failed, stays open in every run. -/
theorem forking_ends_iff (s s' : Forking) (as : List ForkAct)
    (h : forking.Reach System.anyStep s) (hr : forking.run as s = some s') :
    (∀ c < s'.accepted, s'.Ends c ↔ c ∈ s'.shut) ∧
      ∀ c < s.accepted, (∀ p ∈ s.procs, p.pending c = false) → ¬ s.Ends c → ¬ s'.Ends c := by
  have hinv := inv_of_reach h
  have hinv' : Inv s' := System.run_keeps (fun _ _ _ h hs => h.step hs) hinv hr
  refine ⟨fun c hc => hinv'.ends_iff hc, ?_⟩
  intro c hc hidle hends
  have hlost : Lost c s := ⟨hc, hidle, fun hshut => hends (.inl hshut)⟩
  have hlost' : Lost c s' := System.run_keeps (fun _ _ _ h hs => h.step hs) hlost hr
  rw [hinv'.ends_iff hlost'.lt]
  exact hlost'.not_shut

/-- `fork` fails for the first connection. -/
def forkFails : List ForkAct := [⟨0, true⟩, ⟨0, false⟩]

/-- The second one is served, and its child waits for a third. -/
def served : List ForkAct := [⟨0, true⟩, ⟨0, true⟩, ⟨1, true⟩, ⟨1, true⟩, ⟨1, true⟩, ⟨1, true⟩]

def afterFail : Forking := ⟨[⟨.accept, some 0, [0]⟩], 1, [], [], []⟩

def afterServed : Forking :=
  ⟨[⟨.accept, some 1, [1, 0]⟩, ⟨.fork, some 2, [2, 1, 0]⟩], 3, [1], [1], [1]⟩

theorem forking_once_served : afterServed.handled.Nodup ∧
    afterServed.procs.countP Proc.waits = 1 + afterServed.finished.length :=
  forking_once afterServed (System.reach_of_run (by decide :
    forking.run (forkFails ++ served) forking.init = some afterServed))

theorem forking_ends_iff_served :
    (∀ c < afterServed.accepted, afterServed.Ends c ↔ c ∈ afterServed.shut) ∧
      ∀ c < afterFail.accepted, (∀ p ∈ afterFail.procs, p.pending c = false) →
        ¬ afterFail.Ends c → ¬ afterServed.Ends c :=
  forking_ends_iff afterFail afterServed served
    (System.reach_of_run (by decide : forking.run forkFails forking.init = some afterFail))
    (by decide)

end IntroOS.Gfserver.Copy
