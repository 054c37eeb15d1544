import IntroOS.Gfclient.BodyPhase
import IntroOS.Gfserver.Wire

/-!
# The header callback

`gfclient.h` (lines 49–64) promises that the header callback is called once, with the full header.
The client calls it with a header that it puts together itself, and behind the status OK only when
the chunk that completes the header brings a line of the body.

Main results:

* `perform_headsOnly`: what the header callback can be called with.
* `ok_called_iff`: when it is called with the header of the server.
* `header_called_iff`: the responses and cuts for which the promise is kept.
-/

namespace IntroOS.Gfclient

open CString Concurrency

/-! ## The calls of the header callback -/

/-- The data of the calls of the header callback in `log`, in order. -/
def heads (log : List Event) : List (List Byte) :=
  log.filterMap fun
    | .head _ data _ => some data
    | _ => none

theorem heads_append (a b : List Event) : heads (a ++ b) = heads a ++ heads b :=
  List.filterMap_append

theorem heads_map (cfg : Config) (datas : List (List Byte)) :
    heads (datas.map cfg.writeCall) = [] := by
  induction datas with
  | nil => rfl
  | cons data datas ih => exact ih

/-- A header that the client puts together. -/
inductive ClientHeader : List Byte → Prop
  | ok (filelen : List Byte) : 32 ∉ filelen → ClientHeader (okHeader filelen)
  | fileNotFound : ClientHeader (ascii "GETFILE FILE_NOT_FOUND")
  | error : ClientHeader (ascii "GETFILE ERROR")

/-- The header callback is only called as registered, if it has an argument, and with headers that
    the client puts together. -/
def HeadsOnly (cfg : Config) (log : List Event) : Prop :=
  ∀ f data arg, Event.head f data arg ∈ log →
    cfg.head = some (f, arg) ∧ arg ≠ none ∧ ClientHeader data

section Heads

variable {cfg : Config} {e : Ending} {cs : List Chunk} {l : StrLocals} {v v' : View} {ret : ℤ}
  {a b : List Event} {data : List Byte} {flow : StrFlow}

theorem HeadsOnly.append (ha : HeadsOnly cfg a) (hb : HeadsOnly cfg b) :
    HeadsOnly cfg (a ++ b) := by
  intro f data arg hmem
  rcases List.mem_append.mp hmem with hmem | hmem
  · exact ha f data arg hmem
  · exact hb f data arg hmem

theorem headsOnly_headCalls (hdata : ClientHeader data) : HeadsOnly cfg (cfg.headCalls data) := by
  intro f data' arg hmem
  unfold Config.headCalls at hmem
  split at hmem
  · rename_i f' arg' hhead
    cases List.mem_singleton.mp hmem
    exact ⟨hhead, nofun, hdata⟩
  · cases hmem

theorem headsOnly_writeCall (cfg : Config) (data : List Byte) :
    HeadsOnly cfg [cfg.writeCall data] := by
  intro f data' arg hmem
  cases List.mem_singleton.mp hmem

/-- What a thread has done when an iteration ends. -/
def StrFlow.log : StrFlow → List Event
  | .done _ v => v.log
  | .next _ v => v.log

theorem strFirstData_log (cfg : Config) (filelen data : List Byte) (l : StrLocals) (v : View) :
    (strFirstData cfg filelen data l v).log =
      v.log ++ cfg.headCalls (okHeader filelen) ++ [cfg.writeCall data] := by
  unfold strFirstData
  dsimp only
  split_ifs <;> rfl

theorem strBodyChunk_log (cfg : Config) (c : Chunk) (l : StrLocals) (v : View) :
    (strBodyChunk cfg c l v).log = v.log ++ [cfg.writeCall c.data] := by
  unfold strBodyChunk
  dsimp only
  split_ifs <;> rfl

theorem strRecvEnd_log (h : strRecvEnd e l v = .ok (ret, v')) : v'.log = v.log := by
  cases e with
  | error => cases h; rfl
  | close =>
    unfold strRecvEnd at h
    dsimp only at h
    cases hstatus : firstToken (ascii " ") (restToken (ascii " ") l.fullData) with
    | none => simp [hstatus] at h
    | some status =>
      simp only [hstatus] at h
      split_ifs at h <;> cases h <;> split <;> rfl

/-- The length that the client puts into the header is a token. -/
theorem strHeaderOk_headsOnly {s r : List Byte} (hr : behindLength s = some r)
    (hlog : HeadsOnly cfg v.log) : HeadsOnly cfg (strHeaderOk cfg s l v).log := by
  obtain ⟨filelen, hcomplete⟩ := behindLength_eq_some hr
  obtain ⟨t, u, htok, ht, -⟩ := afterTokens_cons_some.mp hcomplete
  obtain rfl : t = filelen := by simpa using ht
  obtain ⟨-, -, -, hclean, -⟩ := token_eq_some_iff.mp htok
  rw [strHeaderOk_complete hcomplete]
  split
  · exact hlog
  · rw [strFirstData_log]
    exact (hlog.append (headsOnly_headCalls (.ok t fun h32 => hclean 32 h32 (by decide)))).append
      (headsOnly_writeCall cfg _)

theorem strParseHeader_headsOnly (h : strParseHeader cfg l v = .ok flow)
    (hlog : HeadsOnly cfg v.log) : HeadsOnly cfg flow.log := by
  have hcase := strParseHeader_case cfg l v
  rw [h] at hcase
  cases hcase with
  | ok r _ hbody => exact strHeaderOk_headsOnly (bodyStart_eq_some_iff.mp hbody).2.2 hlog
  | fileNotFound _ _ _ => exact hlog.append (headsOnly_headCalls .fileNotFound)
  | error _ _ _ => exact hlog.append (headsOnly_headCalls .error)
  | short _ | otherScheme _ _ _ _ | noWord _ _ | okWaits _ _ _ _ | otherStatus _ _ _ _ _ _ _ =>
    exact hlog

theorem perform_headsOnly (hlog : HeadsOnly cfg v.log) (h : perform cfg e cs l v = .ok (ret, v')) :
    HeadsOnly cfg v'.log := by
  induction cs generalizing l v with
  | nil => rwa [strRecvEnd_log h]
  | cons c cs ih =>
    have hnext : ∀ flow : StrFlow, HeadsOnly cfg flow.log →
        flow.continue cfg e cs = .ok (ret, v') → HeadsOnly cfg v'.log := by
      intro flow hflow hcont
      cases flow with
      | done ret v => cases hcont; exact hflow
      | next l v => exact ih hflow hcont
    cases hl : l.headercheck with
    | true =>
      rw [perform] at h
      dsimp only at h
      rw [if_pos hl] at h
      refine hnext (strBodyChunk cfg c _ _) ?_ h
      rw [strBodyChunk_log]
      exact hlog.append (headsOnly_writeCall cfg _)
    | false =>
      obtain ⟨new, flow, -, hparse, hcont⟩ := perform_header_inv hl h
      exact hnext flow (strParseHeader_headsOnly hparse hlog) hcont

/-- Behind the header there are calls of the write callback only. -/
theorem perform_body_log (hl : l.headercheck = true) (h : perform cfg e cs l v = .ok (ret, v')) :
    ∃ datas : List (List Byte), v'.log = v.log ++ datas.map cfg.writeCall := by
  induction cs generalizing l v with
  | nil => exact ⟨[], by rw [strRecvEnd_log h, List.map_nil, List.append_nil]⟩
  | cons c cs ih =>
    rw [perform_body_cons hl] at h
    split_ifs at h
    · cases h
      exact ⟨[c.data], rfl⟩
    · obtain ⟨datas, hdatas⟩ := ih (l := l.count c.data.length) hl h
      exact ⟨c.data :: datas, by rw [hdatas, View.afterBody, List.append_assoc]; rfl⟩

end Heads

/-! ## The header phase of a run that ends well -/

section Inversion

variable {cfg : Config} {e : Ending} {n k : ℕ} {pre cs post : List Chunk} {c : Chunk}
  {l : StrLocals} {v : View} {res : ℤ × View} {new b : List Byte}

/-- The string received so far fits into the memory for the counted bytes. -/
theorem header_fits (hl : l.headercheck = false) (hnew : cstr (recvBuf c) 0 = .ok new)
    (h : perform cfg e (c :: cs) l v = .ok res) :
    l.fullData.length + new.length ≤ sizeT (l.bytesReceivedTotal + c.data.length) := by
  by_contra hlong
  rw [perform_header_long hl hnew (Nat.lt_of_not_le hlong)] at h
  cases h

/-- A chunk of the header leaves room in `buf`, and does not make the count wrap around. -/
theorem header_chunk_fits (h : perform cfg e (c :: cs) (waiting n k) v = .ok res)
    (hk : k + c.data.length ≤ (Gfserver.okHeader n).length)
    (hc : c.data = ((Gfserver.okHeader n).drop k).take c.data.length) :
    c.data.length < BUFSIZE ∧ k + c.data.length < 2 ^ 64 := by
  have h0 : 0 ∉ c.data := by
    rw [hc]
    exact fun h => zero_not_mem_okHeader n (List.mem_of_mem_drop (List.mem_of_mem_take h))
  have hfull : c.data.length < BUFSIZE := by
    by_contra hfull
    rw [perform_header_unterminated rfl (by simp [hfull, h0])] at h
    cases h
  have hfits := header_fits (l := waiting n k) rfl (cstr_recvBuf_clean h0 hfull) h
  have hlt := sizeT_lt ((waiting n k).bytesReceivedTotal + c.data.length)
  simp only [waiting, List.length_take] at hfits hlt
  exact ⟨hfull, by omega⟩

theorem header_prefix_fits (h : perform cfg e (pre ++ cs) (waiting n k) v = .ok res)
    (hlt : k < 2 ^ 64) (hk : k + (received pre).length + 4 ≤ (Gfserver.okHeader n).length)
    (hpre : received pre = ((Gfserver.okHeader n).drop k).take (received pre).length) :
    (∀ d ∈ pre, d.data.length < BUFSIZE) ∧ k + (received pre).length < 2 ^ 64 := by
  induction pre generalizing k v with
  | nil => exact ⟨by simp, hlt⟩
  | cons c pre ih =>
    rw [received_cons, List.length_append] at hk hpre
    rw [List.take_add] at hpre
    obtain ⟨hc, hrest⟩ := List.append_inj hpre (by simp; omega)
    rw [List.drop_drop] at hrest
    rw [List.cons_append] at h
    obtain ⟨hfull, hlt'⟩ := header_chunk_fits h (by omega) hc
    obtain ⟨s, hs⟩ := strParseHeader_prefix (l := reading (Gfserver.okHeader n) (k + c.data.length))
      (v := { v with bytesreceived := k + c.data.length }) (by omega) rfl rfl
    have hchunk := @perform_reading_chunk cfg e _ k c (pre ++ cs) v (zero_not_mem_okHeader n) hfull
      hlt' hc
    rw [hs] at hchunk
    obtain ⟨hpre₁, hpre₂⟩ := ih (hchunk.symm.trans h) hlt' (by omega) hrest
    rw [received_cons, List.length_append, ← Nat.add_assoc]
    exact ⟨List.forall_mem_cons.mpr ⟨hfull, hpre₁⟩, hpre₂⟩

/-- The chunk that brings the end of the header. -/
theorem header_whole_fits (h : perform cfg e (c :: post) (waiting n k) v = .ok res)
    (hlt : k < 2 ^ 64) (hk : k + 4 ≤ (Gfserver.okHeader n).length)
    (hc : c.data = (Gfserver.okHeader n).drop k ++ b) :
    (c.data.length < BUFSIZE ∨ 0 ∈ c.data) ∧ k + c.data.length < 2 ^ 64 := by
  by_cases hclean : c.data.length < BUFSIZE ∨ 0 ∈ c.data
  swap
  · rw [perform_header_unterminated rfl hclean] at h
    cases h
  have hcle := c.le
  have hfits := header_fits (l := waiting n k) rfl (cstr_recvBuf_whole (zero_not_mem_okHeader n) hc hclean) h
  simp only [waiting, List.length_take, List.length_append, List.length_drop] at hfits
  refine ⟨hclean, ?_⟩
  -- a count that wraps around is less than 4096, and the header is longer than 2^64 bytes
  unfold sizeT at hfits
  unfold BUFSIZE at hcle
  omega

end Inversion

/-! ## Responses with the header of the server -/

/-- The header callback is called once, with `header`, before any call of the write callback. -/
def CalledOnce (f : FnPtr) (arg : Option VoidPtr) (header : List Byte) (log : List Event) : Prop :=
  ∃ a b, log = a ++ .head f header arg :: b ∧ heads a = [] ∧ writes a = [] ∧ heads b = []

theorem CalledOnce.heads {f : FnPtr} {arg : Option VoidPtr} {header : List Byte} {log : List Event}
    (h : CalledOnce f arg header log) : heads log = [header] := by
  obtain ⟨a, b, rfl, ha, -, hb⟩ := h
  rw [heads_append, ha, List.nil_append]
  exact congrArg (header :: ·) hb

/-- The first chunk that goes beyond the length and the space of the header reaches its end and
    brings, in front of its first NUL, a byte of the body that is not LF; up to there each chunk
    ends in `buf`, and fewer than 2^64 bytes are counted. -/
def CalledCut (n : ℕ) (chunks : List Chunk) : Prop :=
  ∃ pre c post, chunks = pre ++ c :: post ∧
    (received pre).length + 4 ≤ (Gfserver.okHeader n).length ∧
    (Gfserver.okHeader n).length ≤ (received pre).length + c.data.length ∧
    (∀ d ∈ pre, d.data.length < BUFSIZE) ∧ (c.data.length < BUFSIZE ∨ 0 ∈ c.data) ∧
    (received pre).length + c.data.length < 2 ^ 64 ∧
    ∃ x ∈ (c.data.drop ((Gfserver.okHeader n).length - (received pre).length)).takeWhile (· ≠ 0),
      x ≠ 10

theorem exists_line_iff {s : List Byte} : (∃ x ∈ s, x ≠ 10) ↔ firstToken (ascii "\n") s ≠ none := by
  rw [ne_eq, firstToken_eq_none, token_eq_none_iff]
  simp [ascii]

section Called

variable {cfg : Config} {e : Ending} {n k : ℕ} {c : Chunk} {post chunks : List Chunk} {v : View}
  {b B : List Byte} {f : FnPtr} {arg : VoidPtr} {ret : ℤ} {v' : View} {rs : Recvs} {h : Handle}

/-- A run behind the header does not call the header callback. -/
theorem body_not_called {l : StrLocals} (hrun : perform cfg e post l v = .ok (ret, v'))
    (hl : l.headercheck = true) (hv : heads v.log = []) : heads v'.log = [] := by
  obtain ⟨datas, hdatas⟩ := perform_body_log hl hrun
  rw [hdatas, heads_append, hv, heads_map]
  rfl

/-- The chunk that brings the end of the header also brings a line of the body. -/
theorem called_of_line (hlt : k + c.data.length < 2 ^ 64)
    (hk : k + 4 ≤ (Gfserver.okHeader n).length) (hc : c.data = (Gfserver.okHeader n).drop k ++ b)
    (hclean : c.data.length < BUFSIZE ∨ 0 ∈ c.data)
    (hline : ∃ x ∈ b.takeWhile (· ≠ 0), x ≠ 10) (hhead : cfg.head = some (f, some arg))
    (hv : heads v.log = [] ∧ writes v.log = []) :
    ∃ ret v', perform cfg e (c :: post) (waiting n k) v = .ok (ret, v') ∧
      CalledOnce f (some arg) (Gfserver.okHeader n) v'.log := by
  obtain ⟨data, hdata⟩ := Option.ne_none_iff_exists'.mp (exists_line_iff.mp hline)
  rw [perform_whole hlt hk hc hclean, hdata]
  dsimp only
  generalize hl : (⟨Gfserver.okHeader n ++ b.takeWhile (· ≠ 0), true, k + c.data.length, 0⟩ :
    StrLocals) = l
  have hlog := strFirstData_log cfg (decimal n) data l (v.accepted n (k + c.data.length))
  have hcalls : cfg.headCalls (okHeader (decimal n)) =
      [.head f (Gfserver.okHeader n) (some arg)] := by
    simp only [Config.headCalls, hhead]
    rfl
  rw [hcalls, List.append_assoc, List.singleton_append] at hlog
  unfold strFirstData at hlog ⊢
  dsimp only at hlog ⊢
  split_ifs at hlog ⊢
  · exact ⟨_, _, rfl, v.log, _, hlog, hv.1, hv.2, rfl⟩
  · obtain ⟨⟨ret, v'⟩, hres⟩ := @body_survives cfg e post
      { l with bytesReceivedFILE := sizeT (l.bytesReceivedFILE + data.length) } _
      (by rw [← hl]) (by rw [← hl]; exact closes_okHeader _)
    obtain ⟨datas, hdatas⟩ := perform_body_log (by rw [← hl]) hres
    refine ⟨ret, v', hres, v.log, cfg.writeCall data :: datas.map cfg.writeCall, ?_, hv.1, hv.2, ?_⟩
    · rw [hdatas]
      exact (congrArg (· ++ datas.map cfg.writeCall) hlog).trans (List.append_assoc ..)
    · exact heads_map cfg (data :: datas)

/-- The request is performed, and the header callback is called as promised. -/
theorem ok_called_iff (hs : received rs.chunks = Gfserver.okHeader n ++ B)
    (hhead : cfg.head = some (f, some arg)) :
    (∃ ret v, performRequest cfg rs ⟨0, 0⟩ = .ok (ret, v) ∧
      CalledOnce f (some arg) (Gfserver.okHeader n) v.log) ↔ CalledCut n rs.chunks := by
  obtain ⟨chunks, e⟩ := rs
  have hlen := okHeader_length n
  constructor
  · rintro ⟨ret, v, hrun, hcalled⟩
    have hheads : heads v.log ≠ [] := by
      rw [hcalled.heads]
      exact nofun
    dsimp only at hs
    obtain ⟨pre, c, post, rfl, hk, hreach⟩ := @exists_crossing chunks
      ((Gfserver.okHeader n).length - 4) (by rw [hs, List.length_append]; omega)
    have hpre := (split_stream hs (by omega)).1
    obtain ⟨hfull, hlt⟩ := header_prefix_fits (n := n) (k := 0) hrun (by norm_num) (by omega)
      (by simpa using hpre)
    rw [Nat.zero_add] at hlt
    obtain ⟨v₁, hv₁, hlog, -⟩ := perform_prefix (n := n) (k := 0) cfg e pre (c :: post)
      (View.initial ⟨0, 0⟩ cfg.path) hfull (by omega) (by omega) (by simpa using hpre)
    have hlog₁ : heads v₁.log = [] := by rw [hlog]; rfl
    rw [Nat.zero_add] at hv₁
    have hrun₁ := hv₁.symm.trans hrun
    rcases Nat.lt_or_ge ((received pre).length + c.data.length) (Gfserver.okHeader n).length with
      hcut | hwhole
    · -- the end of the header is still to come, and will be taken for the body
      have hc := split_cut hs hcut.le
      obtain ⟨hcfull, hclt⟩ := header_chunk_fits hrun₁ hcut.le hc
      rw [perform_cut hcfull hclt (by omega) hcut hc] at hrun₁
      exact absurd (body_not_called hrun₁ rfl hlog₁) hheads
    · obtain ⟨b, hc, -, hb⟩ := split_whole hs (by omega) hwhole
      obtain ⟨hclean, hclt⟩ := header_whole_fits hrun₁ hlt (by omega) hc
      refine ⟨pre, c, post, rfl, by omega, hwhole, hfull, hclean, hclt, ?_⟩
      rw [← hb, exists_line_iff]
      intro hnone
      rw [perform_whole hclt (by omega) hc hclean, hnone] at hrun₁
      dsimp only [StrFlow.continue] at hrun₁
      exact absurd (body_not_called hrun₁ rfl hlog₁) hheads
  · rintro ⟨pre, c, post, rfl, hk, hreach, hfull, hclean, hlt, hline⟩
    have hpre := (split_stream hs (by omega)).1
    obtain ⟨b, hc, -, hb⟩ := split_whole hs (by omega) hreach
    rw [← hb] at hline
    obtain ⟨v₁, hv₁, hlog, -⟩ := perform_prefix (n := n) (k := 0) cfg e pre (c :: post)
      (View.initial ⟨0, 0⟩ cfg.path) hfull (by omega) (by omega) (by simpa using hpre)
    rw [Nat.zero_add] at hv₁
    obtain ⟨ret, v, hrun, hcalled⟩ := @called_of_line cfg e n _ c post v₁ b f arg hlt hk hc hclean
      hline hhead (by rw [hlog]; exact ⟨rfl, rfl⟩)
    exact ⟨ret, v, hv₁.trans hrun, hcalled⟩

end Called

/-! ## Every well-formed response -/

/-- A well-formed response, split behind its header. -/
inductive Response : List Byte → List Byte → Prop
  | ok (sp content : List Byte) : (∀ a ∈ sp, a = 32) → Response
      (ascii "GETFILE OK " ++ decimal content.length ++ sp ++ ascii "\r\n\r\n") content
  | fileNotFound (sp : List Byte) : (∀ a ∈ sp, a = 32) →
      Response (ascii "GETFILE FILE_NOT_FOUND" ++ sp ++ ascii "\r\n\r\n") []
  | error (sp : List Byte) : (∀ a ∈ sp, a = 32) →
      Response (ascii "GETFILE ERROR" ++ sp ++ ascii "\r\n\r\n") []

theorem wellFormed_iff {r : List Byte} :
    Gfserver.WellFormed r ↔ ∃ header content, r = header ++ content ∧ Response header content := by
  constructor
  · intro h
    cases h with
    | ok sp content hsp => exact ⟨_, content, rfl, .ok sp content hsp⟩
    | fileNotFound sp hsp => exact ⟨_, [], (List.append_nil _).symm, .fileNotFound sp hsp⟩
    | error sp hsp => exact ⟨_, [], (List.append_nil _).symm, .error sp hsp⟩
  · rintro ⟨header, content, rfl, h⟩
    cases h with
    | ok sp content hsp => exact .ok sp content hsp
    | fileNotFound sp hsp => rw [List.append_nil]; exact .fileNotFound sp hsp
    | error sp hsp => rw [List.append_nil]; exact .error sp hsp

theorem clientHeader_iff {data : List Byte} : ClientHeader data ↔
    (∃ filelen, 32 ∉ filelen ∧ data = okHeader filelen) ∨
      data = ascii "GETFILE FILE_NOT_FOUND" ∨ data = ascii "GETFILE ERROR" := by
  constructor
  · rintro (⟨filelen, h⟩ | - | -)
    · exact .inl ⟨filelen, h, rfl⟩
    · exact .inr (.inl rfl)
    · exact .inr (.inr rfl)
  · rintro (⟨filelen, h, rfl⟩ | rfl | rfl)
    · exact .ok filelen h
    · exact .fileNotFound
    · exact .error

/-- Two headers whose first nine bytes are different. -/
theorem header_ne {a b : List Byte} (x y : List Byte) (ha : 9 ≤ a.length) (hb : 9 ≤ b.length)
    (hne : a.take 9 ≠ b.take 9) : a ++ x ≠ b ++ y := by
  intro heq
  have htake := congrArg (List.take 9) heq
  rw [List.take_append_of_le_length ha, List.take_append_of_le_length hb] at htake
  exact hne htake

/-- The length and one space, as the client writes them. -/
theorem spaces_eq_one {n : ℕ} {sp filelen : List Byte} (hsp : ∀ a ∈ sp, a = 32)
    (hfilelen : 32 ∉ filelen) (h : decimal n ++ sp = filelen ++ [32]) : sp = [32] := by
  have hdec : (32 : Byte) ∉ decimal n := fun hmem => (decimal_not_mem hmem).1 (by decide)
  have hall : sp = List.replicate sp.length 32 := List.eq_replicate_of_mem hsp
  have hcount := congrArg (List.count 32) h
  rw [List.count_append, List.count_append, List.count_eq_zero_of_not_mem hdec,
    List.count_eq_zero_of_not_mem hfilelen, hall, List.count_replicate_self] at hcount
  have hlen : sp.length = 1 := by simpa using hcount
  rw [hall, hlen]
  rfl

/-- The only header that client and server write in the same way. -/
theorem Response.clientHeader {header content : List Byte} (h : Response header content)
    (hclient : ClientHeader header) : header = Gfserver.okHeader content.length := by
  cases h with
  | ok sp content hsp =>
    rw [List.append_assoc, List.append_assoc] at hclient ⊢
    obtain ⟨filelen, hfilelen, heq⟩ | heq | heq := clientHeader_iff.mp hclient
    · have hcrlf : ascii " \r\n\r\n" = [32] ++ ascii "\r\n\r\n" := by decide
      rw [okHeader, List.append_assoc, hcrlf] at heq
      have hlength := List.append_cancel_left heq
      rw [← List.append_assoc, ← List.append_assoc] at hlength
      rw [spaces_eq_one hsp hfilelen (List.append_cancel_right hlength), Gfserver.okHeader, hcrlf,
        List.append_assoc]
    · exact absurd (heq.trans (List.append_nil _).symm)
        (header_ne _ _ (by decide) (by decide) (by decide))
    · exact absurd (heq.trans (List.append_nil _).symm)
        (header_ne _ _ (by decide) (by decide) (by decide))
  | fileNotFound sp hsp =>
    obtain ⟨filelen, -, heq⟩ | heq | heq := clientHeader_iff.mp hclient
    · rw [okHeader, List.append_assoc, List.append_assoc] at heq
      exact absurd heq (header_ne _ _ (by decide) (by decide) (by decide))
    · have hlen := congrArg List.length heq
      have hcrlf : (ascii "\r\n\r\n").length = 4 := by decide
      simp only [List.length_append, hcrlf] at hlen
      omega
    · rw [List.append_assoc] at heq
      exact absurd (heq.trans (List.append_nil _).symm)
        (header_ne _ _ (by decide) (by decide) (by decide))
  | error sp hsp =>
    obtain ⟨filelen, -, heq⟩ | heq | heq := clientHeader_iff.mp hclient
    · rw [okHeader, List.append_assoc, List.append_assoc] at heq
      exact absurd heq (header_ne _ _ (by decide) (by decide) (by decide))
    · rw [List.append_assoc] at heq
      exact absurd (heq.trans (List.append_nil _).symm)
        (header_ne _ _ (by decide) (by decide) (by decide))
    · have hlen := congrArg List.length heq
      have hcrlf : (ascii "\r\n\r\n").length = 4 := by decide
      simp only [List.length_append, hcrlf] at hlen
      omega

/-- The request ends, and the header callback has been called as promised. -/
def HeaderCalled (f : FnPtr) (arg : Option VoidPtr) (header : List Byte)
    (res : Except Fault (Outcome × List Event)) : Prop :=
  ∃ o log, res = .ok (o, log) ∧ CalledOnce f arg header log

theorem headerCalled_request {f : FnPtr} {arg : Option VoidPtr} {header : List Byte}
    {junk : Gfcrequest} {cfg : Config} {rs : Recvs} :
    HeaderCalled f arg header (request junk cfg rs) ↔ ∃ ret v,
      performRequest cfg rs ⟨0, 0⟩ = .ok (ret, v) ∧ CalledOnce f arg header v.log := by
  unfold HeaderCalled
  rw [request_eq]
  constructor
  · rintro ⟨o, log, h, hcalled⟩
    cases hrun : performRequest cfg rs ⟨0, 0⟩ with
    | error fault => rw [hrun] at h; cases h
    | ok res =>
      rw [hrun] at h
      cases h
      exact ⟨res.1, res.2, rfl, hcalled⟩
  · rintro ⟨ret, v, hrun, hcalled⟩
    exact ⟨v.outcome ret, v.log, by rw [hrun]; rfl, hcalled⟩

/-- The header callback is called as promised exactly if it has an argument, the header of the
    response is the one that the client puts together, and the response is cut suitably. -/
theorem header_called_iff (header content : List Byte) (rs : Recvs) (junk : Gfcrequest)
    (cfg : Config) (f : FnPtr) (arg : Option VoidPtr) (hresponse : Response header content)
    (hs : received rs.chunks = header ++ content) (hhead : cfg.head = some (f, arg)) :
    HeaderCalled f arg header (request junk cfg rs) ↔ arg ≠ none ∧
      header = Gfserver.okHeader content.length ∧ CalledCut content.length rs.chunks := by
  rw [headerCalled_request]
  constructor
  · rintro ⟨ret, v, hrun, hcalled⟩
    have hinitial : HeadsOnly cfg (View.initial ⟨0, 0⟩ cfg.path).log := by
      intro f data arg hmem
      simp [View.initial] at hmem
    have hmem : Event.head f header arg ∈ v.log := by
      obtain ⟨a, b, hlog, -⟩ := hcalled
      rw [hlog]
      exact List.mem_append_right a List.mem_cons_self
    obtain ⟨-, harg, hclient⟩ := perform_headsOnly hinitial hrun f header arg hmem
    obtain rfl := hresponse.clientHeader hclient
    obtain ⟨arg, rfl⟩ := Option.ne_none_iff_exists'.mp harg
    exact ⟨harg, rfl, (ok_called_iff hs hhead).mp ⟨ret, v, hrun, hcalled⟩⟩
  · rintro ⟨harg, rfl, hcut⟩
    obtain ⟨arg, rfl⟩ := Option.ne_none_iff_exists'.mp harg
    exact (ok_called_iff hs hhead).mpr hcut

/-- A request with a header callback. -/
def headConfig : Config := ⟨ascii "localhost", ascii "/a", 8080, some (7, some 9), writecb, some 2⟩

/-- The header and the file "hi" in one chunk. -/
theorem header_called_hi :
    HeaderCalled 7 (some 9) (ascii "GETFILE OK " ++ decimal 2 ++ [32] ++ ascii "\r\n\r\n")
      (request .zeroed headConfig
        ⟨[⟨ascii "GETFILE OK 2 \r\n\r\nhi", by decide +kernel, by decide +kernel⟩], .close⟩) :=
  (header_called_iff _ (ascii "hi") _ .zeroed headConfig 7 (some 9)
    (.ok [32] (ascii "hi") (by simp)) (by decide +kernel) rfl).mpr
    ⟨by decide, by decide +kernel, [], ⟨ascii "GETFILE OK 2 \r\n\r\nhi", by decide +kernel,
      by decide +kernel⟩, [], rfl, by decide +kernel, by decide +kernel, by simp,
      by decide +kernel, by decide +kernel, by decide +kernel⟩

/-- The header in a chunk of its own: the callback is not called. -/
theorem header_not_called :
    ¬ ∀ (header content : List Byte) (rs : Recvs) (junk : Gfcrequest) (cfg : Config) (f : FnPtr)
      (arg : Option VoidPtr), Response header content →
      received rs.chunks = header ++ content → cfg.head = some (f, arg) →
        HeaderCalled f arg header (request junk cfg rs) := by
  intro h
  let rs : Recvs := ⟨[⟨ascii "GETFILE OK 2 \r\n\r\n", by decide +kernel, by decide +kernel⟩,
    ⟨ascii "hi", by decide, by decide⟩], .close⟩
  obtain ⟨o, log, hres, hcalled⟩ := h _ (ascii "hi") rs .zeroed headConfig 7 (some 9)
    (.ok [32] (ascii "hi") (by simp)) (by decide +kernel) rfl
  have hnone : (request .zeroed headConfig rs).map (fun r => heads r.2) = .ok [] := by
    decide +kernel
  rw [hres] at hnone
  rw [Except.map, hcalled.heads] at hnone
  cases hnone

end IntroOS.Gfclient
