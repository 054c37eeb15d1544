import IntroOS.Gfclient.Model

/-!
# Strings in the memory of the client

What the operations of the model do to the C strings that pointers refer to.

* `execStrtok_spec`: `strtok` from a pointer to the string `s` finds `firstToken`, saves a
  pointer to `restToken`, and keeps the strings that are settled, that is, in front of the
  search position or in another block.
* `exec_malloc`, `str_push_new`, `str_push_old`: a new block holds its string and leaves
  the others alone.
-/

namespace IntroOS.Gfclient

open CString Concurrency

/-- The C string at a pointer. -/
def Store.str (st : Store) (p : Ptr) : Except Fault (List Byte) :=
  match st.block p with
  | none => .error .wildPointer
  | some b => cstr b p.off

/-- Two pointers into the same block. -/
def SameBlock (p q : Ptr) : Prop := p.tid = q.tid ∧ p.blk = q.blk

/-- The string `s` at `p`, where a call of `strtok` that starts at `q` does not change it. -/
def Settled (st : Store) (q p : Ptr) (s : List Byte) : Prop :=
  st.str p = .ok s ∧ (¬ SameBlock p q ∨ p.off + s.length ≤ q.off)

/-- The pointer `o` that `strtok` has returned refers to the token `tok`. -/
def IsToken (st : Store) (q : Ptr) : Option Ptr → Option (List Byte) → Prop
  | none, none => True
  | some p, some s => Settled st q p s
  | _, _ => False

/-- The two states have the same requests, events and variable `gfr`. -/
def Untouched (st st' : Store) : Prop :=
  st'.reqs = st.reqs ∧ st'.log = st.log ∧ st'.gfr = st.gfr

theorem Store.str_eq_ok {st : Store} {p : Ptr} {s : List Byte} (h : st.str p = .ok s) :
    ∃ b, st.block p = some b ∧ cstr b p.off = .ok s := by
  unfold Store.str at h
  cases hb : st.block p with
  | none => rw [hb] at h; cases h
  | some b => rw [hb] at h; exact ⟨b, rfl, h⟩

theorem Store.str_of_block {st : Store} {p : Ptr} {b : List Byte} (h : st.block p = some b) :
    st.str p = cstr b p.off := by
  simp [Store.str, h]

theorem exec_string {t : Tid} {st : Store} {p : Ptr} {s : List Byte} (h : st.str p = .ok s) :
    exec t (.string (some p)) st = .ok (s, st) := by
  obtain ⟨b, hb, hs⟩ := Store.str_eq_ok h
  simp [exec, hb, hs, Except.map]

theorem exec_bytes {t : Tid} {st : Store} {p : Ptr} {s : List Byte} (h : st.str p = .ok s) :
    exec t (.bytes (some p) s.length) st = .ok (s, st) := by
  obtain ⟨b, hb, hs⟩ := Store.str_eq_ok h
  have hle := cstr_length_le hs
  obtain ⟨-, m, hm⟩ := cstr_eq_ok_iff.mp hs
  simp only [exec, hb]
  rw [if_pos (by omega), hm, List.take_left]

/-! ## `malloc` -/

/-- The state after thread `t` has allocated `block`. -/
def Store.push (st : Store) (t : Tid) (block : List Byte) : Store :=
  { st with mem := Function.update st.mem t (st.mem t ++ [block]) }

/-- The pointer that `malloc` returns to thread `t`. -/
def Store.newPtr (st : Store) (t : Tid) : Ptr := ⟨t, (st.mem t).length, 0⟩

theorem exec_malloc (t : Tid) (block : List Byte) (st : Store) :
    exec t (.malloc block) st = .ok (st.newPtr t, st.push t block) := rfl

theorem str_push_new {st : Store} {t : Tid} {s : List Byte} (h : 0 ∉ s) :
    (st.push t (s ++ [0])).str (st.newPtr t) = .ok s := by
  have hb : (st.push t (s ++ [0])).block (st.newPtr t) = some (s ++ [0]) := by
    simp [Store.block, Store.push, Store.newPtr]
  rw [Store.str_of_block hb]
  exact cstr_eq_ok_iff.mpr ⟨h, [], rfl⟩

/-- A string that is there stays, and it is not in the new block. -/
theorem str_push_old {st : Store} {s : List Byte} {p : Ptr} (t : Tid) (block : List Byte)
    (h : st.str p = .ok s) : (st.push t block).str p = .ok s ∧
      ¬ SameBlock p (st.newPtr t) := by
  obtain ⟨b, hb, hs⟩ := Store.str_eq_ok h
  have hlt : p.blk < (st.mem p.tid).length := (List.getElem?_eq_some_iff.mp hb).1
  constructor
  · rw [Store.str_of_block (b := b), hs]
    by_cases hp : p.tid = t
    · subst hp
      simp only [Store.block, Store.push, Function.update_self]
      rwa [List.getElem?_append_left hlt]
    · simpa [Store.block, Store.push, Function.update_of_ne hp] using hb
  · rintro ⟨rfl, hblk⟩
    simp only [Store.newPtr] at hblk
    omega

theorem untouched_push (st : Store) (t : Tid) (block : List Byte) :
    Untouched st (st.push t block) := ⟨rfl, rfl, rfl⟩

/-! ## `strtok` -/

/-- The state `st'` after a call of `strtok` from `p` that has returned `o` and saved `q`. -/
structure AfterStrtok (st : Store) (p : Ptr) (st' : Store) (o : Option Ptr) (q : Ptr)
    (d s : List Byte) : Prop where
  saved : st'.saved = some q
  rest : st'.str q = .ok (restToken d s)
  tok : IsToken st' q o (firstToken d s)
  untouched : Untouched st st'
  block : SameBlock q p
  tokBlock : ∀ p' ∈ o, SameBlock p' p
  settled : ∀ p' s', Settled st p p' s' → Settled st' q p' s'

theorem execStrtok_spec {st : Store} {p : Ptr} {s : List Byte} (d : List Byte)
    (h : st.str p = .ok s) :
    ∃ o q st', execStrtok p d st = .ok (o, st') ∧ AfterStrtok st p st' o q d s := by
  obtain ⟨b, hb, hs⟩ := Store.str_eq_ok h
  obtain ⟨o, k, b', hstrtok, -, hik, hrest, htok⟩ := strtokAt_refines (d := d) hs
  have hlt : p.blk < (st.mem p.tid).length := (List.getElem?_eq_some_iff.mp hb).1
  set st' : Store := { st with
    mem := Function.update st.mem p.tid ((st.mem p.tid).set p.blk b')
    saved := some { p with off := k } } with hst'
  have hblock : ∀ p' : Ptr, SameBlock p' p → st'.block p' = some b' := by
    rintro p' ⟨h1, h2⟩
    simp [Store.block, hst', h1, h2, hlt]
  refine ⟨o.map fun j => { p with off := j }, { p with off := k }, st', ?_, rfl, ?_, ?_,
    ⟨rfl, rfl, rfl⟩, ⟨rfl, rfl⟩, ?_, ?_⟩
  · simp [execStrtok, hb, hstrtok, Except.map, hst']
  · exact (Store.str_of_block (hblock ⟨p.tid, p.blk, k⟩ ⟨rfl, rfl⟩)).trans hrest
  · cases o with
    | none => cases hf : firstToken d s <;> simp [hf, IsToken] at htok ⊢
    | some j =>
      cases hf : firstToken d s with
      | none => simp [hf] at htok
      | some tok =>
        rw [hf] at htok
        exact ⟨(Store.str_of_block (hblock ⟨p.tid, p.blk, j⟩ ⟨rfl, rfl⟩)).trans htok.1,
          Or.inr htok.2⟩
  · intro p' hp'
    obtain ⟨j, -, rfl⟩ := Option.map_eq_some_iff.mp hp'
    exact ⟨rfl, rfl⟩
  · rintro p' s' ⟨hs', hp'⟩
    obtain ⟨b₁, hb₁, hs₁⟩ := Store.str_eq_ok hs'
    by_cases hsame : SameBlock p' p
    · have hoff : p'.off + s'.length ≤ p.off := hp'.resolve_left (not_not.mpr hsame)
      obtain rfl : b₁ = b := by
        have : st.block p' = st.block p := by simp [Store.block, hsame.1, hsame.2]
        rw [hb₁, hb] at this
        exact Option.some.inj this
      refine ⟨?_, Or.inr (by dsimp only; omega)⟩
      rw [Store.str_of_block (hblock p' hsame)]
      exact strtokAt_keeps hstrtok hs₁ hoff
    · refine ⟨?_, Or.inl hsame⟩
      rw [Store.str_of_block (b := b₁), hs₁]
      by_cases h1 : p'.tid = p.tid
      · have h2 : p.blk ≠ p'.blk := fun h => hsame ⟨h1, h.symm⟩
        rw [Store.block, h1] at hb₁
        simp only [Store.block, hst', h1, Function.update_self]
        rwa [List.getElem?_set_ne h2]
      · simpa [Store.block, hst', Function.update_of_ne h1] using hb₁

/-- `strtok` with an argument, or without one from the position saved. -/
theorem exec_strtok {t : Tid} {st : Store} {o : Option Ptr} {p : Ptr} (d : List Byte)
    (h : o.or st.saved = some p) : exec t (.strtok o d) st = execStrtok p d st := by
  cases o with
  | none =>
    simp only [Option.none_or] at h
    simp [exec, h]
  | some q =>
    simp only [Option.some_or, Option.some.injEq] at h
    simp [exec, h]

theorem IsToken.none {st : Store} {q : Ptr} {o : Option Ptr} (h : IsToken st q o none) :
    o = none := by
  cases o with
  | none => rfl
  | some p => exact h.elim

theorem IsToken.some {st : Store} {q : Ptr} {o : Option Ptr} {s : List Byte}
    (h : IsToken st q o (some s)) : ∃ p, o = some p ∧ Settled st q p s := by
  cases o with
  | none => exact h.elim
  | some p => exact ⟨p, rfl, h⟩

/-- A token that has been returned stays as it is during later calls. -/
theorem AfterStrtok.isToken {st st' : Store} {p q : Ptr} {o o' : Option Ptr} {d s : List Byte}
    {tok : Option (List Byte)} (h : AfterStrtok st p st' o q d s) (ht : IsToken st p o' tok) :
    IsToken st' q o' tok := by
  cases o' with
  | none =>
    cases tok with
    | none => exact ht
    | some s' => exact ht.elim
  | some p' =>
    cases tok with
    | none => exact ht.elim
    | some s' => exact h.settled p' s' ht

end IntroOS.Gfclient
