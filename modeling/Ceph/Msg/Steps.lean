/-
# What a step of the messenger changes

Most steps change one pipe, and one stream of one socket. `Net.setRank` and
`Net.modSock` say where to look, and each function of the model has one lemma that
says what it needs and what it leaves.
-/
import Ceph.Msg.SimpleMessenger

namespace Ceph
namespace Messenger

open List Option

variable {M : Type}

/-! ### Looking up -/

section lookup

variable {s : Net M} {i j : Side}

@[simp] theorem rank_setRank_self (r : Rank M) : (s.setRank i r).rank i = r := by
  exact Function.update_self ..

variable {r : Rank M}

theorem rank_setRank_of_ne (h : j ≠ i) : (s.setRank i r).rank j = s.rank j := by
  exact Function.update_of_ne h ..

theorem pipe_setRank (r : Rank M) (p : ℕ) : (s.setRank i r).pipe j p = if j = i then r.pipes[p]? else s.pipe j p := by
  by_cases h : j = i
  · rw [if_pos h, h, Net.pipe, rank_setRank_self]
  · rw [if_neg h, Net.pipe, rank_setRank_of_ne h, Net.pipe]

variable {p : ℕ} {x : Pipe M}

theorem lt_of_pipe (h : s.pipe i p = some x) : p < (s.rank i).pipes.length :=
  (List.getElem?_eq_some_iff.mp h).1

/-- Pipe `p` of `i` is `x`, and all others are as they were. -/
def Replaces (s s' : Net M) (i : Side) (p : ℕ) (x : Pipe M) : Prop :=
  ∀ j q, s'.pipe j q = if j = i ∧ q = p then some x else s.pipe j q

variable {y : Pipe M}

theorem replaces_setRank (h : s.pipe i p = some y)
    (hr : r.pipes = (s.rank i).pipes.set p x) : Replaces s (s.setRank i r) i p x := by
  intro j q
  rw [pipe_setRank, hr]
  by_cases hj : j = i
  · rw [if_pos hj]
    by_cases hq : q = p
    · rw [if_pos ⟨hj, hq⟩, hq, getElem?_set_self (lt_of_pipe h)]
    · rw [if_neg fun hjq => hq hjq.2, getElem?_set_ne (Ne.symm hq), hj]
      rfl
  · rw [if_neg hj, if_neg fun hjq => hj hjq.1]

theorem replaces_setPipe (h : s.pipe i p = some y) (x : Pipe M) :
    Replaces s (s.setPipe i p x) i p x :=
  replaces_setRank h rfl

theorem Replaces.cases {s' : Net M} (h : Replaces s s' i p x) {j : Side} {q : ℕ}
    (hy : s'.pipe j q = some y) : (j = i ∧ q = p ∧ y = x) ∨ s.pipe j q = some y := by
  rw [h j q] at hy
  by_cases hjq : j = i ∧ q = p
  · rw [if_pos hjq] at hy
    exact .inl ⟨hjq.1, hjq.2, (some.inj hy).symm⟩
  · rw [if_neg hjq] at hy
    exact .inr hy

end lookup

/-! ### Functions -/

/-- The reader is in the middle of a frame, or waits for one. -/
def Reader.awake : Reader M → Bool
  | .reading => true
  | .got _ => true
  | _ => false

/-- `s'` is `s` after a fault of a pipe that is `x`; if it gives up that is noted. -/
structure Faulted (s s' : Net M) (i : Side) (p : ℕ) (x : Pipe M) (onconnect late : Bool) : Prop where
  socks : s'.socks = s.socks
  other : ∀ j, j ≠ i → s'.rank j = s.rank j
  pipes : (s'.rank i).pipes = (s.rank i).pipes.set p (x.fault onconnect late)
  submitting : (s'.rank i).submitting = (s.rank i).submitting
  log : (s'.rank i).log = (s.rank i).log
  queue : (s'.rank i).queue = (s.rank i).queue
  remoteResets : (s'.rank i).remoteResets = (s.rank i).remoteResets
  asserts : (s'.rank i).asserts = (s.rank i).asserts
  rankPipe : late = false → (s'.rank i).rankPipe = (s.rank i).rankPipe

section functions

variable {s s' : Net M} {i : Side} {p : ℕ} {x : Pipe M}

variable {late onconnect : Bool}

theorem fault_cases (h : fault s i p x onconnect late = some s') :
    Faulted s s' i p x onconnect late := by
  have hother : ∀ r : Rank M, ∀ j, j ≠ i → (s.setRank i r).rank j = s.rank j := fun r j hj => rank_setRank_of_ne hj
  rw [fault] at h
  by_cases hg : x.givesUp late = true
  · rw [if_pos hg] at h
    obtain ⟨-, ⟨⟩⟩ := ite_none_right_eq_some.mp h
    refine ⟨rfl, hother _, ?_, ?_, ?_, ?_, ?_, ?_, fun hl => absurd hg (by simp [Pipe.givesUp, hl])⟩ <;>
      rw [rank_setRank_self]
  · rw [if_neg hg] at h
    cases h
    refine ⟨rfl, hother _, ?_, ?_, ?_, ?_, ?_, ?_, fun _ => ?_⟩ <;> rw [rank_setRank_self]

variable {y : Pipe M} {ok late : Bool}

theorem Faulted.replaces (h : Faulted s s' i p x onconnect late)
    (hy : s.pipe i p = some y) : Replaces s s' i p (x.fault onconnect late) := by
  intro j q
  by_cases hj : j = i
  · subst hj
    have hset := replaces_setRank hy (r := { s.rank j with pipes := (s.rank j).pipes.set p (x.fault onconnect late) })
      rfl j q
    rw [← hset, Net.pipe, h.pipes, pipe_setRank, if_pos rfl]
  · rw [Net.pipe, h.other j hj, if_neg fun hjq => hj hjq.1, Net.pipe]

/-- What a round of the writer's loop does to its pipe. -/
inductive WriterRound (x : Pipe M) : Pipe M → Prop
  | done : x.state = .closed → WriterRound x { x with writer := .done }
  | connect : x.state = .connecting ∨ (x.q ≠ [] ∧ x.state = .standby) →
      WriterRound x { x with state := .connecting, sd := none, writer := .dial x.connectSeq }
  | ack : x.state ≠ .closed → x.state ≠ .connecting → x.inSeqAcked < x.inSeq →
      WriterRound x { x with writer := .acking x.inSeq }
  | grab : x.state ≠ .closed → x.state ≠ .connecting → x.state ≠ .standby → x.q ≠ [] → WriterRound x x.grab

theorem writerLoop_cases (h : writerLoop s i p = some s') :
    ∃ x x', s.pipe i p = some x ∧ x.writer = .loop ∧ WriterRound x x' ∧ s' = s.setPipe i p x' := by
  obtain ⟨x, hx, h⟩ := bind_eq_some_iff.mp h
  cases hw : x.writer with
  | loop =>
    rw [hw] at h
    by_cases h1 : x.state = .closed
    · rw [if_pos h1] at h
      cases h
      exact ⟨x, _, hx, hw, .done h1, rfl⟩
    · rw [if_neg h1] at h
      by_cases h2 : x.state = .connecting ∨ (x.q ≠ [] ∧ x.state = .standby)
      · rw [if_pos h2] at h
        cases h
        exact ⟨x, _, hx, hw, .connect h2, rfl⟩
      · rw [if_neg h2] at h
        rw [not_or, not_and] at h2
        by_cases h3 : x.inSeqAcked < x.inSeq
        · rw [if_pos h3] at h
          cases h
          exact ⟨x, _, hx, hw, .ack h1 h2.1 h3, rfl⟩
        · rw [if_neg h3] at h
          obtain ⟨h4, ⟨⟩⟩ := ite_none_right_eq_some.mp h
          exact ⟨x, _, hx, hw, .grab h1 h2.1 (h2.2 h4) h4, rfl⟩
  | _ =>
    rw [hw] at h
    cases h

theorem dial_cases (h : dial s i p ok late = some s') :
    ∃ x cseq, s.pipe i p = some x ∧ x.writer = .dial cseq ∧
      ((s'.rank = (s.setPipe i p { x with writer := .wait s.socks.length }).rank ∧
          s'.socks = s.socks ++ [⟨i, p, none, ⟨[.hello cseq], false⟩, ⟨[], false⟩⟩]) ∨
        Faulted s s' i p { x with writer := .loop } false late) := by
  obtain ⟨x, hx, h⟩ := bind_eq_some_iff.mp h
  cases hw : x.writer with
  | dial cseq =>
    rw [hw] at h
    simp only at h
    refine ⟨x, cseq, hx, hw, ?_⟩
    by_cases hok : ok = true
    · rw [if_pos hok] at h
      cases h
      exact .inl ⟨rfl, rfl⟩
    · rw [if_neg hok] at h
      exact .inr (fault_cases h)
  | _ =>
    rw [hw] at h
    cases h

/-- What `connect()` does with the tag. -/
inductive TagRead (s : Net M) (i : Side) (p : ℕ) (x : Pipe M) (k : ℕ) (c : Sock M) (late : Bool) (s' : Net M) : Prop
  | lost : Faulted (s.modSock k (Sock.modIn i Stream.lose)) s' i p { x with writer := .loop } false late →
      TagRead s i p x k c late s'
  | race (ready : Bool) (rseq : ℕ) (rest : List (Frame M)) : c.bwd.frames = .tag ready rseq :: rest →
      x.state ≠ .connecting →
      Faulted (s.modSock k (Sock.modIn i Stream.tail)) s' i p { x with writer := .loop } (!ready) late →
      TagRead s i p x k c late s'
  | ready (rseq : ℕ) (rest : List (Frame M)) : c.bwd.frames = .tag true rseq :: rest → x.state = .connecting →
      s' = finishConnect (s.modSock k (Sock.modIn i Stream.tail)) i p x k rseq → TagRead s i p x k c late s'
  | reject (rseq : ℕ) (rest : List (Frame M)) : c.bwd.frames = .tag false rseq :: rest → x.state = .connecting →
      Faulted (s.modSock k (Sock.modIn i Stream.tail)) s' i p { x with writer := .loop, connectSeq := rseq } true late →
      TagRead s i p x k c late s'

theorem readTag_cases (h : readTag s i p ok late = some s') :
    ∃ x k c, s.pipe i p = some x ∧ x.writer = .wait k ∧ s.socks[k]? = some c ∧ TagRead s i p x k c late s' := by
  obtain ⟨x, hx, h⟩ := bind_eq_some_iff.mp h
  cases hw : x.writer with
  | wait k =>
    rw [hw] at h
    obtain ⟨c, hc, h⟩ := bind_eq_some_iff.mp h
    refine ⟨x, k, c, hx, hw, hc, ?_⟩
    by_cases hok : ok = true
    · rw [if_pos hok] at h
      cases hf : c.bwd.frames with
      | nil =>
        rw [hf] at h
        cases h
      | cons f rest =>
        rw [hf] at h
        cases f with
        | tag ready rseq =>
          simp only at h
          by_cases hst : x.state = .connecting
          · rw [if_neg (not_not.mpr hst)] at h
            cases ready with
            | true =>
              exact .ready rseq rest hf hst (some.inj h).symm
            | false =>
              exact .reject rseq rest hf hst (fault_cases h)
          · rw [if_pos hst] at h
            exact .race ready rseq rest hf hst (fault_cases h)
        | _ => cases h
    · rw [if_neg hok] at h
      exact .lost (fault_cases h)
  | _ =>
    rw [hw] at h
    cases h

/-- The frame that a writer is about to write, and where it is after that. -/
inductive Writes (x : Pipe M) : Frame M → Writer M → Prop
  | ack (seq : ℕ) : x.writer = .acking seq → Writes x (.ack seq) (.acked seq)
  | msg (seq : ℕ) (m : M) : x.writer = .sending seq m → Writes x (.msg seq m) .loop

/-- What comes of a write: the frame is on the socket, or the writer fails. -/
def Written (s s' : Net M) (i : Side) (p : ℕ) (x : Pipe M) (f : Frame M) (next : Writer M) (arrives late : Bool) : Prop :=
  (∃ k, x.sd = some k ∧ s' = (s.modSock k (Sock.modOut i (Stream.put f true arrives))).setPipe i p
    { x with writer := next }) ∨
  (x.sd = none ∧ Faulted s s' i p { x with writer := .loop } false late) ∨
  ∃ k, x.sd = some k ∧ Faulted (s.modSock k (Sock.modOut i (Stream.put f false arrives))) s' i p
    { x with writer := .loop } false late

theorem write_cases {ok arrives : Bool} (h : write s i p ok arrives late = some s') :
    ∃ x f next, s.pipe i p = some x ∧ Writes x f next ∧ Written s s' i p x f next arrives late := by
  obtain ⟨x, hx, h⟩ := bind_eq_some_iff.mp h
  have hnone (f : Frame M) (next : Writer M) (hsd : x.sd = none)
      (h : (if ok then none else fault s i p { x with writer := .loop } false late) = some s') :
      Written s s' i p x f next arrives late := by
    obtain ⟨-, h⟩ := ite_none_left_eq_some.mp h
    exact .inr (.inl ⟨hsd, fault_cases h⟩)
  have hsome (f : Frame M) (next : Writer M) (k : ℕ) (hsd : x.sd = some k)
      (h : (if ok then some ((s.modSock k (Sock.modOut i (Stream.put f ok arrives))).setPipe i p { x with writer := next })
        else fault (s.modSock k (Sock.modOut i (Stream.put f ok arrives))) i p { x with writer := .loop } false late) =
        some s') : Written s s' i p x f next arrives late := by
    cases ok with
    | true =>
      cases h
      exact .inl ⟨k, hsd, rfl⟩
    | false => exact .inr (.inr ⟨k, hsd, fault_cases h⟩)
  cases hw : x.writer with
  | acking seq =>
    rw [hw] at h
    dsimp only at h
    split at h
    · exact ⟨x, _, _, hx, .ack seq hw, hnone _ _ ‹_› h⟩
    · exact ⟨x, _, _, hx, .ack seq hw, hsome _ _ _ ‹_› h⟩
  | sending seq m =>
    rw [hw] at h
    dsimp only at h
    split at h
    · exact ⟨x, _, _, hx, .msg seq m hw, hnone _ _ ‹_› h⟩
    · exact ⟨x, _, _, hx, .msg seq m hw, hsome _ _ _ ‹_› h⟩
  | _ =>
    rw [hw] at h
    cases h

theorem afterAck_cases (h : afterAck s i p = some s') :
    ∃ x seq, s.pipe i p = some x ∧ x.writer = .acked seq ∧ s' = s.setPipe i p { x with inSeqAcked := seq }.grab := by
  obtain ⟨x, hx, h⟩ := bind_eq_some_iff.mp h
  cases hw : x.writer with
  | acked seq =>
    rw [hw] at h
    cases h
    exact ⟨x, seq, hx, hw, rfl⟩
  | _ =>
    rw [hw] at h
    cases h

theorem readerLoop_cases (h : readerLoop s i p = some s') :
    ∃ x, s.pipe i p = some x ∧ x.reader = .loop ∧
      ((x.state = .closed ∧ s' = s.setPipe i p { x with reader := .done }) ∨
        (x.state = .opened ∧ s' = s.setPipe i p { x with reader := .reading })) := by
  obtain ⟨x, hx, h⟩ := bind_eq_some_iff.mp h
  cases hr : x.reader with
  | loop =>
    rw [hr] at h
    refine ⟨x, hx, hr, ?_⟩
    by_cases h1 : x.state = .closed
    · rw [if_pos h1] at h
      exact .inl ⟨h1, (some.inj h).symm⟩
    · rw [if_neg h1] at h
      obtain ⟨h2, h⟩ := ite_none_right_eq_some.mp h
      exact .inr ⟨h2, (some.inj h).symm⟩
  | _ =>
    rw [hr] at h
    cases h

theorem read_cases (h : read s i p ok late = some s') :
    ∃ x, s.pipe i p = some x ∧ x.reader = .reading ∧
      ((∃ k c f rest, x.sd = some k ∧ s.socks[k]? = some c ∧ (c.inbound i).frames = f :: rest ∧
          s' = (s.modSock k (Sock.modIn i Stream.tail)).setPipe i p { x with reader := .got f }) ∨
        (x.sd = none ∧ Faulted s s' i p { x with reader := .loop } false late) ∨
        ∃ k, x.sd = some k ∧ Faulted (s.modSock k (Sock.modIn i Stream.lose)) s' i p { x with reader := .loop } false
          late) := by
  obtain ⟨x, hx, h⟩ := bind_eq_some_iff.mp h
  cases hr : x.reader with
  | reading =>
    rw [hr] at h
    refine ⟨x, hx, hr, ?_⟩
    by_cases hok : ok = true
    · rw [if_pos hok] at h
      obtain ⟨k, hk, h⟩ := bind_eq_some_iff.mp h
      obtain ⟨c, hc, h⟩ := bind_eq_some_iff.mp h
      obtain ⟨f, hf, h⟩ := map_eq_some_iff.mp h
      obtain ⟨rest, hrest⟩ := head?_eq_some_iff.mp hf
      exact .inl ⟨k, c, f, rest, hk, hc, hrest, h.symm⟩
    · rw [if_neg hok] at h
      cases hsd : x.sd with
      | none =>
        rw [hsd] at h
        exact .inr (.inl ⟨rfl, fault_cases h⟩)
      | some k =>
        rw [hsd] at h
        exact .inr (.inr ⟨k, rfl, fault_cases h⟩)
  | _ =>
    rw [hr] at h
    cases h

/-- What is done with a frame that was read. -/
inductive Handled (s : Net M) (i : Side) (p : ℕ) (x : Pipe M) (late : Bool) (s' : Net M) : Prop
  | ack (seq : ℕ) : x.reader = .got (.ack seq) →
      s' = s.setPipe i p { x with reader := .loop, sent := x.sent.dropWhile fun e => e.1 ≤ seq } → Handled s i p x late s'
  | old (seq : ℕ) (m : M) : x.reader = .got (.msg seq m) → seq ≤ x.inSeq →
      s' = s.setPipe i p { x with reader := .loop } → Handled s i p x late s'
  | msg (seq : ℕ) (m : M) : x.reader = .got (.msg seq m) → x.inSeq < seq →
      s' = s.setRank i { s.rank i with
        pipes := (s.rank i).pipes.set p { x with reader := .queueing m, inSeq := u32 (x.inSeq + 1) }
        asserts := if u32 (x.inSeq + 1) = seq then (s.rank i).asserts else (s.rank i).asserts ++ [.seq] } →
      Handled s i p x late s'
  | bad (f : Frame M) : x.reader = .got f → Faulted s s' i p { x with reader := .loop } false late →
      Handled s i p x late s'

theorem handle_cases (h : handle s i p late = some s') :
    ∃ x, s.pipe i p = some x ∧ x.reader.awake ∧ Handled s i p x late s' := by
  obtain ⟨x, hx, h⟩ := bind_eq_some_iff.mp h
  cases hr : x.reader with
  | got f =>
    rw [hr] at h
    refine ⟨x, hx, by rw [hr]; rfl, ?_⟩
    cases f with
    | ack seq =>
      cases h
      exact .ack seq hr rfl
    | msg seq m =>
      simp only at h
      by_cases hle : seq ≤ x.inSeq
      · rw [if_pos hle] at h
        cases h
        exact .old seq m hr hle rfl
      · rw [if_neg hle] at h
        cases h
        exact .msg seq m hr (Nat.lt_of_not_le hle) rfl
    | hello cseq => exact .bad _ hr (fault_cases h)
    | tag ready seq => exact .bad _ hr (fault_cases h)
  | _ =>
    rw [hr] at h
    cases h

theorem queueMessage_cases (h : queueMessage s i p = some s') :
    ∃ x m, s.pipe i p = some x ∧ x.reader = .queueing m ∧ s' = s.setRank i { s.rank i with
        pipes := (s.rank i).pipes.set p { x with reader := .loop }, queue := (s.rank i).queue ++ [m] } := by
  obtain ⟨x, hx, h⟩ := bind_eq_some_iff.mp h
  cases hr : x.reader with
  | queueing m =>
    rw [hr] at h
    cases h
    exact ⟨x, m, hx, hr, rfl⟩
  | _ =>
    rw [hr] at h
    cases h

/-- The pipe that the accepter makes for socket `k`. -/
def incoming (k : ℕ) : Pipe M := { Pipe.new .accepting with sd := some k, connectSeq := 1, reader := .loop }

/-- The new pipe after its answer was written or not. -/
def answered (x : Pipe M) (ok late : Bool) : Pipe M :=
  let x := if ok then x else x.fault false late
  { x with writer := if x.state = .closed then .off else .loop }

/-- The socket after it was accepted. -/
def taken (i : Side) (p : ℕ) (answer : Frame M) (ok : Bool) (c : Sock M) : Sock M :=
  { (c.modIn i Stream.tail).modOut i (Stream.put answer ok false) with peer := some p }

variable {k : ℕ}

theorem accept_cases (h : accept s i k ok late = some s') :
    ∃ c cseq rest, s.socks[k]? = some c ∧ c.side ≠ i ∧ c.peer = none ∧ (s.rank i).submitting = none ∧
      c.fwd.frames = .hello cseq :: rest ∧
      s'.socks = s.socks.modify k (taken i (s.rank i).pipes.length
        (.tag ((s.rank i).takes i cseq) ((s.rank i).register i cseq (incoming k)).2.2) ok) ∧
      (∀ j, j ≠ i → s'.rank j = s.rank j) ∧
      s'.rank i = { s.rank i with
        pipes := ((s.rank i).register i cseq (incoming k)).1 ++
          [answered ((s.rank i).register i cseq (incoming k)).2.1 ok late]
        rankPipe := if (s.rank i).takes i cseq then some (s.rank i).pipes.length else (s.rank i).rankPipe } := by
  obtain ⟨c, hc, h⟩ := bind_eq_some_iff.mp h
  obtain ⟨hno, h⟩ := ite_none_left_eq_some.mp h
  rw [not_or, not_or] at hno
  cases hf : c.fwd.frames with
  | nil =>
    rw [hf] at h
    cases h
  | cons f rest =>
    rw [hf] at h
    cases f with
    | hello cseq =>
      cases h
      refine ⟨c, cseq, rest, hc, Ne.symm hno.1, by simpa using hno.2.1, by simpa using hno.2.2, hf, ?_,
        fun j hj => rank_setRank_of_ne hj, rank_setRank_self _⟩
      show ((s.socks.modify k _).modify k _) = _
      rw [modify_modify_eq]
      rfl
    | _ => cases h

variable {q : ℕ}

/-- The pipes that there were: one of them may have been closed. -/
theorem register_pipes (r : Rank M) (i : Side) (cseq : ℕ) (x : Pipe M)
    (h : (r.register i cseq x).1[q]? = some y) :
    r.pipes[q]? = some y ∨ ∃ z, r.rankPipe = some q ∧ r.pipes[q]? = some z ∧ switches i cseq z ∧
      y = { z with state := .closed, q := [], sent := [] } := by
  rw [Rank.register] at h
  cases he : r.existing with
  | none =>
    rw [he] at h
    exact .inl h
  | some e =>
    obtain ⟨o, other⟩ := e
    obtain ⟨o', ho, heq⟩ := bind_eq_some_iff.mp he
    obtain ⟨z, hz, ⟨⟩⟩ := map_eq_some_iff.mp heq
    rw [he] at h
    simp only at h
    by_cases hs : switches i cseq other = true
    · rw [if_pos hs] at h
      by_cases hq : q = o
      · subst hq
        rw [getElem?_set_self (List.getElem?_eq_some_iff.mp hz).1] at h
        exact .inr ⟨other, ho, hz, hs, (some.inj h).symm⟩
      · rw [getElem?_set_ne (Ne.symm hq)] at h
        exact .inl h
    · rw [if_neg hs] at h
      exact .inl h

theorem length_register (r : Rank M) (i : Side) (cseq : ℕ) (x : Pipe M) :
    (r.register i cseq x).1.length = r.pipes.length := by
  rw [Rank.register]
  cases r.existing with
  | none => rfl
  | some e =>
    simp only
    by_cases hs : switches i cseq e.2 = true
    · rw [if_pos hs, length_set]
    · rw [if_neg hs]

variable {j : Side}

/-- The pipes after `accept`. -/
theorem accept_pipe {cseq : ℕ} (hother : ∀ j, j ≠ i → s'.rank j = s.rank j)
    (hpipes : (s'.rank i).pipes = ((s.rank i).register i cseq (incoming k)).1 ++
          [answered ((s.rank i).register i cseq (incoming k)).2.1 ok late])
    (hy : s'.pipe j q = some y) :
    s.pipe j q = some y ∨
      (j = i ∧ ∃ z, (s.rank i).rankPipe = some q ∧ s.pipe i q = some z ∧ switches i cseq z ∧
        y = { z with state := .closed, q := [], sent := [] }) ∨
      (j = i ∧ q = (s.rank i).pipes.length ∧ y = answered ((s.rank i).register i cseq (incoming k)).2.1 ok late) := by
  by_cases hj : j = i
  · subst hj
    rw [Net.pipe, hpipes] at hy
    rcases Nat.lt_or_ge q (s.rank j).pipes.length with hq | hq
    · rw [getElem?_append_left (by rw [length_register]; exact hq)] at hy
      rcases register_pipes _ _ _ _ hy with hy | ⟨z, hz⟩
      · exact .inl hy
      · exact .inr (.inl ⟨rfl, z, hz⟩)
    · rw [getElem?_append_right (by rw [length_register]; exact hq), length_register] at hy
      have hq' : q - (s.rank j).pipes.length = 0 := by
        have := (List.getElem?_eq_some_iff.mp hy).1
        rw [length_singleton] at this
        omega
      rw [hq'] at hy
      exact .inr (.inr ⟨rfl, by omega, (some.inj hy).symm⟩)
  · rw [Net.pipe, hother j hj] at hy
    exact .inl hy

variable {r : Rank M}

theorem havePipe_cases (h : r.havePipe = some (p, x)) :
    r.rankPipe = some p ∧ r.pipes[p]? = some x ∧ x.state ≠ .closed := by
  obtain ⟨p', hp, h⟩ := bind_eq_some_iff.mp h
  obtain ⟨x', hx, h⟩ := bind_eq_some_iff.mp h
  obtain ⟨hst, ⟨⟩⟩ := ite_none_left_eq_some.mp h
  exact ⟨hp, hx, hst⟩

theorem submit_cases {m : M} (h : submit s i m = some s') : (s.rank i).submitting = none ∧
      ((∃ p x, (s.rank i).rankPipe = some p ∧ s.pipe i p = some x ∧ x.state ≠ .closed ∧
          s' = s.setRank i { s.rank i with
            log := (s.rank i).log ++ [m], pipes := (s.rank i).pipes.set p { x with q := x.q ++ [m] } }) ∨
        ((s.rank i).havePipe = none ∧ s' = s.setRank i { connectRank (s.rank i) with
          log := (s.rank i).log ++ [m], submitting := some ((s.rank i).pipes.length, m) })) := by
  obtain ⟨hsub, h⟩ := ite_none_left_eq_some.mp h
  refine ⟨by simpa using hsub, ?_⟩
  cases hp : (s.rank i).havePipe with
  | none =>
    rw [hp] at h
    exact .inr ⟨rfl, (some.inj h).symm⟩
  | some e =>
    obtain ⟨h1, h2, h3⟩ := havePipe_cases hp
    rw [hp] at h
    exact .inl ⟨e.1, e.2, h1, h2, h3, (some.inj h).symm⟩

theorem sendNew_cases (h : sendNew s i = some s') :
    ∃ p m x, (s.rank i).submitting = some (p, m) ∧ s.pipe i p = some x ∧
      s' = s.setRank i { s.rank i with
        submitting := none, pipes := (s.rank i).pipes.set p { x with q := x.q ++ [m] } } := by
  obtain ⟨⟨p, m⟩, hsub, h⟩ := bind_eq_some_iff.mp h
  obtain ⟨x, hx, h⟩ := map_eq_some_iff.mp h
  exact ⟨p, m, x, hsub, hx, h.symm⟩

theorem prepareDest_cases (h : prepareDest s i = some s') :
    s' = s ∨ ((s.rank i).submitting = none ∧ (s.rank i).rankPipe = none ∧ s' = s.setRank i (connectRank (s.rank i))) := by
  obtain ⟨hsub, h⟩ := ite_none_left_eq_some.mp h
  by_cases hp : (s.rank i).rankPipe.isSome
  · rw [if_pos hp] at h
    exact .inl (some.inj h).symm
  · rw [if_neg hp] at h
    exact .inr ⟨by simpa using hsub, by simpa using hp, (some.inj h).symm⟩

theorem reap_cases (h : reap s i p = some s') :
    ∃ x, (s.rank i).submitting = none ∧ s.pipe i p = some x ∧ x.state = .closed ∧
      s' = s.setRank i { s.rank i with
        rankPipe := if (s.rank i).rankPipe = some p then none else (s.rank i).rankPipe } := by
  obtain ⟨x, hx, h⟩ := bind_eq_some_iff.mp h
  obtain ⟨⟨h1, h2, -⟩, h⟩ := ite_none_right_eq_some.mp h
  exact ⟨x, by simpa using h1, hx, h2, (some.inj h).symm⟩

theorem pipe_append {x : Pipe M} (hr : r.pipes = (s.rank i).pipes ++ [x])
    (hy : (s.setRank i r).pipe j q = some y) :
    s.pipe j q = some y ∨ (j = i ∧ q = (s.rank i).pipes.length ∧ y = x) := by
  rw [pipe_setRank] at hy
  by_cases hj : j = i
  · rw [if_pos hj, hr] at hy
    rcases Nat.lt_or_ge q (s.rank i).pipes.length with hq | hq
    · rw [getElem?_append_left hq] at hy
      rw [hj]
      exact .inl hy
    · rw [getElem?_append_right hq] at hy
      have hq' : q - (s.rank i).pipes.length = 0 := by
        have := (List.getElem?_eq_some_iff.mp hy).1
        rw [length_singleton] at this
        omega
      rw [hq'] at hy
      exact .inr ⟨hj, by omega, (some.inj hy).symm⟩
  · rw [if_neg hj] at hy
    exact .inl hy

end functions

end Messenger
end Ceph
