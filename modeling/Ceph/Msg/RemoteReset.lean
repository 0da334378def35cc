/-
# Remote resets

`connect()` concludes that the peer was restarted if the `connect_seq` answered
with `READY` is not one more than its own. `accept()` answers 1 always: it starts
the new pipe at 1 also when it takes the connection of a pipe that was open before.
So a remote reset is concluded after a fault although nobody was restarted
(`reset_concluded`), and none is as long as `accept()` takes only connections whose
`connect_seq` is 0 (`no_reset`).
-/
import Ceph.Msg.Steps

namespace Ceph
namespace Messenger

open List

variable {M : Type}

/-- The `connect_seq` of the connection that waits on socket `k`. -/
def helloSeq (s : Net M) (k : ℕ) : Option ℕ :=
  (s.socks[k]?).bind fun c => match c.fwd.frames with
  | .hello cseq :: _ => some cseq
  | _ => none

/-- `accept()` takes no connection of a pipe that counts one before. -/
def FirstOnly (s : Net M) : Act M → Prop
  | .accept i k _ _ => ∀ cseq ∈ helloSeq s k, (s.rank i).takes i cseq → cseq = 0
  | _ => True

instance (s : Net M) (a : Act M) : Decidable (FirstOnly s a) := by
  cases a with
  | accept i k ok late => exact inferInstanceAs (Decidable (∀ cseq ∈ helloSeq s k, (s.rank i).takes i cseq → cseq = 0))
  | _ => exact isTrue trivial

/-- No remote reset was concluded, and the assertion behind `WTF` has not failed. -/
def NoReset (s : Net M) : Prop := ∀ i, (s.rank i).remoteResets = [] ∧ .wtf ∉ (s.rank i).asserts

/-! ### Pipes that connect -/

/-- What `connect()` waits for on a socket: its own `connect_seq` was sent, and `READY`
comes with 1 and only if that is 0. -/
structure Expects (x : Pipe M) (c : Sock M) : Prop where
  hello : ∀ cseq, .hello cseq ∈ c.fwd.frames → cseq = x.connectSeq
  ready : ∀ rseq, .tag true rseq ∈ c.bwd.frames → x.connectSeq = 0 ∧ rseq = 1

/-- A pipe in `connect()`: its reader, which does not hold the lock, does not count a
fault meanwhile. -/
structure Waiting (socks : List (Sock M)) (i : Side) (p : ℕ) (x : Pipe M) : Prop where
  quiet : ∀ cseq k, x.writer = .dial cseq ∨ x.writer = .wait k →
    x.state = .connecting ∨ x.state = .closed ∨ (x.state = .standby ∧ x.reader.awake = false)
  dial : ∀ cseq, x.writer = .dial cseq → x.state = .connecting → cseq = x.connectSeq
  wait : ∀ k, x.writer = .wait k → ∃ c, socks[k]? = some c ∧ c.side = i ∧ c.owner = p ∧
    (x.state = .connecting → Expects x c)

/-- A writer that is not in `connect()`. -/
def Writer.elsewhere : Writer M → Bool
  | .dial _ => false
  | .wait _ => false
  | _ => true

section waiting

variable {socks socks' : List (Sock M)} {i : Side} {p : ℕ} {x : Pipe M}

theorem waiting_elsewhere (h : x.writer.elsewhere = true) : Waiting socks i p x where
  quiet := by
    rintro cseq k (hw | hw) <;>
    · rw [hw] at h
      cases h
  dial := by
    intro cseq hw
    rw [hw] at h
    cases h
  wait := by
    intro k hw
    rw [hw] at h
    cases h

theorem elsewhere_fault {onconnect late : Bool} (h : x.writer.elsewhere = true) :
    (x.fault onconnect late).writer.elsewhere = true := by
  have hw : (x.fault onconnect late).writer = x.writer := by
    unfold Pipe.fault
    split_ifs <;> rfl
  rw [hw]
  exact h

/-- Frames of other kinds may come and go. -/
def Lessens (socks socks' : List (Sock M)) : Prop :=
  ∀ (k : ℕ) (c : Sock M), socks[k]? = some c → ∃ c' : Sock M, socks'[k]? = some c' ∧ c'.side = c.side ∧ c'.owner = c.owner ∧
    (∀ cseq, .hello cseq ∈ c'.fwd.frames → .hello cseq ∈ c.fwd.frames) ∧
    ∀ rseq, .tag true rseq ∈ c'.bwd.frames → .tag true rseq ∈ c.bwd.frames

theorem Lessens.refl : Lessens socks socks := fun _ c h => ⟨c, h, rfl, rfl, fun _ h => h, fun _ h => h⟩

theorem Waiting.moved (h : Waiting socks i p x) (hl : ∀ (k : ℕ) (c : Sock M), socks[k]? = some c → ∃ c' : Sock M, socks'[k]? = some c' ∧
    c'.side = c.side ∧ c'.owner = c.owner ∧ (Expects x c → Expects x c')) : Waiting socks' i p x where
  quiet := h.quiet
  dial := h.dial
  wait k hw := by
    obtain ⟨c, hc, hside, howner, hexp⟩ := h.wait k hw
    obtain ⟨c', hc', hside', howner', hexp'⟩ := hl k c hc
    exact ⟨c', hc', hside'.trans hside, howner'.trans howner, fun hst => hexp' (hexp hst)⟩

theorem Waiting.lessens (h : Waiting socks i p x) (hl : Lessens socks socks') : Waiting socks' i p x := by
  refine h.moved fun k c hc => ?_
  obtain ⟨c', hc', hside, howner, hhello, htag⟩ := hl k c hc
  refine ⟨c', hc', hside, howner, fun hexp => ?_⟩
  exact ⟨fun cseq hm => hexp.hello cseq (hhello cseq hm), fun rseq hm => hexp.ready rseq (htag rseq hm)⟩

/-- A fault that the reader finds. -/
theorem Waiting.fault (h : Waiting socks i p x) (hr : x.reader.awake = true) {e : Reader M} (he : e.awake = false)
    (onconnect late : Bool) : Waiting socks i p ({ x with reader := e }.fault onconnect late) := by
  have hquiet : ∀ cseq k, x.writer = .dial cseq ∨ x.writer = .wait k → x.state = .connecting ∨ x.state = .closed := by
    intro cseq k hw
    rcases h.quiet cseq k hw with hst | hst | ⟨-, ha⟩
    · exact .inl hst
    · exact .inr hst
    · rw [hr] at ha
      cases ha
  by_cases hel : x.writer.elsewhere = true
  · exact waiting_elsewhere (elsewhere_fault hel)
  -- what a fault does in `connect()`
  have hst : x.state = .connecting ∨ x.state = .closed := by
    cases hw : x.writer with
    | dial cseq => exact hquiet cseq 0 (.inl hw)
    | wait k => exact hquiet 0 k (.inr hw)
    | _ =>
      rw [hw] at hel
      exact absurd rfl hel
  have hres : ({ x with reader := e }.fault onconnect late).writer = x.writer ∧
      ({ x with reader := e }.fault onconnect late).connectSeq = x.connectSeq ∧
      ({ x with reader := e }.fault onconnect late).reader.awake = false ∧
      (({ x with reader := e }.fault onconnect late).state = x.state ∨
        ({ x with reader := e }.fault onconnect late).state = .closed ∨
        ({ x with reader := e }.fault onconnect late).state = .standby) := by
    unfold Pipe.fault
    rcases hst with hst | hst
    · simp only [hst]
      split_ifs <;> simp_all
    · simp [hst, he]
  obtain ⟨hw, hcs, ha, hst'⟩ := hres
  refine ⟨fun cseq k hwr => ?_, fun cseq hwr hc => ?_, fun k hwr => ?_⟩
  · rcases hst' with hst' | hst' | hst'
    · rw [hst']
      exact hst.imp_right .inl
    · exact .inr (.inl hst')
    · exact .inr (.inr ⟨hst', ha⟩)
  · rw [hw] at hwr
    rw [hcs]
    rcases hst' with hst' | hst' | hst'
    · exact h.dial cseq hwr (hst' ▸ hc)
    · rw [hst'] at hc
      cases hc
    · rw [hst'] at hc
      cases hc
  · rw [hw] at hwr
    obtain ⟨c, hc, hside, howner, hexp⟩ := h.wait k hwr
    refine ⟨c, hc, hside, howner, fun hcon => ?_⟩
    rcases hst' with hst' | hst' | hst'
    · have hx := hexp (hst' ▸ hcon)
      exact ⟨fun cseq hm => (hx.hello cseq hm).trans hcs.symm, fun rseq hm => by
        rw [hcs]
        exact hx.ready rseq hm⟩
    · rw [hst'] at hcon
      cases hcon
    · rw [hst'] at hcon
      cases hcon

variable {x' : Pipe M}

/-- Changes that `connect()` does not look at. -/
theorem Waiting.congr (h : Waiting socks i p x) (hst : x'.state = x.state) (hw : x'.writer = x.writer)
    (hcs : x'.connectSeq = x.connectSeq) (hr : x'.reader.awake = true → x.reader.awake = true) :
    Waiting socks i p x' where
  quiet cseq k hwr := by
    rw [hw] at hwr
    rw [hst]
    refine (h.quiet cseq k hwr).imp_right fun h => h.imp_right fun ⟨h1, h2⟩ => ⟨h1, ?_⟩
    cases ha : x'.reader.awake with
    | false => rfl
    | true =>
      rw [hr ha] at h2
      cases h2
  dial cseq hwr hc := by
    rw [hw] at hwr
    rw [hst] at hc
    rw [hcs]
    exact h.dial cseq hwr hc
  wait k hwr := by
    rw [hw] at hwr
    obtain ⟨c, hc, hside, howner, hexp⟩ := h.wait k hwr
    refine ⟨c, hc, hside, howner, fun hcon => ?_⟩
    rw [hst] at hcon
    have hx := hexp hcon
    exact ⟨fun cseq hm => (hx.hello cseq hm).trans hcs.symm, fun rseq hm => by
      rw [hcs]
      exact hx.ready rseq hm⟩

theorem Waiting.close (h : Waiting socks i p x) (hst : x'.state = .closed) (hw : x'.writer = x.writer) :
    Waiting socks i p x' where
  quiet cseq k _ := .inr (.inl hst)
  dial cseq _ hc := by
    rw [hst] at hc
    cases hc
  wait k hwr := by
    rw [hw] at hwr
    obtain ⟨c, hc, hside, howner, -⟩ := h.wait k hwr
    refine ⟨c, hc, hside, howner, fun hcon => ?_⟩
    rw [hst] at hcon
    cases hcon

end waiting

/-! ### Streams -/

section streams

variable {socks : List (Sock M)} {k : ℕ} {i : Side}

theorem lessens_modify {f : Sock M → Sock M} (hf : ∀ c, (f c).side = c.side ∧ (f c).owner = c.owner ∧
    (∀ cseq, .hello cseq ∈ (f c).fwd.frames → .hello cseq ∈ c.fwd.frames) ∧
    ∀ rseq, .tag true rseq ∈ (f c).bwd.frames → .tag true rseq ∈ c.bwd.frames) :
    Lessens socks (socks.modify k f) := by
  intro l c hc
  rw [getElem?_modify, hc]
  by_cases hl : k = l
  · refine ⟨f c, by simp [hl], hf c⟩
  · exact ⟨c, by simp [hl], rfl, rfl, fun _ h => h, fun _ h => h⟩

theorem lessens_modIn {f : Stream M → Stream M} (hf : ∀ t, ∀ g ∈ (f t).frames, g ∈ t.frames) :
    Lessens socks (socks.modify k (Sock.modIn i f)) := by
  refine lessens_modify fun c => ?_
  unfold Sock.modIn
  split_ifs
  · exact ⟨rfl, rfl, fun _ h => h, fun _ h => hf _ _ h⟩
  · exact ⟨rfl, rfl, fun _ h => hf _ _ h, fun _ h => h⟩

theorem mem_lose (t : Stream M) : ∀ g ∈ t.lose.frames, g ∈ t.frames := nofun

theorem mem_tail (t : Stream M) : ∀ g ∈ t.tail.frames, g ∈ t.frames := fun _ h => mem_of_mem_tail h

theorem mem_put {f g : Frame M} {ok arrives : Bool} {t : Stream M} (h : g ∈ (t.put f ok arrives).frames) :
    g ∈ t.frames ∨ g = f := by
  have hw : ∀ u : Stream M, (if ok then u else u.kill).frames = u.frames := by
    intro u
    cases ok <;> rfl
  rw [Stream.put, hw] at h
  by_cases h1 : ok = true ∨ arrives = true
  · rw [if_pos h1, Stream.write] at h
    by_cases hd : t.dead = true
    · rw [if_pos hd] at h
      exact .inl h
    · rw [if_neg hd] at h
      exact (mem_append.mp h).imp_right mem_singleton.mp
  · rw [if_neg h1] at h
    exact .inl h

/-- What a pipe writes is not what `connect()` waits for. -/
theorem lessens_write {x : Pipe M} {f : Frame M} {next : Writer M} (hx : Writes x f next) (ok arrives : Bool) :
    Lessens socks (socks.modify k (Sock.modOut i (Stream.put f ok arrives))) := by
  have hf : (∀ cseq, f ≠ .hello cseq) ∧ ∀ rseq, f ≠ .tag true rseq := by
    cases hx with
    | ack seq h => exact ⟨nofun, nofun⟩
    | msg seq m h => exact ⟨nofun, nofun⟩
  refine lessens_modify fun c => ?_
  unfold Sock.modOut
  split_ifs
  · exact ⟨rfl, rfl, fun cseq h => (mem_put h).resolve_right fun h => hf.1 cseq h.symm, fun _ h => h⟩
  · exact ⟨rfl, rfl, fun _ h => h, fun rseq h => (mem_put h).resolve_right fun h => hf.2 rseq h.symm⟩

end streams

/-! ### Steps -/

/-- What is kept: every pipe that connects will be answered as it expects. -/
structure Counted (s : Net M) : Prop where
  waiting : ∀ i p x, s.pipe i p = some x → Waiting s.socks i p x
  reset : NoReset s

section steps

variable {s s' : Net M} {i : Side} {p : ℕ} {x x' : Pipe M}

/-- One pipe changes, and sockets do in what `connect()` does not wait for. -/
theorem Counted.replace (h : Counted s) (hl : Lessens s.socks s'.socks) (hp : Replaces s s' i p x')
    (hx : Waiting s'.socks i p x') (hr : ∀ j, (s'.rank j).remoteResets = (s.rank j).remoteResets ∧
      (.wtf ∈ (s'.rank j).asserts → .wtf ∈ (s.rank j).asserts)) : Counted s' where
  waiting j q y hy := by
    rcases hp.cases hy with ⟨rfl, rfl, rfl⟩ | hy
    · exact hx
    · exact (h.waiting j q y hy).lessens hl
  reset j := ⟨(hr j).1.trans (h.reset j).1, fun hw => (h.reset j).2 ((hr j).2 hw)⟩

variable {late : Bool}

theorem Counted.faulted {s0 : Net M} {onconnect : Bool} (h : Counted s)
    (hf : Faulted s0 s' i p x' onconnect late) (hl : Lessens s.socks s0.socks) (hrank : s0.rank = s.rank)
    (hx : s.pipe i p = some x) (hx' : Waiting s0.socks i p (x'.fault onconnect late)) : Counted s' := by
  have hp : Replaces s0 s' i p (x'.fault onconnect late) := hf.replaces (y := x) (by rw [Net.pipe, hrank]; exact hx)
  have hp' : Replaces s s' i p (x'.fault onconnect late) := by
    intro j q
    rw [hp j q, Net.pipe, hrank]
    rfl
  refine h.replace (by rw [hf.socks]; exact hl) hp' (by rw [hf.socks]; exact hx') fun j => ?_
  by_cases hj : j = i
  · subst hj
    rw [hf.remoteResets, hf.asserts, hrank]
    exact ⟨rfl, id⟩
  · rw [hf.other j hj, hrank]
    exact ⟨rfl, id⟩

variable {r : Rank M}

theorem Counted.append (h : Counted s) {x : Pipe M} (hr : r.pipes = (s.rank i).pipes ++ [x])
    (hx : x.writer = .loop) (hrr : r.remoteResets = (s.rank i).remoteResets) (ha : r.asserts = (s.rank i).asserts) :
    Counted (s.setRank i r) where
  waiting j q y hy := by
    rcases pipe_append hr hy with hy | ⟨-, -, rfl⟩
    · exact h.waiting j q y hy
    · exact waiting_elsewhere (by rw [hx]; rfl)
  reset j := by
    by_cases hj : j = i
    · subst hj
      rw [rank_setRank_self, hrr, ha]
      exact h.reset j
    · rw [rank_setRank_of_ne hj]
      exact h.reset j

theorem kept_setRank (hrr : r.remoteResets = (s.rank i).remoteResets)
    (ha : .wtf ∈ r.asserts → .wtf ∈ (s.rank i).asserts) (j : Side) :
    ((s.setRank i r).rank j).remoteResets = (s.rank j).remoteResets ∧
      (.wtf ∈ ((s.setRank i r).rank j).asserts → .wtf ∈ (s.rank j).asserts) := by
  by_cases hj : j = i
  · subst hj
    rw [rank_setRank_self]
    exact ⟨hrr, ha⟩
  · rw [rank_setRank_of_ne hj]
    exact ⟨rfl, id⟩

theorem kept_setPipe (j : Side) : ((s.setPipe i p x).rank j).remoteResets = (s.rank j).remoteResets ∧
    (.wtf ∈ ((s.setPipe i p x).rank j).asserts → .wtf ∈ (s.rank j).asserts) :=
  kept_setRank (r := { s.rank i with pipes := (s.rank i).pipes.set p x }) rfl id j

theorem Counted.set (h : Counted s) (hx : s.pipe i p = some x) (hx' : Waiting s.socks i p x')
    (hr : r.pipes = (s.rank i).pipes.set p x') (hrr : r.remoteResets = (s.rank i).remoteResets)
    (ha : .wtf ∈ r.asserts → .wtf ∈ (s.rank i).asserts) : Counted (s.setRank i r) := by
  exact h.replace .refl (replaces_setRank hx hr) hx' (kept_setRank hrr ha)

theorem writer_grab (x : Pipe M) : x.grab.writer.elsewhere = true := by
  unfold Pipe.grab
  split <;> rfl

theorem Counted.submit {m : M} (h : Counted s) (hs : submit s i m = some s') : Counted s' := by
  obtain ⟨-, ⟨p, x, -, hx, -, rfl⟩ | ⟨-, rfl⟩⟩ := submit_cases hs
  · refine h.set hx ?_ rfl rfl id
    exact (h.waiting i p x hx).congr rfl rfl rfl id
  · exact h.append rfl rfl rfl rfl

theorem Counted.sendNew (h : Counted s) (hs : sendNew s i = some s') : Counted s' := by
  obtain ⟨p, m, x, -, hx, rfl⟩ := sendNew_cases hs
  refine h.set hx ?_ rfl rfl id
  exact (h.waiting i p x hx).congr rfl rfl rfl id

theorem Counted.prepareDest (h : Counted s) (hs : prepareDest s i = some s') : Counted s' := by
  obtain rfl | ⟨-, -, rfl⟩ := prepareDest_cases hs
  · exact h
  · exact h.append rfl rfl rfl rfl

theorem Counted.writerLoop (h : Counted s) (hs : writerLoop s i p = some s') : Counted s' := by
  obtain ⟨x, x', hx, -, hround, rfl⟩ := writerLoop_cases hs
  refine h.set hx ?_ rfl rfl id
  cases hround with
  | done hst => exact waiting_elsewhere rfl
  | connect hst =>
    refine ⟨fun _ _ _ => .inl rfl, fun cseq hw _ => ?_, nofun⟩
    cases hw
    rfl
  | ack => exact waiting_elsewhere rfl
  | grab => exact waiting_elsewhere (writer_grab x)

variable {ok : Bool}

section

variable (h : Counted s)
include h

theorem Counted.dial (hs : dial s i p ok late = some s') : Counted s' := by
  obtain ⟨x, cseq, hx, hw, ⟨hrank, hsocks⟩ | hf⟩ := dial_cases hs
  · have hl : Lessens s.socks s'.socks := by
      intro k c hc
      refine ⟨c, ?_, rfl, rfl, fun _ h => h, fun _ h => h⟩
      rw [hsocks, getElem?_append_left (List.getElem?_eq_some_iff.mp hc).1]
      exact hc
    have hwait := h.waiting i p x hx
    have hp : Replaces s s' i p { x with writer := .wait s.socks.length } := by
      intro j q
      rw [← replaces_setPipe hx { x with writer := .wait s.socks.length } j q, Net.pipe, hrank]
      rfl
    refine h.replace hl hp ?_ fun j => ?_
    · refine ⟨fun c k _ => hwait.quiet cseq k (.inl hw), fun c hc => (by cases hc), fun k hk => ?_⟩
      cases hk
      refine ⟨⟨i, p, none, ⟨[.hello cseq], false⟩, ⟨[], false⟩⟩, ?_, rfl, rfl, fun hst => ?_⟩
      · rw [hsocks]
        exact getElem?_concat_length
      · refine ⟨fun c hc => ?_, fun r hr => by cases hr⟩
        cases mem_singleton.mp hc
        exact hwait.dial cseq hw hst
    · rw [hrank]
      exact kept_setPipe j
  · exact h.faulted hf .refl rfl hx (waiting_elsewhere (elsewhere_fault rfl))

theorem Counted.readTag (hs : readTag s i p ok late = some s') : Counted s' := by
  obtain ⟨x, k, c, hx, hw, hc, htag⟩ := readTag_cases hs
  have hlost : ∀ {f : Stream M → Stream M}, (∀ t, ∀ g ∈ (f t).frames, g ∈ t.frames) →
      Lessens s.socks (s.modSock k (Sock.modIn i f)).socks := fun hf => lessens_modIn hf
  cases htag with
  | lost hf => exact h.faulted hf (hlost mem_lose) rfl hx (waiting_elsewhere (elsewhere_fault rfl))
  | race ready rseq rest hfr hst hf => exact h.faulted hf (hlost mem_tail) rfl hx (waiting_elsewhere (elsewhere_fault rfl))
  | reject rseq rest hfr hst hf => exact h.faulted hf (hlost mem_tail) rfl hx (waiting_elsewhere (elsewhere_fault rfl))
  | ready rseq rest hfr hst heq =>
    obtain ⟨c', hc', -, -, hexp⟩ := (h.waiting i p x hx).wait k hw
    have hcc : c = c' := Option.some.inj (hc.symm.trans hc')
    subst hcc
    -- the answer is what was expected
    obtain ⟨hcs, hrseq⟩ := (hexp hst).ready rseq (by rw [hfr]; exact mem_cons_self)
    subst heq hrseq
    have hsame : 1 = u32 (x.connectSeq + 1) := by rw [hcs]; rfl
    rw [finishConnect]
    rw [if_pos hsame]
    exact h.replace (hlost mem_tail) (replaces_setPipe hx _) (waiting_elsewhere rfl) kept_setPipe

theorem Counted.write {arrives : Bool} (hs : write s i p ok arrives late = some s') :
    Counted s' := by
  obtain ⟨x, f, next, hx, hwr, ⟨k, -, rfl⟩ | ⟨-, hf⟩ | ⟨k, -, hf⟩⟩ := write_cases hs
  · have hnext : next.elsewhere = true := by
      cases hwr <;> rfl
    exact h.replace (lessens_write hwr true arrives) (replaces_setPipe hx _) (waiting_elsewhere hnext) kept_setPipe
  · exact h.faulted hf .refl rfl hx (waiting_elsewhere (elsewhere_fault rfl))
  · exact h.faulted hf (lessens_write hwr false arrives) rfl hx (waiting_elsewhere (elsewhere_fault rfl))

theorem Counted.afterAck (hs : afterAck s i p = some s') : Counted s' := by
  obtain ⟨x, seq, hx, -, rfl⟩ := afterAck_cases hs
  exact h.set hx (waiting_elsewhere (writer_grab _)) rfl rfl id

theorem Counted.readerLoop (hs : readerLoop s i p = some s') : Counted s' := by
  obtain ⟨x, hx, hr, ⟨-, rfl⟩ | ⟨hst, rfl⟩⟩ := readerLoop_cases hs
  · refine h.set hx ?_ rfl rfl id
    exact (h.waiting i p x hx).congr rfl rfl rfl nofun
  · refine h.set hx ?_ rfl rfl id
    -- an open pipe is not in `connect()`
    refine waiting_elsewhere ?_
    have hquiet := (h.waiting i p x hx).quiet
    rw [hst] at hquiet
    cases hw : x.writer with
    | dial cseq => exact absurd (hquiet cseq 0 (.inl hw)) (by simp)
    | wait k => exact absurd (hquiet 0 k (.inr hw)) (by simp)
    | _ => rfl

theorem Counted.read (hs : read s i p ok late = some s') : Counted s' := by
  obtain ⟨x, hx, hr, ⟨k, c, f, rest, -, -, -, rfl⟩ | ⟨-, hf⟩ | ⟨k, -, hf⟩⟩ := read_cases hs
  · refine h.replace (lessens_modIn mem_tail) (replaces_setPipe hx _) ?_ fun j => ?_
    · refine ((h.waiting i p x hx).lessens (lessens_modIn mem_tail)).congr rfl rfl rfl fun _ => ?_
      rw [hr]
      rfl
    · exact kept_setPipe j
  · exact h.faulted hf .refl rfl hx ((h.waiting i p x hx).fault (by rw [hr]; rfl) rfl _ _)
  · exact h.faulted hf (lessens_modIn mem_lose) rfl hx
      (((h.waiting i p x hx).lessens (lessens_modIn mem_lose)).fault (by rw [hr]; rfl) rfl _ _)

theorem Counted.handle (hs : handle s i p late = some s') : Counted s' := by
  obtain ⟨x, hx, hr, hdone⟩ := handle_cases hs
  have hwait := h.waiting i p x hx
  cases hdone with
  | ack seq hg heq =>
    subst heq
    refine h.set hx ?_ rfl rfl id
    exact hwait.congr rfl rfl rfl nofun
  | old seq m hg hle heq =>
    subst heq
    refine h.set hx ?_ rfl rfl id
    exact hwait.congr rfl rfl rfl nofun
  | msg seq m hg hlt heq =>
    subst heq
    refine h.set hx ?_ rfl rfl fun ha => ?_
    · exact hwait.congr rfl rfl rfl nofun
    · simp only at ha
      split_ifs at ha
      · exact ha
      · exact (mem_append.mp ha).resolve_right (by simp)
  | bad f hg hf => exact h.faulted hf .refl rfl hx (hwait.fault hr rfl _ _)

theorem Counted.queueMessage (hs : queueMessage s i p = some s') : Counted s' := by
  obtain ⟨x, m, hx, -, rfl⟩ := queueMessage_cases hs
  refine h.set hx ?_ rfl rfl id
  exact (h.waiting i p x hx).congr rfl rfl rfl nofun

end

theorem register_seq {cseq : ℕ} {y : Pipe M} (h : r.takes i cseq = true) :
    (r.register i cseq y).2.2 = y.connectSeq := by
  rw [Rank.takes] at h
  rw [Rank.register]
  cases he : r.existing with
  | none => rfl
  | some e =>
    rw [he] at h
    simp only at h ⊢
    rw [if_pos h]

theorem elsewhere_answered (y : Pipe M) (ok late : Bool) : (answered y ok late).writer.elsewhere = true := by
  rw [answered]
  split_ifs <;> rfl

theorem Counted.accept {k : ℕ} (h : Counted s) (hok : FirstOnly s (.accept i k ok late))
    (hs : accept s i k ok late = some s') : Counted s' := by
  obtain ⟨c, cseq, rest, hc, hside, -, -, hfr, hsocks, hother, hrank⟩ := accept_cases hs
  have hfirst : (s.rank i).takes i cseq = true → cseq = 0 := by
    refine hok cseq ?_
    rw [helloSeq, hc, Option.bind_some, hfr]
    rfl
  -- the answer is what the pipe that connects expects
  have hexp : ∀ (y : Pipe M) (l : ℕ) (d : Sock M), s.socks[l]? = some d → ∃ d' : Sock M, s'.socks[l]? = some d' ∧ d'.side = d.side ∧
      d'.owner = d.owner ∧ (Expects y d → Expects y d') := by
    intro y l d hd
    rw [hsocks, getElem?_modify, hd]
    by_cases hl : k = l
    · subst hl
      have hcd : c = d := Option.some.inj (hc.symm.trans hd)
      subst hcd
      refine ⟨taken i (s.rank i).pipes.length (.tag ((s.rank i).takes i cseq)
        ((s.rank i).register i cseq (incoming k)).2.2) ok c, by simp, ?_⟩
      simp only [taken, Sock.modIn, Sock.modOut, if_neg (Ne.symm hside)]
      refine ⟨trivial, trivial, fun hexp => ⟨fun a ha => hexp.hello a (mem_tail c.fwd _ ha), fun rseq hr => ?_⟩⟩
      rcases mem_put hr with hr | hr
      · exact hexp.ready rseq hr
      · simp only [Frame.tag.injEq] at hr
        obtain ⟨htakes, hseq⟩ := hr
        have hcs := hexp.hello cseq (by rw [hfr]; exact mem_cons_self)
        rw [← hcs, hseq, register_seq htakes.symm]
        exact ⟨hfirst htakes.symm, rfl⟩
    · exact ⟨d, by simp [hl], rfl, rfl, id⟩
  refine ⟨fun j q y hy => ?_, fun j => ?_⟩
  · rcases accept_pipe hother (by rw [hrank]) hy with hy | ⟨rfl, z, -, hz, -, rfl⟩ | ⟨-, -, rfl⟩
    · exact (h.waiting j q y hy).moved (hexp y)
    · exact ((h.waiting j q z hz).moved (hexp z)).close rfl rfl
    · exact waiting_elsewhere (elsewhere_answered _ _ _)
  · by_cases hj : j = i
    · subst hj
      rw [hrank]
      exact h.reset j
    · rw [hother j hj]
      exact h.reset j

theorem Counted.reap (h : Counted s) (hs : reap s i p = some s') : Counted s' := by
  obtain ⟨x, -, hx, -, rfl⟩ := reap_cases hs
  have hset : (s.rank i).pipes = (s.rank i).pipes.set p x := by
    obtain ⟨hlt, hget⟩ := List.getElem?_eq_some_iff.mp hx
    rw [← hget, set_getElem_self]
  exact h.set hx (h.waiting i p x hx) hset rfl id

theorem Counted.step {a : Act M} (h : Counted s) (hok : FirstOnly s a) (hs : step s a = some s') : Counted s' := by
  cases a with
  | submit i m => exact h.submit hs
  | sendNew i => exact h.sendNew hs
  | prepareDest i => exact h.prepareDest hs
  | writerLoop i p => exact h.writerLoop hs
  | dial i p ok late => exact h.dial hs
  | readTag i p ok late => exact h.readTag hs
  | write i p ok arrives late => exact h.write hs
  | afterAck i p => exact h.afterAck hs
  | readerLoop i p => exact h.readerLoop hs
  | read i p ok late => exact h.read hs
  | handle i p late => exact h.handle hs
  | queueMessage i p => exact h.queueMessage hs
  | accept i k ok late => exact h.accept hok hs
  | reap i p => exact h.reap hs

end steps

/-- **No remote reset.** As long as `accept()` takes only connections of pipes that
count none before, no remote reset is concluded, whatever fails. -/
theorem no_reset (s : Net M) (h : Run.Reach step FirstOnly Net.init s) : NoReset s := by
  have hinit : Counted (.init (M := M)) := ⟨fun i p x hx => (nomatch hx), fun i => ⟨rfl, not_mem_nil⟩⟩
  refine (h.inv Counted hinit ?_).reset
  exact fun s a s' hs hok hst => hs.step hok hst

/-- A run with a fault, after which both ranks know of each other still. -/
theorem no_reset_faults :
    ∃ s : Net ℕ, Run.Reach step FirstOnly Net.init s ∧ NoReset s ∧ (s.rank .high).queue = [1] ∧
      ((s.rank .low).pipes.map (·.state)) = [.connecting] := by
  obtain ⟨s, hs, heq⟩ := Option.map_eq_some_iff.mp (show
    ((Run.exec (step (M := ℕ)) FirstOnly [.submit .low 1, .sendNew .low, .writerLoop .low 0, .dial .low 0 true false,
      .accept .high 0 true false, .readTag .low 0 true false, .writerLoop .low 0, .write .low 0 true true false,
      .readerLoop .high 0, .read .high 0 true false, .handle .high 0 false, .queueMessage .high 0,
      .submit .low 2, .readerLoop .low 0, .read .low 0 false false] .init).map fun s =>
        ((s.rank .high).queue, (s.rank .low).pipes.map (·.state))) = some ([1], [.connecting]) by decide +kernel)
  simp only [Prod.mk.injEq] at heq
  have hreach := Run.reach_of_exec hs
  exact ⟨s, hreach, no_reset s hreach, heq.1, heq.2⟩

/-- One socket fails and the low rank connects again: the second attempt is taken, and
both messages are dropped. -/
theorem reset_concluded :
    ∃ s : Net ℕ, Run.Reach step Run.anyAct Net.init s ∧ (s.rank .low).remoteResets = [[1, 2]] ∧
      (s.rank .low).resets = [] ∧ (s.rank .high).resets = [] := by
  obtain ⟨s, hs, heq⟩ := Option.map_eq_some_iff.mp (show
    ((Run.exec (step (M := ℕ)) Run.anyAct [.submit .low 1, .sendNew .low, .writerLoop .low 0, .dial .low 0 true false,
      .accept .high 0 true false, .readTag .low 0 true false, .writerLoop .low 0, .write .low 0 true true false,
      .submit .low 2, .readerLoop .low 0, .read .low 0 false false,
      .writerLoop .low 0, .dial .low 0 true false, .accept .high 1 true false, .readTag .low 0 true false,
      .writerLoop .low 0, .dial .low 0 true false, .accept .high 2 true false, .readTag .low 0 true false]
      .init).map fun s => ((s.rank .low).remoteResets, (s.rank .low).resets, (s.rank .high).resets)) =
      some ([[1, 2]], [], []) by decide +kernel)
  simp only [Prod.mk.injEq] at heq
  exact ⟨s, Run.reach_of_exec hs, heq.1, heq.2.1, heq.2.2⟩

end Messenger
end Ceph
