/-
# Journal entries come back in order

The reader of the MDS journal returns the entries that were appended, one
after the other, over any order of flushes, acknowledgements, reads and
restarts. No assertion fails, `try_read_entry` returns the next entry unless
there is none or a read or a write is outstanding, a waiting `read_entry`
is called back, and every completion leaves less to do.

This leaves out empty entries (`bufferlist::splice` refuses them), the padding
at stripe boundaries (the reader takes it for entries), reading on after a
partial entry was cut off and others were appended (the reader still has the bytes
of the partial entry), an entry appended before the partial one is cut off or while
`read_entry` waits at the end, and buffers of 4 GiB.
-/
import Ceph.Osdc.Journaler
import Mathlib.Data.List.Infix
import Mathlib.Data.List.Nodup
import Mathlib.Algebra.Order.BigOperators.Group.List

namespace Ceph
namespace Osdc
namespace Journaler

open List Option State
open Wire

variable (c : Config)

/-! ### The condition on a run -/

/-- The buffers of a reader that meets an entry of `n` bytes stay below 4 GiB. -/
def Config.Fits (n : ℕ) : Prop := max (4 + n) c.prefetchFrom + max (4 + n) c.fetchLen < 2 ^ 32

instance (n : ℕ) : Decidable (c.Fits n) := inferInstanceAs (Decidable (_ < _))

/-- Nothing was appended since a partial entry was cut off, if one was. -/
def State.Fresh (s : State) : Prop := s.repaired = false ∨ s.readPos = s.writePos

instance (s : State) : Decidable s.Fresh := inferInstanceAs (Decidable (_ ∨ _))

/-- An entry that can be appended. -/
structure Appendable (s : State) (x : Bytes) : Prop where
  ne : x ≠ []
  fits : c.Fits x.length
  split : c.allowSplitEntries = true ∨ ¬ s.spans c x.length
  writeBuf : s.writeBuf.length + (4 + x.length) < 2 ^ 32
  readBuf : c.cache = true → s.readBuf.length + (4 + x.length) < 2 ^ 32
  tail : s.tail = []
  waits : ¬ (s.readBl = true ∧ s.readPos = s.writePos)

/-- The position is the start of an entry, or the end of the last. -/
def Boundary (log : List Bytes) (p : ℕ) : Prop := ∃ k ≤ log.length, p = c.period + (frames (log.take k)).length

/-- The file that a restart finds holds entries of the journal from the first on, at
least those before the position in the head, and then at most a partial entry. -/
structure Found (s : State) (file : Bytes) : Prop where
  log : (whole (file.drop c.period)).1 <+: s.log
  head : s.head.readPos ≤ c.period + (frames (whole (file.drop c.period)).1).length
  tail : 4 ≤ (whole (file.drop c.period)).2.length → c.Fits (sizeField (whole (file.drop c.period)).2)

/-- The condition on a run. -/
def Settled (s : State) : Act → Prop
  | .append x _ _ => Appendable c s x
  | .isReadable | .tryReadEntry => s.Fresh
  | .readEntry => s.Fresh ∧ s.readBl = false
  | .waitForReadable => s.Fresh ∧ s.onReadable = false ∧ ¬ (s.readPos ≠ s.writePos ∧ s.Ready)
  | .setReadPos p => ¬ s.isReading ∧ s.readBl = false ∧ p ≤ s.ackPos ∧ Boundary c s.log p
  | .restart part => Found c s (crashFile part s)
  | _ => True

instance (s : State) (x : Bytes) : Decidable (Appendable c s x) :=
  decidable_of_iff (x ≠ [] ∧ c.Fits x.length ∧ (c.allowSplitEntries = true ∨ ¬ s.spans c x.length) ∧
      s.writeBuf.length + (4 + x.length) < 2 ^ 32 ∧
      (c.cache = true → s.readBuf.length + (4 + x.length) < 2 ^ 32) ∧ s.tail = [] ∧
      ¬ (s.readBl = true ∧ s.readPos = s.writePos))
    ⟨fun ⟨h1, h2, h3, h4, h5, h6, h7⟩ => ⟨h1, h2, h3, h4, h5, h6, h7⟩,
      fun ⟨h1, h2, h3, h4, h5, h6, h7⟩ => ⟨h1, h2, h3, h4, h5, h6, h7⟩⟩

instance (log : List Bytes) (p : ℕ) : Decidable (Boundary c log p) :=
  decidable_of_iff (∃ k ∈ List.range (log.length + 1), p = c.period + (frames (log.take k)).length)
    ⟨fun ⟨k, hk, hp⟩ => ⟨k, Nat.le_of_lt_succ (List.mem_range.mp hk), hp⟩,
      fun ⟨k, hk, hp⟩ => ⟨k, List.mem_range.mpr (Nat.lt_succ_of_le hk), hp⟩⟩

instance (s : State) (file : Bytes) : Decidable (Found c s file) :=
  decidable_of_iff ((whole (file.drop c.period)).1 <+: s.log ∧
      s.head.readPos ≤ c.period + (frames (whole (file.drop c.period)).1).length ∧
      (4 ≤ (whole (file.drop c.period)).2.length → c.Fits (sizeField (whole (file.drop c.period)).2)))
    ⟨fun ⟨h1, h2, h3⟩ => ⟨h1, h2, h3⟩, fun ⟨h1, h2, h3⟩ => ⟨h1, h2, h3⟩⟩

instance : ∀ (s : State) (a : Act), Decidable (Settled c s a)
  | _, .append _ _ _ => inferInstanceAs (Decidable (Appendable c _ _))
  | _, .isReadable | _, .tryReadEntry => inferInstanceAs (Decidable (State.Fresh _))
  | _, .readEntry | _, .waitForReadable => inferInstanceAs (Decidable (_ ∧ _))
  | _, .setReadPos _ => inferInstanceAs (Decidable (_ ∧ _))
  | _, .restart _ => inferInstanceAs (Decidable (Found c _ _))
  | _, .flush _ | _, .delayedFlush | _, .stored _ | _, .finishFlush _ | _, .writeHead
  | _, .finishWriteHead | _, .finishRead => isTrue trivial

/-! ### The invariant -/

/-- The bytes of the journal, as they are or will be in the file. -/
def stream (s : State) : Bytes := List.replicate c.period 0 ++ frames s.log ++ s.tail

/-- The byte is not one that a write in progress still has to bring. -/
def Arrived (pieces : List Piece) (i : ℕ) : Prop :=
  ∀ p ∈ pieces, p.stored = false → i < p.start ∨ p.start + p.bytes.length ≤ i

/-- The writer's positions and buffers, and the file. -/
structure Writer (s : State) : Prop where
  writePos : s.writePos = (stream c s).length
  flush : s.flushPos ≤ s.writePos
  buf : s.writeBuf = (stream c s).drop s.flushPos
  small : s.writeBuf.length < 2 ^ 32
  ack : s.ackPos = (s.pendingFlush.head?.map (·.start)).getD s.flushPos
  pieces : ∀ p ∈ s.pendingFlush, p.bytes ≠ [] ∧ p.start + p.bytes.length ≤ s.flushPos ∧
    p.bytes = ((stream c s).drop p.start).take p.bytes.length
  sorted : s.pendingFlush.Pairwise fun p q => p.start + p.bytes.length ≤ q.start
  base : c.period ≤ s.file.length
  file : ∀ i < s.flushPos, c.period ≤ i → Arrived s.pendingFlush i → s.file[i]? = (stream c s)[i]?
  entries : ∀ x ∈ s.log, x ≠ [] ∧ c.Fits x.length
  short : Short s.tail
  fits : 4 ≤ s.tail.length → c.Fits (sizeField s.tail)
  tail : s.tail ≠ [] → s.ackPos = s.writePos
  heads : ∀ h ∈ s.head :: s.heads, Boundary c s.log h.readPos ∧ h.writePos ≤ s.file.length
  retries : ∀ r ∈ s.retries, s.ackPos < r ∧ r ≤ s.flushPos

/-- The reader's buffer holds the bytes between two of its positions. -/
structure Buffered (s : State) : Prop where
  le : s.readPos ≤ s.receivedPos
  requested : s.receivedPos ≤ s.requestedPos
  buf : s.readBuf = ((stream c s).drop s.readPos).take (s.receivedPos - s.readPos)
  ack : s.requestedPos ≤ s.ackPos ∨
    c.cache = true ∧ s.requestedPos = s.receivedPos ∧ s.requestedPos = s.writePos
  small : s.requestedPos - s.readPos < 2 ^ 32

/-- What is left in the reader's buffer after a partial entry was cut off. -/
structure Stale (s : State) : Prop where
  idle : s.requestedPos = s.receivedPos
  buf : s.requestedPos = s.readPos + s.readBuf.length
  small : s.readBuf.length < 2 ^ 32
  retries : s.retries = []
  tail : s.tail = []

/-- A completion will come that calls `is_readable`. -/
def State.Awaits (s : State) : Prop := s.isReading ∨ s.retries ≠ []

/-- The number of entries before the position of the reader. -/
def State.next (s : State) : ℕ := s.start + s.returned.length

/-- The reader's position is that of the next entry, and it returned the ones before. -/
structure Place (s : State) : Prop where
  le : s.next ≤ s.log.length
  readPos : s.readPos = c.period + (frames (s.log.take s.next)).length
  returned : s.returned = (s.log.drop s.start).take s.returned.length
  fetchLen : c.fetchLen ≤ s.fetchLen
  fetch : ∀ n, c.Fits n → max (4 + n) c.prefetchFrom + s.fetchLen < 2 ^ 32

/-- The reader's place and its buffers. -/
structure Reader (s : State) : Prop extends Place c s where
  fresh : s.repaired = false → Buffered c s
  stale : s.repaired = true → Stale s

/-- The positions and the buffers. -/
structure Inv (s : State) : Prop where
  ok : s.ok = true
  writer : Writer c s
  reader : Reader c s

/-- There is nothing to read, or what is read next has been asked for. -/
def State.Stuck (s : State) : Prop := s.readPos = s.writePos ∨ s.repaired = false ∧ ¬ s.Ready ∧ s.Awaits

/-- A `read_entry` that waits will be called back when there is something to read. -/
def State.Waits (s : State) : Prop := s.readBl = true → s.Stuck

/-- The bytes that were not received, and those that were not acknowledged. -/
def State.work (s : State) : ℕ :=
  s.writePos - s.receivedPos + s.writeBuf.length + (s.pendingFlush.map (·.bytes.length)).sum

/-- What the reader's calls leave as it is, apart from its positions. -/
structure Same (s s' : State) : Prop where
  log : s'.log = s.log
  start : s'.start = s.start
  returned : s'.returned = s.returned
  readBl : s'.readBl = s.readBl
  onReadable : s'.onReadable = s.onReadable
  work : s'.work = s.work

variable {c} {s s' : State}

/-! ### The stream -/

theorem length_eq {b : Bytes} (h : b.length < 2 ^ 32) : length b = b.length := Nat.mod_eq_of_lt h

theorem length_stream : (stream c s).length = c.period + (frames s.log).length + s.tail.length := by
  simp [stream, add_assoc]

theorem drop_stream (k : ℕ) : (stream c s).drop (c.period + (frames (s.log.take k)).length) =
    frames (s.log.drop k) ++ s.tail := by
  rw [stream, frames_drop s.log k]
  simp only [← append_assoc]
  rw [append_assoc _ (frames (s.log.drop k)) s.tail]
  exact drop_left' (by simp)

theorem Config.Fits.lt {n : ℕ} (h : c.Fits n) : n < 2 ^ 32 := by
  unfold Config.Fits at h
  omega

theorem Writer.ack_le (h : Writer c s) : s.ackPos ≤ s.flushPos := by
  rw [h.ack]
  cases hp : s.pendingFlush with
  | nil => exact le_rfl
  | cons p ps =>
    have := (h.pieces p (by simp [hp])).2.1
    simp only [head?_cons, map_some, getD_some]
    omega

theorem Writer.ack_le_start (h : Writer c s) {p : Piece} (hp : p ∈ s.pendingFlush) : s.ackPos ≤ p.start := by
  have hack := h.ack
  have hsort := h.sorted
  cases hps : s.pendingFlush with
  | nil => simp [hps] at hp
  | cons q qs =>
    rw [hps] at hack hp hsort
    simp only [head?_cons, map_some, getD_some] at hack
    rcases mem_cons.mp hp with rfl | hp
    · exact hack.le
    · have := (pairwise_cons.mp hsort).1 p hp
      omega

theorem Writer.file_ack (h : Writer c s) {i : ℕ} (hi : i < s.ackPos) (hp : c.period ≤ i) :
    s.file[i]? = (stream c s)[i]? :=
  h.file i (lt_of_lt_of_le hi h.ack_le) hp fun _ hp _ => .inl (lt_of_lt_of_le hi (h.ack_le_start hp))

theorem Writer.ack_le_file (h : Writer c s) : s.ackPos ≤ s.file.length := by
  by_contra hlt
  have hi : s.file.length < s.ackPos := not_le.mp hlt
  have hget := h.file_ack hi h.base
  have hle := h.ack_le
  have hfl := h.flush
  have hwr := h.writePos
  rw [getElem?_eq_none le_rfl, getElem?_eq_getElem (by omega)] at hget
  cases hget

/-- The bytes that a read up to `ack_pos` finds. -/
theorem Writer.read_file (h : Writer c s) {p n : ℕ} (hp : c.period ≤ p) (hn : p + n ≤ s.ackPos) :
    (s.file.drop p).take n = ((stream c s).drop p).take n := by
  refine ext_getElem? fun i => ?_
  rw [getElem?_take, getElem?_take]
  split
  · rw [getElem?_drop, getElem?_drop, h.file_ack (by omega) (by omega)]
  · rfl

/-! ### Flushing -/

/-- The journal after `_do_flush`. -/
def flushed (s : State) : State :=
  { s with
    pendingFlush :=
      if s.writePos = s.flushPos then s.pendingFlush
      else s.pendingFlush ++ [⟨s.flushPos, s.writeBuf, false⟩]
    flushPos := s.writePos
    writeBuf := [] }

theorem Writer.length_buf (h : Writer c s) : s.writeBuf.length = s.writePos - s.flushPos := by
  rw [h.buf, length_drop, ← h.writePos]

theorem Writer.buf_nil (h : Writer c s) (heq : s.writePos = s.flushPos) : s.writeBuf = [] := by
  refine length_eq_zero_iff.mp ?_
  rw [h.length_buf, heq, Nat.sub_self]

/-- **The spec of `_do_flush`.** -/
theorem doFlush_eq (h : Writer c s) : doFlush s = some (flushed s) := by
  have hlen := h.length_buf
  have hsmall := h.small
  unfold doFlush flushed
  by_cases heq : s.writePos = s.flushPos
  · have hnil := h.buf_nil heq
    cases s
    simp_all
  · have hle := h.flush
    have hmod : (s.writePos - s.flushPos) % 2 ^ 32 = s.writePos - s.flushPos := Nat.mod_eq_of_lt (by omega)
    rw [if_neg heq, if_neg heq, if_pos ⟨by omega, by rw [length_eq hsmall, hmod, hlen]⟩]
    rw [hmod, ← hlen, take_length]

theorem Writer.flushed (h : Writer c s) : Writer c (flushed s) := by
  have hle := h.flush
  have hlen := h.length_buf
  refine { h with
    flush := le_rfl, buf := ?_, small := by simp [Journaler.flushed], ack := ?_, pieces := fun p hp => ?_
    sorted := ?_, file := fun i hi hpi ha => ?_, tail := h.tail, retries := fun r hr => ?_ }
  · exact (drop_eq_nil_of_le h.writePos.symm.le).symm
  · show s.ackPos = _
    rw [h.ack]
    simp only [Journaler.flushed]
    split_ifs with heq
    · rw [heq]
    · cases s.pendingFlush <;> rfl
  · simp only [Journaler.flushed] at hp
    have hold : ∀ p ∈ s.pendingFlush, p.bytes ≠ [] ∧ p.start + p.bytes.length ≤ s.writePos ∧
        p.bytes = ((stream c s).drop p.start).take p.bytes.length := fun p hp => by
      obtain ⟨h1, h2, h3⟩ := h.pieces p hp
      exact ⟨h1, le_trans h2 hle, h3⟩
    split_ifs at hp with heq
    · exact hold p hp
    · rcases mem_append.mp hp with hp | hp
      · exact hold p hp
      · rw [mem_singleton.mp hp]
        refine ⟨fun hn => ?_, ?_, ?_⟩
        · have hn' : s.writeBuf = [] := hn
          rw [hn', length_nil] at hlen
          omega
        · dsimp only [Journaler.flushed]
          omega
        · dsimp only
          rw [h.buf]
          exact (take_length).symm
  · simp only [Journaler.flushed]
    split_ifs
    · exact h.sorted
    · refine pairwise_append.mpr ⟨h.sorted, pairwise_singleton _ _, fun p hp q hq => ?_⟩
      rw [mem_singleton.mp hq]
      exact (h.pieces p hp).2.1
  · simp only [Journaler.flushed] at ha hi
    split_ifs at ha with heq
    · exact h.file i (by omega) hpi ha
    · have hlt : i < s.flushPos := by
        rcases ha _ (mem_append_right _ (mem_singleton_self _)) rfl with hlt | hge
        · exact hlt
        · dsimp only at hge
          omega
      exact h.file i hlt hpi fun p hp => ha p (mem_append_left _ hp)
  · obtain ⟨h1, h2⟩ := h.retries r hr
    exact ⟨h1, le_trans h2 hle⟩

theorem Reader.flushed (h : Reader c s) : Reader c (flushed s) :=
  { h with fresh := fun hr => { h.fresh hr with }, stale := fun hr => { h.stale hr with } }

theorem Inv.flushed (h : Inv c s) : Inv c (flushed s) := ⟨h.ok, h.writer.flushed, h.reader.flushed⟩

theorem Same.refl (s : State) : Same s s := ⟨rfl, rfl, rfl, rfl, rfl, rfl⟩

theorem Same.trans {t : State} (h : Same s s') (h' : Same s' t) : Same s t :=
  ⟨h'.log.trans h.log, h'.start.trans h.start, h'.returned.trans h.returned, h'.readBl.trans h.readBl,
    h'.onReadable.trans h.onReadable, h'.work.trans h.work⟩

theorem work_flushed (h : Writer c s) : (flushed s).work = s.work := by
  simp only [Journaler.flushed, work]
  split_ifs with heq
  · rw [h.buf_nil heq]
  · simp only [map_append, map_cons, map_nil, sum_append, sum_singleton, length_nil]
    omega

theorem Inv.same_flushed (h : Inv c s) : Same s (Journaler.flushed s) :=
  ⟨rfl, rfl, rfl, rfl, rfl, work_flushed h.writer⟩

theorem writer_writeHead (h : Inv c s) : Writer c (writeHead s) := by
  refine { h.writer with heads := fun hd hhd => ?_ }
  rcases mem_cons.mp hhd with rfl | hhd
  · exact h.writer.heads _ mem_cons_self
  · rcases mem_append.mp hhd with hhd | hhd
    · exact h.writer.heads hd (mem_cons_of_mem _ hhd)
    · rw [mem_singleton.mp hhd]
      exact ⟨⟨s.next, h.reader.le, h.reader.readPos⟩, h.writer.ack_le_file⟩

theorem Inv.writeHead (h : Inv c s) : Inv c (writeHead s) := ⟨h.ok, writer_writeHead h,
    { h.reader with fresh := fun hr => { h.reader.fresh hr with }, stale := fun hr => { h.reader.stale hr with } }⟩

/-- **The spec of `flush`.** -/
theorem flush_spec (h : Inv c s) (late : Bool) : ∃ s', flush c late s = some s' ∧ Inv c s' ∧ Same s s' ∧
    s'.Stuck = s.Stuck := by
  have hw := h.writer
  have hnil (heq : s.writePos = s.flushPos) : length s.writeBuf = 0 := by rw [hw.buf_nil heq]; rfl
  have hhead : ∀ t, Inv c t → Same s t → t.Stuck = s.Stuck → ∃ s', (some t).map (fun s =>
      if late then Journaler.writeHead s else s) = some s' ∧ Inv c s' ∧ Same s s' ∧ s'.Stuck = s.Stuck := by
    intro t ht hst hwt
    cases late
    · exact ⟨t, rfl, ht, hst, hwt⟩
    · exact ⟨_, rfl, ht.writeHead, { hst with }, hwt⟩
  unfold flush
  by_cases hack : s.writePos = s.ackPos
  · have := hw.ack_le
    have := hw.flush
    rw [if_pos hack, if_pos (hnil (by omega))]
    exact ⟨s, rfl, h, .refl s, rfl⟩
  · rw [if_neg hack]
    by_cases hfl : s.writePos = s.flushPos
    · rw [if_pos hfl, if_pos (hnil hfl)]
      exact hhead s h (.refl s) rfl
    · rw [if_neg hfl]
      by_cases hb : length s.writeBuf < c.batchMax
      · rw [if_pos hb]
        refine hhead { s with delayFlush := true } ⟨h.ok, { hw with }, ?_⟩ ⟨rfl, rfl, rfl, rfl, rfl, rfl⟩ rfl
        exact { h.reader with
          fresh := fun hr => { h.reader.fresh hr with }, stale := fun hr => { h.reader.stale hr with } }
      · rw [if_neg hb, doFlush_eq hw]
        exact hhead _ h.flushed h.same_flushed rfl

/-! ### Asking for more -/

/-- The reader can ask for `len` bytes. -/
structure Asks (c : Config) (s : State) (len : ℕ) : Prop where
  inv : Inv c s
  fresh : s.repaired = false
  idle : ¬ s.isReading
  more : s.requestedPos ≠ s.writePos
  pos : 0 < len
  small : s.requestedPos - s.readPos + len < 2 ^ 32

/-- **The spec of `_issue_read`.** A read is under way, or waits for a flush. -/
theorem issueRead_spec {len : ℕ} (h : Asks c s len) : ∃ s', issueRead c len s = some s' ∧ Inv c s' ∧
    Same s s' ∧ s'.Awaits ∧ s'.readPos = s.readPos ∧ s'.readBuf = s.readBuf ∧ s'.repaired = false := by
  have hb := h.inv.reader.fresh h.fresh
  have hw := h.inv.writer
  have hreq : s.requestedPos = s.receivedPos := le_antisymm (not_lt.mp h.idle) hb.requested
  have hack : s.requestedPos ≤ s.ackPos := hb.ack.resolve_right fun hc => h.more hc.2.2
  have hack' := hw.ack_le
  have hfl := hw.flush
  have hmore := h.more
  have hlen := h.pos
  have hsmall := h.small
  have hfi := h.inv.flushed
  rw [issueRead, doFlush_eq hw, bind_some, if_neg (by exact h.idle), if_pos ⟨hreq, hack⟩]
  by_cases heq : s.requestedPos = s.ackPos
  · -- stuck at ack_pos
    have hgt : s.ackPos < s.writePos := by omega
    rw [if_pos (show (flushed s).requestedPos = (flushed s).ackPos from heq),
      if_pos (show (flushed s).writePos > (flushed s).requestedPos from heq ▸ hgt),
      if_neg (show ¬ (flushed s).flushPos = (flushed s).ackPos from hgt.ne'), bind_some,
      if_pos (show (flushed s).flushPos > (flushed s).ackPos from hgt)]
    refine ⟨_, rfl, ⟨h.inv.ok, { hfi.writer with retries := fun r hr => ?_ }, ?_⟩,
      ⟨rfl, rfl, rfl, rfl, rfl, work_flushed hw⟩, .inr (by simp), rfl, rfl, h.fresh⟩
    · rcases mem_append.mp hr with hr | hr
      · exact hfi.writer.retries r hr
      · rw [mem_singleton.mp hr]
        exact ⟨hgt, le_rfl⟩
    · refine { h.inv.reader with fresh := fun hr => { hb with }, stale := fun hr => ?_ }
      cases h.fresh.symm.trans hr
  · rw [if_neg (show ¬ (flushed s).requestedPos = (flushed s).ackPos from heq)]
    obtain ⟨n, hn, hpos, hle, hmax⟩ : ∃ n, (if s.requestedPos + len > s.ackPos then s.ackPos - s.requestedPos
        else len) = n ∧ 0 < n ∧ n ≤ len ∧ s.requestedPos + n ≤ s.ackPos := by
      refine ⟨_, rfl, ?_⟩
      split_ifs <;> omega
    refine ⟨{ flushed s with requestedPos := s.requestedPos + n }, by rw [← hn]; rfl,
      ⟨h.inv.ok, { hfi.writer with }, ?_⟩, ⟨rfl, rfl, rfl, rfl, rfl, work_flushed hw⟩, .inl ?_, rfl, rfl, h.fresh⟩
    · refine { h.inv.reader with fresh := fun hr => ?_, stale := fun hr => ?_ }
      · refine { hb with requested := ?_, ack := .inl hmax, small := ?_ }
        · dsimp only [Journaler.flushed]
          omega
        · dsimp only [Journaler.flushed]
          omega
      · cases h.fresh.symm.trans hr
    · show s.receivedPos < s.requestedPos + n
      omega

/-! ### The next entry -/

theorem Buffered.le_write (h : Buffered c s) (hw : Writer c s) : s.requestedPos ≤ s.writePos := by
  have := hw.ack_le
  have := hw.flush
  rcases h.ack with h | h <;> omega

theorem Buffered.length_buf (h : Buffered c s) (hw : Writer c s) :
    s.readBuf.length = s.receivedPos - s.readPos := by
  have := h.le_write hw
  have := h.requested
  have := hw.writePos
  rw [h.buf, length_take, length_drop]
  omega

theorem Buffered.buf_lt (h : Buffered c s) (hw : Writer c s) : s.readBuf.length < 2 ^ 32 := by
  have := h.length_buf hw
  have := h.small
  have := h.requested
  omega

theorem ready_iff (h : s.readBuf.length < 2 ^ 32) : s.Ready ↔ ¬ Short s.readBuf := by
  unfold State.Ready nextSize Short
  rw [length_eq h]
  by_cases h4 : 4 ≤ s.readBuf.length
  · rw [if_pos h4]
    omega
  · omega

theorem Reader.upcoming (h : Reader c s) :
    (∃ x, s.log[s.next]? = some x ∧ (stream c s).drop s.readPos =
        blob.enc x ++ (frames (s.log.drop (s.next + 1)) ++ s.tail)) ∨
      (s.next = s.log.length ∧ (stream c s).drop s.readPos = s.tail) := by
  rw [h.readPos, drop_stream]
  rcases h.le.lt_or_eq with hlt | heq
  · refine .inl ⟨s.log[s.next], getElem?_eq_getElem hlt, ?_⟩
    rw [drop_eq_getElem_cons hlt, frames_cons, append_assoc]
  · refine .inr ⟨heq, ?_⟩
    rw [heq, drop_length, frames_nil, nil_append]

variable {x : Bytes} {p : Piece}

theorem Inv.ready_entry (h : Inv c s) (hr : s.repaired = false) (hx : s.log[s.next]? = some x)
    (hd : (stream c s).drop s.readPos = blob.enc x ++ (frames (s.log.drop (s.next + 1)) ++ s.tail)) :
    s.Ready ↔ 4 + x.length ≤ s.receivedPos - s.readPos := by
  have hb := h.reader.fresh hr
  have hlen := hb.length_buf h.writer
  have hfit := (h.writer.entries x (mem_of_getElem? hx)).2.lt
  rw [ready_iff (hb.buf_lt h.writer)]
  have hbuf := hb.buf
  rw [hd] at hbuf
  have hle : s.receivedPos - s.readPos ≤
      (blob.enc x ++ (frames (s.log.drop (s.next + 1)) ++ s.tail)).length := by
    rw [← hlen, hbuf, length_take]
    exact min_le_right _ _
  rw [hbuf, short_frame_iff hfit hle]
  omega

theorem Inv.not_ready_tail (h : Inv c s) (hr : s.repaired = false) (hd : (stream c s).drop s.readPos = s.tail) :
    ¬ s.Ready := by
  have hb := h.reader.fresh hr
  have hlen := hb.length_buf h.writer
  rw [ready_iff (hb.buf_lt h.writer), not_not]
  have hbuf := hb.buf
  have hshort := h.writer.short
  have hle : s.readBuf.length ≤ s.tail.length := by
    rw [hbuf, hd, length_take]
    exact min_le_right _ _
  by_cases h4 : 4 ≤ s.readBuf.length
  · refine .inr ?_
    have hsize : sizeField s.readBuf = sizeField s.tail := by
      rw [hbuf, hd, sizeField, take_take, min_eq_left (by omega), sizeField]
    rcases hshort with hshort | hshort
    · omega
    · omega
  · exact .inl (not_le.mp h4)

/-- What is missing of the next entry is small. -/
theorem Inv.next_size (hc : c.Fits 0) (h : Inv c s) (hr : s.repaired = false) (hn : ¬ s.Ready) :
    ∃ n, c.Fits n ∧ s.readBuf.length < 4 + n ∧ (s.nextSize = 0 ∨ s.nextSize = n) := by
  have hb := h.reader.fresh hr
  have hlt := hb.buf_lt h.writer
  have hlen := hb.length_buf h.writer
  have hbuf := hb.buf
  by_cases h4 : 4 ≤ s.readBuf.length
  · have hsize : s.nextSize = sizeField s.readBuf := by
      rw [nextSize, length_eq hlt, if_pos h4]
    rcases h.reader.upcoming with ⟨x, hx, hd⟩ | ⟨-, hd⟩
    · have hfit := (h.writer.entries x (mem_of_getElem? hx)).2
      rw [h.ready_entry hr hx hd] at hn
      refine ⟨x.length, hfit, by omega, .inr ?_⟩
      rw [hsize, hbuf, hd]
      exact sizeField_frame hfit.lt (by omega)
    · have hle : s.readBuf.length ≤ s.tail.length := by
        rw [hbuf, hd, length_take]
        exact min_le_right _ _
      have hfield : sizeField s.readBuf = sizeField s.tail := by
        rw [hbuf, hd, sizeField, take_take, min_eq_left (by omega), sizeField]
      refine ⟨sizeField s.tail, h.writer.fits (by omega), ?_, .inr (hsize.trans hfield)⟩
      have hshort := h.writer.short
      unfold Short at hshort
      omega
  · refine ⟨0, hc, by omega, .inl ?_⟩
    rw [nextSize, length_eq hlt, if_neg h4]

/-! ### `is_readable` -/

/-- Only a partial entry is cut off. -/
theorem repair_spec (h : Inv c s) (hr : s.repaired = false) (hne : s.readPos ≠ s.writePos) (hn : ¬ s.Ready)
    (hrec : s.receivedPos = s.writePos) :
    ∃ s', repair s = some s' ∧ Inv c s' ∧ Same s s' ∧ s'.readPos = s'.writePos := by
  have hb := h.reader.fresh hr
  have hw := h.writer
  have hlen := length_stream (c := c) (s := s)
  have hwr := hw.writePos
  obtain ⟨hnext, hd⟩ : s.next = s.log.length ∧ (stream c s).drop s.readPos = s.tail := by
    rcases h.reader.upcoming with ⟨x, hx, hd⟩ | hd
    · refine absurd ?_ hn
      rw [h.ready_entry hr hx hd, hrec, hwr, ← length_drop, hd, List.length_append, length_frame]
      exact Nat.le_add_right _ _
    · exact hd
  have hread : s.readPos = c.period + (frames s.log).length := by
    rw [h.reader.readPos, hnext, take_length]
  have htail : s.tail ≠ [] := by
    intro hnil
    rw [hnil, length_nil] at hlen
    omega
  have hack := hw.tail htail
  have hackle := hw.ack_le
  have hfl := hw.flush
  have hpend : s.pendingFlush = [] := by
    cases hp : s.pendingFlush with
    | nil => rfl
    | cons p ps =>
      have hp' := hw.pieces p (by simp [hp])
      have hlen := length_pos_of_ne_nil hp'.1
      have hack' := hw.ack
      rw [hp] at hack'
      simp only [head?_cons, map_some, getD_some] at hack'
      omega
  have hbuf : s.writeBuf = [] := hw.buf_nil (by omega)
  have hretries : s.retries = [] := eq_nil_iff_forall_not_mem.mpr fun r hr => by
    have := hw.retries r hr
    omega
  have hstream (i : ℕ) (hi : i < s.readPos) : (stream c s)[i]? =
      (replicate c.period (0 : UInt8) ++ frames s.log ++ [])[i]? := by
    rw [stream, append_nil, getElem?_append_left]
    simp only [List.length_append, length_replicate]
    omega
  rw [repair, if_pos (by rw [hbuf]; rfl)]
  refine ⟨_, rfl, ⟨h.ok, ?_, ?_⟩, ⟨rfl, rfl, rfl, rfl, rfl, ?_⟩, rfl⟩
  · refine { hw with
      writePos := ?_, flush := le_rfl, buf := ?_, ack := ?_, pieces := ?_, file := fun i hi hpi _ => ?_
      short := .inl (by simp), fits := by simp, tail := by simp, retries := ?_ }
    · simp [stream, hread]
    · simp [stream, hread, hbuf]
    · simp [hpend]
    · simp [hpend]
    · have hi' : i < s.readPos := hi
      exact (hw.file_ack (by omega) hpi).trans (hstream i hi')
    · simp [hretries]
  · have hle := hb.le_write hw
    have hreq := hb.requested
    have hlen := hb.length_buf hw
    refine { h.reader with
      fresh := fun hf => by simp at hf, stale := fun _ => ⟨?_, ?_, hb.buf_lt hw, hretries, rfl⟩ }
    · show s.requestedPos = s.receivedPos
      omega
    · show s.requestedPos = s.readPos + s.readBuf.length
      omega
  · simp only [work]
    omega

/-- **The spec of `is_readable`.** The next entry is ready, or there is none, or what is
missing has been asked for. -/
theorem isReadable_spec (hc : c.Fits 0) (hpos : 0 < c.fetchLen) (h : Inv c s) (hf : s.Fresh) :
    (s.readPos ≠ s.writePos ∧ s.repaired = false ∧ s.Ready ∧ isReadable c s = some (s, true)) ∨
      ∃ s', isReadable c s = some (s', false) ∧ Inv c s' ∧ Same s s' ∧ s'.Stuck := by
  unfold isReadable
  by_cases heq : s.readPos = s.writePos
  · rw [if_pos heq]
    exact .inr ⟨s, rfl, h, .refl s, .inl heq⟩
  · rw [if_neg heq]
    have hr : s.repaired = false := hf.resolve_right heq
    have hb := h.reader.fresh hr
    by_cases hready : s.Ready
    · rw [if_pos hready]
      exact .inl ⟨heq, hr, hready, rfl⟩
    · rw [if_neg hready]
      refine .inr ?_
      by_cases hrec : s.receivedPos = s.writePos
      · obtain ⟨s', hs', hi, hsame, hend⟩ := repair_spec h hr heq hready hrec
        rw [if_pos hrec, hs']
        exact ⟨s', rfl, hi, hsame, .inl hend⟩
      · rw [if_neg hrec]
        by_cases hread : s.isReading
        · rw [if_pos hread]
          exact ⟨s, rfl, h, .refl s, .inr ⟨hr, hready, .inl hread⟩⟩
        · rw [if_neg hread]
          obtain ⟨n, hfit, hlt, hsize⟩ := h.next_size hc hr hready
          have hreq : s.requestedPos = s.receivedPos := le_antisymm (not_lt.mp hread) hb.requested
          have hlen := hb.length_buf h.writer
          have hbuf := length_eq (hb.buf_lt h.writer)
          have hfetch := h.reader.fetch n hfit
          have hmin := h.reader.fetchLen
          obtain ⟨k, hk, hkle, hkmax⟩ : ∃ k, (if s.nextSize ≠ 0 then max s.fetchLen
              (4 + s.nextSize - length s.readBuf) else s.fetchLen) = k ∧ s.fetchLen ≤ k ∧
              k ≤ max s.fetchLen (4 + n - s.readBuf.length) := by
            refine ⟨_, rfl, ?_⟩
            split_ifs <;> omega
          have hasks : Asks c { s with fetchLen := k } k := by
            refine ⟨⟨h.ok, { h.writer with }, ?_⟩, hr, hread, ?_, by omega, ?_⟩
            · refine { h.reader with
                fresh := fun _ => { hb with }, stale := fun hs => { h.reader.stale hs with }
                fetchLen := le_trans hmin hkle, fetch := fun m hm => ?_ }
              have hm' := h.reader.fetch m hm
              unfold Config.Fits at hm hfit
              show max (4 + m) c.prefetchFrom + k < 2 ^ 32
              omega
            · show s.requestedPos ≠ s.writePos
              omega
            · show s.requestedPos - s.readPos + k < 2 ^ 32
              omega
          obtain ⟨s', hs', hi, hsame, haw, hp, hrb, hrep⟩ := issueRead_spec hasks
          rw [show (if s.nextSize ≠ 0 then max s.fetchLen (4 + s.nextSize - length s.readBuf)
            else s.fetchLen) = k from hk]
          dsimp only
          rw [hs']
          refine ⟨s', rfl, hi, { hsame with }, .inr ⟨hrep, ?_, haw⟩⟩
          have hready' : s'.Ready = s.Ready := by
            simp only [State.Ready, nextSize, hrb]
          rw [hready']
          exact hready

/-! ### Taking entries -/

theorem Inv.not_stuck_of_more (h : Inv c s) (hmore : s.writePos > s.requestedPos) :
    s.readPos ≠ s.writePos := by
  intro heq
  cases hr : s.repaired with
  | false =>
    have hb := h.reader.fresh hr
    have := hb.le
    have := hb.requested
    omega
  | true =>
    have := (h.reader.stale hr).buf
    omega

/-- **The spec of `_prefetch`.** -/
theorem prefetch_spec (hc : c.Fits 0) (hpos : 0 < c.fetchLen) (h : Inv c s) (hf : s.Fresh) :
    ∃ s', prefetch c s = some s' ∧ Inv c s' ∧ Same s s' ∧ (s.Stuck → s'.Stuck) ∧ s'.Fresh := by
  unfold prefetch
  split_ifs with hp
  · obtain ⟨hleft, hidle, hmore⟩ := hp
    have hne := h.not_stuck_of_more hmore
    have hr : s.repaired = false := hf.resolve_right hne
    have hfetch := h.reader.fetch 0 hc
    have hmin := h.reader.fetchLen
    have hasks : Asks c s s.fetchLen := ⟨h, hr, hidle, hmore.ne, by omega, by omega⟩
    obtain ⟨s', hs', hi, hsame, haw, hpos', hrb, hrep⟩ := issueRead_spec hasks
    refine ⟨s', hs', hi, hsame, fun hst => .inr ⟨hrep, ?_, haw⟩, .inl hrep⟩
    have hready : s'.Ready = s.Ready := by
      simp only [State.Ready, nextSize, hrb]
    rw [hready]
    exact (hst.resolve_left hne).2.1
  · exact ⟨s, rfl, h, .refl s, id, hf⟩

/-- The entry `x` was returned. -/
structure Took (s s' : State) (x : Bytes) : Prop where
  next : s.log[s.next]? = some x
  log : s'.log = s.log
  start : s'.start = s.start
  returned : s'.returned = s.returned ++ [x]
  readBl : s'.readBl = s.readBl
  work : s'.work = s.work

theorem Took.same {t : State} (h : Took s s' x) (h' : Same s' t) : Took s t x :=
  ⟨h.next, h'.log.trans h.log, h'.start.trans h.start, h'.returned.trans h.returned,
    h'.readBl.trans h.readBl, h'.work.trans h.work⟩

theorem takeEntry_spec (h : Inv c s) (hr : s.repaired = false) (hready : s.Ready) :
    ∃ s' x, takeEntry s = some s' ∧ Inv c s' ∧ Took s s' x ∧ s'.repaired = false := by
  have hb := h.reader.fresh hr
  have hlen := hb.length_buf h.writer
  have hlt := hb.buf_lt h.writer
  rcases h.reader.upcoming with ⟨x, hx, hd⟩ | ⟨-, hd⟩
  · obtain ⟨hne, hfit⟩ := h.writer.entries x (mem_of_getElem? hx)
    have hpos := length_pos_of_ne_nil hne
    have hall := (h.ready_entry hr hx hd).mp hready
    have hsize : sizeField s.readBuf = x.length := by
      rw [hb.buf, hd]
      exact sizeField_frame hfit.lt (by omega)
    have hdrop : length (s.readBuf.drop 4) = s.readBuf.length - 4 := by
      rw [length_eq (by rw [length_drop]; omega), length_drop]
    have hentry : (s.readBuf.drop 4).take x.length = x := by
      rw [hb.buf, hd, drop_take, blob, append_assoc,
        drop_left' (length_le 4 _), take_take, min_eq_left (by omega)]
      exact take_left' rfl
    have hnext : s.log.take (s.next + 1) = s.log.take s.next ++ [x] := by
      rw [take_add_one, hx]
      rfl
    have hlog : s.next < s.log.length := (List.getElem?_eq_some_iff.mp hx).1
    have hreturned : (s.log.drop s.start).take (s.returned.length + 1) = s.returned ++ [x] := by
      rw [take_add_one, ← h.reader.returned, getElem?_drop]
      rw [show s.start + s.returned.length = s.next from rfl, hx]
      rfl
    simp only [takeEntry, hsize, hentry]
    rw [if_pos ⟨by rw [length_eq hlt]; omega, by rw [length_eq hlt]; omega, by omega, hpos⟩]
    refine ⟨_, x, rfl, ⟨h.ok, { h.writer with }, ?_⟩, ⟨hx, rfl, rfl, rfl, rfl, rfl⟩, hr⟩
    refine { h.reader with
      le := ?_, readPos := ?_, returned := ?_, fresh := fun _ => ?_, stale := fun hs => ?_ }
    · show s.start + (s.returned ++ [x]).length ≤ s.log.length
      rw [List.length_append, length_singleton]
      exact hlog
    · show s.readPos + (4 + x.length) = c.period + (frames (s.log.take (s.start +
        (s.returned ++ [x]).length))).length
      rw [List.length_append, length_singleton,
        show s.start + (s.returned.length + 1) = s.next + 1 from rfl, hnext, frames_append, List.length_append,
        frames_cons, frames_nil, append_nil, length_frame, h.reader.readPos, add_assoc]
    · show s.returned ++ [x] = (s.log.drop s.start).take (s.returned ++ [x]).length
      rw [List.length_append, length_singleton, hreturned]
    · have hsmall := hb.small
      refine { hb with le := ?_, buf := ?_, small := ?_ }
      · dsimp only
        omega
      · show s.readBuf.drop (4 + x.length) = ((stream c s).drop (s.readPos + (4 + x.length))).take
          (s.receivedPos - (s.readPos + (4 + x.length)))
        rw [hb.buf, drop_take, drop_drop, Nat.sub_sub]
      · dsimp only
        omega
    · cases hr.symm.trans hs
  · exact absurd hready (h.not_ready_tail hr hd)

theorem tryReadEntry_ready (hc : c.Fits 0) (hpos : 0 < c.fetchLen) (h : Inv c s)
    (hne : s.readPos ≠ s.writePos) (hr : s.repaired = false) (hready : s.Ready) :
    ∃ s' x, tryReadEntry c s = some (s', true) ∧ Inv c s' ∧ Took s s' x ∧ s'.Fresh := by
  obtain ⟨t, x, ht, hti, htook, htr⟩ := takeEntry_spec h hr hready
  obtain ⟨u, hu, hui, husame, -, hufresh⟩ := prefetch_spec hc hpos hti (.inl htr)
  refine ⟨u, x, ?_, hui, htook.same husame, hufresh⟩
  rw [tryReadEntry, isReadable, if_neg hne, if_pos hready, bind_some, if_pos rfl, ht,
    bind_some, hu, map_some]

/-- **The spec of `try_read_entry`.** The next entry is returned, or there is none, or
what is missing has been asked for. -/
theorem tryReadEntry_spec (hc : c.Fits 0) (hpos : 0 < c.fetchLen) (h : Inv c s) (hf : s.Fresh) :
    (s.readPos ≠ s.writePos ∧ s.Ready ∧ ∃ s' x, tryReadEntry c s = some (s', true) ∧ Inv c s' ∧ Took s s' x ∧
        s'.Fresh) ∨
      ∃ s', tryReadEntry c s = some (s', false) ∧ Inv c s' ∧ Same s s' ∧ s'.Stuck := by
  rcases isReadable_spec hc hpos h hf with ⟨hne, hr, hready, -⟩ | ⟨s', heq, hi, hsame, hst⟩
  · exact .inl ⟨hne, hready, tryReadEntry_ready hc hpos h hne hr hready⟩
  · exact .inr ⟨s', by rw [tryReadEntry, heq]; rfl, hi, hsame, hst⟩

theorem Inv.onReadable (h : Inv c s) (b : Bool) : Inv c { s with onReadable := b } :=
  ⟨h.ok, { h.writer with }, { h.reader with
    fresh := fun hr => { h.reader.fresh hr with }, stale := fun hr => { h.reader.stale hr with } }⟩

theorem Inv.readBl (h : Inv c s) (b : Bool) : Inv c { s with readBl := b } :=
  ⟨h.ok, { h.writer with }, { h.reader with
    fresh := fun hr => { h.reader.fresh hr with }, stale := fun hr => { h.reader.stale hr with } }⟩

section

variable (hc : c.Fits 0) (hpos : 0 < c.fetchLen) (h : Inv c s)
include hc hpos h

/-- **The spec of `read_entry`.** -/
theorem readEntry_spec (hf : s.Fresh)
    (hbl : s.readBl = false) : ∃ s', readEntry c s = some s' ∧ Inv c s' ∧ s'.Waits := by
  unfold readEntry
  rw [if_neg (by simp [hbl])]
  rcases isReadable_spec hc hpos h hf with ⟨hne, hr, hready, heq⟩ | ⟨s', heq, hi, -, hst⟩
  · rw [heq, bind_some, if_pos rfl]
    obtain ⟨t, x, ht, hti, htook, -⟩ := tryReadEntry_ready hc hpos h hne hr hready
    rw [ht, bind_some, if_pos rfl]
    exact ⟨t, rfl, hti, fun hwait => by cases (htook.readBl.trans hbl).symm.trans hwait⟩
  · rw [heq, bind_some, if_neg (by simp)]
    exact ⟨_, rfl, hi.readBl true, fun _ => hst⟩

/-- A waiting `read_entry` gets the entry that is ready. -/
theorem wakeReaders_spec
    (hne : s.readPos ≠ s.writePos) (hr : s.repaired = false) (hready : s.Ready) :
    ∃ s', wakeReaders c s = some s' ∧ Inv c s' ∧ s'.readBl = false ∧ s'.work = s.work ∧ s'.Fresh := by
  have hi := h.onReadable false
  rw [wakeReaders]
  by_cases hbl : s.readBl = true
  · obtain ⟨t, x, ht, hti, htook, htf⟩ := tryReadEntry_ready hc hpos hi hne hr hready
    rw [if_pos (show ({ s with onReadable := false } : State).readBl = true from hbl), ht,
      bind_some, if_pos rfl]
    exact ⟨_, rfl, hti.readBl false, rfl, htook.work, htf⟩
  · rw [if_neg (show ¬ ({ s with onReadable := false } : State).readBl = true from hbl)]
    exact ⟨_, rfl, hi, by simpa using hbl, rfl, .inl hr⟩

/-- **The spec of `_finish_read`.** -/
theorem finishRead_spec (hread : s.isReading) :
    ∃ s', finishRead c s = some s' ∧ Inv c s' ∧ s'.Waits ∧ s'.work < s.work := by
  have hw := h.writer
  have hlt : s.receivedPos < s.requestedPos := hread
  have hr : s.repaired = false := by
    by_contra hne
    have := (h.reader.stale (by simpa using hne)).idle
    omega
  have hb := h.reader.fresh hr
  have hack : s.requestedPos ≤ s.ackPos := hb.ack.resolve_right fun hcache => by omega
  have hle := hb.le
  have hackle := hw.ack_le
  have hfl := hw.flush
  have hwr := hw.writePos
  have hperiod : c.period ≤ s.receivedPos := by
    have := h.reader.readPos
    omega
  have hgot := hw.read_file (p := s.receivedPos) (n := s.requestedPos - s.receivedPos) hperiod (by omega)
  have hlen : ((s.file.drop s.receivedPos).take (s.requestedPos - s.receivedPos)).length =
      s.requestedPos - s.receivedPos := by
    rw [hgot, length_take, length_drop]
    omega
  have hi : Inv c { s with
      receivedPos := s.requestedPos
      readBuf := s.readBuf ++ (s.file.drop s.receivedPos).take (s.requestedPos - s.receivedPos) } := by
    refine ⟨h.ok, { hw with }, { h.reader with fresh := fun _ => ?_, stale := fun hs => ?_ }⟩
    · refine { hb with le := ?_, requested := le_rfl, buf := ?_, ack := .inl hack }
      · dsimp only
        omega
      · show s.readBuf ++ (s.file.drop s.receivedPos).take (s.requestedPos - s.receivedPos) =
          ((stream c s).drop s.readPos).take (s.requestedPos - s.readPos)
        rw [hb.buf, hgot]
        have hsplit : s.requestedPos - s.readPos =
          s.receivedPos - s.readPos + (s.requestedPos - s.receivedPos) := by omega
        rw [hsplit, take_add, drop_drop]
        rw [show s.readPos + (s.receivedPos - s.readPos) = s.receivedPos by omega]
    · cases hr.symm.trans hs
  rw [finishRead]
  rw [hlen, show s.receivedPos + (s.requestedPos - s.receivedPos) = s.requestedPos by omega, if_pos le_rfl]
  have hwork : ({ s with
      receivedPos := s.requestedPos
      readBuf := s.readBuf ++ (s.file.drop s.receivedPos).take (s.requestedPos - s.receivedPos) } :
        State).work < s.work := by
    simp only [work]
    omega
  rcases isReadable_spec hc hpos hi (.inl hr) with ⟨hne, -, hready, heq⟩ | ⟨t, heq, hti, htsame, hst⟩
  · obtain ⟨u, hu, hui, hubl, huwork, huf⟩ := wakeReaders_spec hc hpos hi hne hr hready
    obtain ⟨v, hv, hvi, hvsame, -, -⟩ := prefetch_spec hc hpos hui huf
    rw [heq, bind_some, if_pos rfl, hu, bind_some]
    refine ⟨v, hv, hvi, fun hwait => ?_, ?_⟩
    · cases (hvsame.readBl.trans hubl).symm.trans hwait
    · rw [hvsame.work, huwork]
      exact hwork
  · have htf : t.Fresh := hst.elim .inr fun hst => .inl hst.1
    obtain ⟨v, hv, hvi, hvsame, hvst, -⟩ := prefetch_spec hc hpos hti htf
    rw [heq, bind_some, if_neg (by simp), bind_some]
    refine ⟨v, hv, hvi, fun _ => hvst hst, ?_⟩
    rw [hvsame.work, htsame.work]
    exact hwork

end

/-! ### Acknowledgements -/

theorem Writer.tail_nil (h : Writer c s) (hp : s.pendingFlush ≠ []) : s.tail = [] := by
  by_contra hne
  have hack := h.tail hne
  have hack' := h.ack
  have hfl := h.flush
  obtain ⟨p, ps, hps⟩ := exists_cons_of_ne_nil hp
  obtain ⟨h1, h2, -⟩ := h.pieces p (by simp [hps])
  have hlen := length_pos_of_ne_nil h1
  rw [hps] at hack'
  simp only [head?_cons, map_some, getD_some] at hack'
  omega

theorem Writer.start_inj (h : Writer c s) {p q : Piece} (hp : p ∈ s.pendingFlush) (hq : q ∈ s.pendingFlush)
    (heq : p.start = q.start) : p = q := by
  have hnodup : (s.pendingFlush.map (·.start)).Nodup :=
    pairwise_map.mpr <| h.sorted.imp_of_mem fun {a b} ha _ hab => by
      have := length_pos_of_ne_nil (h.pieces a ha).1
      omega
  exact inj_on_of_nodup_map hnodup hp hq heq

theorem sum_filter_lt {α : Type} (f : α → ℕ) (keep : α → Bool) : ∀ (l : List α) (a : α), a ∈ l → keep a = false →
    0 < f a → ((l.filter keep).map f).sum < (l.map f).sum
  | b :: l, a, ha, hk, hpos => by
    rcases mem_cons.mp ha with rfl | ha
    · have hle : ((l.filter keep).map f).sum ≤ (l.map f).sum :=
        (filter_sublist.map f).sum_le_sum fun _ _ => Nat.zero_le _
      rw [filter_cons_of_neg (by simp [hk]), map_cons, sum_cons]
      omega
    · have hrec := sum_filter_lt f keep l a ha hk hpos
      rw [filter_cons]
      split_ifs <;> simp only [map_cons, sum_cons] <;> omega

/-- The journal when a write is acknowledged, before the waiters are kicked. -/
def acked (start : ℕ) (s : State) : State :=
  let pendingFlush := s.pendingFlush.filter fun p => p.start ≠ start
  let ackPos := (pendingFlush.head?.map (·.start)).getD s.flushPos
  { s with pendingFlush, ackPos, retries := s.retries.filter (ackPos < ·) }

theorem ack_le_acked (h : Writer c s) (start : ℕ) : s.ackPos ≤ (acked start s).ackPos := by
  dsimp only [acked]
  cases hf : s.pendingFlush.filter fun p => p.start ≠ start with
  | nil => exact h.ack_le
  | cons p ps =>
    have hp : p ∈ s.pendingFlush.filter fun p => p.start ≠ start := hf ▸ mem_cons_self
    exact h.ack_le_start (mem_of_mem_filter hp)

theorem acked_inv (h : Inv c s) (hp : p ∈ s.pendingFlush) (hst : p.stored = true) :
    Inv c (acked p.start s) := by
  have hw := h.writer
  have hack := ack_le_acked hw p.start
  have hnil := hw.tail_nil (ne_nil_of_mem hp)
  refine ⟨h.ok, { hw with
    ack := rfl, pieces := fun q hq => hw.pieces q (mem_of_mem_filter hq), sorted := hw.sorted.filter _
    file := fun i hi hpi ha => hw.file i hi hpi fun q hq hqs => ?_, tail := fun hne => absurd hnil hne
    retries := fun r hr => ?_ }, { h.reader with fresh := fun hr => ?_, stale := fun hr => ?_ }⟩
  · by_cases hqp : q.start = p.start
    · rw [hw.start_inj hq hp hqp, hst] at hqs
      cases hqs
    · exact ha q (mem_filter.mpr ⟨hq, by simpa using hqp⟩) hqs
  · obtain ⟨hr, hlt⟩ := mem_filter.mp hr
    exact ⟨of_decide_eq_true hlt, (hw.retries r hr).2⟩
  · have hb := h.reader.fresh hr
    refine { hb with ack := ?_ }
    rcases hb.ack with ha | ha
    · exact .inl (le_trans ha hack)
    · exact .inr ha
  · have hs := h.reader.stale hr
    refine { hs with retries := ?_ }
    dsimp only [acked]
    rw [hs.retries, filter_nil]

theorem State.Stuck.fresh (h : s.Stuck) : s.Fresh := h.elim .inr fun h => .inl h.1

theorem State.Stuck.not_readable (h : s.Stuck) : ¬ (s.readPos ≠ s.writePos ∧ s.Ready) :=
  fun hr => (h.resolve_left hr.1).2.1 hr.2

theorem retryReads_spec (hc : c.Fits 0) (hpos : 0 < c.fetchLen) : ∀ (n : ℕ) {s : State}, Inv c s → s.Fresh →
    ∃ s', retryReads c n s = some s' ∧ Inv c s' ∧ Same s s' ∧ (s.Stuck → s'.Stuck) ∧
      (0 < n → ¬ (s.readPos ≠ s.writePos ∧ s.Ready) → s'.Stuck)
  | 0, s, h, _ => ⟨s, rfl, h, .refl s, id, fun hlt => absurd hlt (lt_irrefl 0)⟩
  | n + 1, s, h, hf => by
    rw [retryReads]
    rcases isReadable_spec hc hpos h hf with ⟨hne, hr, hready, heq⟩ | ⟨t, heq, hti, htsame, hst⟩
    · obtain ⟨u, hu, hui, husame, hust, -⟩ := retryReads_spec hc hpos n h hf
      rw [heq, bind_some]
      exact ⟨u, hu, hui, husame, hust, fun _ hn => absurd ⟨hne, hready⟩ hn⟩
    · obtain ⟨u, hu, hui, husame, hust, -⟩ := retryReads_spec hc hpos n hti hst.fresh
      rw [heq, bind_some]
      exact ⟨u, hu, hui, htsame.trans husame, fun _ => hust hst, fun _ _ => hust hst⟩

/-- **The spec of `_finish_flush`.** -/
theorem finishFlush_spec (hc : c.Fits 0) (hpos : 0 < c.fetchLen) (h : Inv c s) (hwait : s.Waits)
    (hp : p ∈ s.pendingFlush) (hst : p.stored = true) :
    ∃ s', finishFlush c p.start s = some s' ∧ Inv c s' ∧ s'.Waits ∧ s'.work < s.work := by
  have hw := h.writer
  have hi := acked_inv h hp hst
  obtain ⟨hne, hle, -⟩ := hw.pieces p hp
  have hlen := length_pos_of_ne_nil hne
  have hwork : (acked p.start s).work < s.work := by
    have := sum_filter_lt (fun p : Piece => p.bytes.length) (fun q => q.start ≠ p.start) s.pendingFlush p hp
      (by simp) hlen
    simp only [work, acked]
    omega
  have hif : finishFlush c p.start s =
      retryReads c (s.retries.countP (· ≤ (acked p.start s).ackPos)) (acked p.start s) := by
    have hmem : (s.pendingFlush.map (·.start)).contains p.start = true :=
      contains_iff_mem.mpr (mem_map_of_mem hp)
    rw [finishFlush, if_pos ⟨hw.ack_le_start hp, by omega, hmem⟩]
    rfl
  rw [hif]
  by_cases hzero : s.retries.countP (· ≤ (acked p.start s).ackPos) = 0
  · -- nobody waits for this
    rw [hzero]
    refine ⟨_, rfl, hi, fun hbl => ?_, hwork⟩
    have hkeep : (acked p.start s).retries = s.retries := filter_eq_self.mpr fun r hr => by
        have hgt := countP_eq_zero.mp hzero r hr
        exact decide_eq_true (not_le.mp fun hle => hgt (decide_eq_true hle))
    rcases hwait hbl with hend | ⟨hr, hnr, haw⟩
    · exact .inl hend
    · refine .inr ⟨hr, hnr, haw.imp id fun hne => ?_⟩
      rw [hkeep]
      exact hne
  · have hretries : s.retries ≠ [] := fun hnil => hzero (by rw [hnil]; rfl)
    have hr : s.repaired = false := by
      by_contra hne
      exact hretries (h.reader.stale (by simpa using hne)).retries
    obtain ⟨u, hu, hui, husame, -, hust⟩ := retryReads_spec hc hpos
      (s.retries.countP (· ≤ (acked p.start s).ackPos)) hi (.inl hr)
    refine ⟨u, hu, hui, fun hbl => hust (pos_of_ne_zero hzero) ?_, ?_⟩
    · exact (hwait (husame.readBl.symm.trans hbl)).not_readable
    · rw [husame.work]
      exact hwork

/-! ### Appending -/

theorem stream_push (hnil : s.tail = []) : stream c (pushEntry x s) = stream c s ++ blob.enc x := by
  show replicate c.period 0 ++ frames (s.log ++ [x]) ++ s.tail = stream c s ++ blob.enc x
  rw [stream, hnil]
  simp

theorem Boundary.append {log : List Bytes} {p : ℕ} (h : Boundary c log p) (ys : List Bytes) :
    Boundary c (log ++ ys) p := by
  obtain ⟨k, hk, hp⟩ := h
  refine ⟨k, by rw [List.length_append]; omega, ?_⟩
  rw [take_append_of_le_length hk]
  exact hp

theorem Writer.push (h : Writer c s) (hnil : s.tail = []) (hne : x ≠ []) (hfit : c.Fits x.length)
    (hsmall : s.writeBuf.length + (4 + x.length) < 2 ^ 32) : Writer c (pushEntry x s) := by
  have hst := stream_push (c := c) (x := x) hnil
  have hfl := h.flush
  have hwr := h.writePos
  refine { h with
    writePos := ?_, flush := ?_, buf := ?_, small := ?_, pieces := fun p hp => ?_, file := fun i hi hpi ha => ?_
    entries := fun y hy => ?_, tail := fun ht => absurd hnil ht, heads := fun hd hhd => ?_ }
  · rw [hst, List.length_append, length_frame, ← hwr]
    rfl
  · exact le_trans hfl (Nat.le_add_right _ _)
  · rw [hst]
    show s.writeBuf ++ blob.enc x = (stream c s ++ blob.enc x).drop s.flushPos
    rw [drop_append_of_le_length (by omega), h.buf]
  · show (s.writeBuf ++ blob.enc x).length < 2 ^ 32
    rw [List.length_append, length_frame]
    exact hsmall
  · obtain ⟨h1, h2, h3⟩ := h.pieces p hp
    refine ⟨h1, h2, ?_⟩
    rw [hst, drop_append_of_le_length (by omega), take_append_of_le_length]
    · exact h3
    · rw [length_drop]
      omega
  · rw [hst, getElem?_append_left (by have : i < s.flushPos := hi; omega)]
    exact h.file i hi hpi ha
  · rcases mem_append.mp hy with hy | hy
    · exact h.entries y hy
    · rw [mem_singleton.mp hy]
      exact ⟨hne, hfit⟩
  · obtain ⟨h1, h2⟩ := h.heads hd hhd
    exact ⟨h1.append [x], h2⟩

theorem Place.push (h : Place c s) : Place c (pushEntry x s) := by
  have hle : s.start + s.returned.length ≤ s.log.length := h.le
  refine { h with le := ?_, readPos := ?_, returned := ?_ }
  · show s.start + s.returned.length ≤ (s.log ++ [x]).length
    rw [List.length_append]
    omega
  · show s.readPos = c.period + (frames ((s.log ++ [x]).take s.next)).length
    rw [take_append_of_le_length h.le]
    exact h.readPos
  · show s.returned = ((s.log ++ [x]).drop s.start).take s.returned.length
    rw [drop_append_of_le_length (by omega), take_append_of_le_length]
    · exact h.returned
    · rw [length_drop]
      omega

theorem Buffered.push (h : Buffered c s) (hw : Writer c s) (hnil : s.tail = [])
    (hack : s.requestedPos ≤ s.ackPos) : Buffered c (pushEntry x s) := by
  have hle := h.le_write hw
  have hreq := h.requested
  have hwr := hw.writePos
  have hrd := h.le
  refine { h with buf := ?_, ack := .inl hack }
  rw [stream_push hnil]
  show s.readBuf = ((stream c s ++ blob.enc x).drop s.readPos).take (s.receivedPos - s.readPos)
  rw [drop_append_of_le_length (by omega), take_append_of_le_length]
  · exact h.buf
  · rw [length_drop]
    omega

theorem Inv.ready_of_received (h : Inv c s) (hr : s.repaired = false) (hne : s.readPos ≠ s.writePos)
    (hrec : s.receivedPos = s.writePos) (hnil : s.tail = []) : s.Ready := by
  have hwr := h.writer.writePos
  rcases h.reader.upcoming with ⟨x, hx, hd⟩ | ⟨-, hd⟩
  · rw [h.ready_entry hr hx hd, hrec, hwr, ← length_drop, hd, List.length_append, length_frame]
    exact Nat.le_add_right _ _
  · have hlen := congrArg List.length hd
    rw [length_drop, hnil, length_nil, ← hwr] at hlen
    have := (h.reader.fresh hr).le
    omega

/-- The journal after an entry went to both buffers. -/
def cached (x : Bytes) (s : State) : State :=
  { s with
    readBuf := s.readBuf ++ blob.enc x
    requestedPos := s.writePos + (4 + x.length)
    receivedPos := s.writePos + (4 + x.length) }

theorem push_cached (h : Inv c s) (ha : Appendable c s x) (hwait : s.Waits) (hc : c.cache = true)
    (heq : s.writePos = s.readPos + length s.readBuf) : cacheEntry c x s = some (cached x s) ∧
      Inv c (pushEntry x (cached x s)) ∧ (pushEntry x (cached x s)).Waits := by
  have hw := h.writer
  have hsmall : s.readBuf.length < 2 ^ 32 := by
    have := ha.readBuf hc
    omega
  rw [length_eq hsmall] at heq
  have hpos : s.requestedPos = s.receivedPos ∧ s.requestedPos = s.readPos + s.readBuf.length := by
    cases hr : s.repaired with
    | false =>
      have hb := h.reader.fresh hr
      have hlen := hb.length_buf hw
      have hle := hb.le
      have hreq := hb.requested
      have hmax := hb.le_write hw
      omega
    | true => exact ⟨(h.reader.stale hr).idle, (h.reader.stale hr).buf⟩
  have hlen : (s.readBuf ++ blob.enc x).length = s.readBuf.length + (4 + x.length) := by
    rw [List.length_append, length_frame]
  have hread : Reader c (pushEntry x (cached x s)) := by
    refine { Place.push (s := cached x s) { h.reader.toPlace with } with
      fresh := fun hr => ?_, stale := fun hr => ?_ }
    · have hb := h.reader.fresh hr
      have hwr := hw.writePos
      refine ⟨?_, le_rfl, ?_, .inr ⟨hc, rfl, rfl⟩, ?_⟩
      · show s.readPos ≤ s.writePos + (4 + x.length)
        omega
      · rw [stream_push (show (cached x s).tail = [] from ha.tail)]
        show s.readBuf ++ blob.enc x = ((stream c s ++ blob.enc x).drop s.readPos).take
          (s.writePos + (4 + x.length) - s.readPos)
        rw [drop_append_of_le_length (by omega), hb.buf, show s.receivedPos - s.readPos =
          ((stream c s).drop s.readPos).length by rw [length_drop]; omega, take_length,
          take_of_length_le]
        rw [List.length_append, length_drop, length_frame]
        omega
      · show s.writePos + (4 + x.length) - s.readPos < 2 ^ 32
        have := ha.readBuf hc
        omega
    · have hs := h.reader.stale hr
      refine ⟨rfl, ?_, ?_, hs.retries, hs.tail⟩
      · show s.writePos + (4 + x.length) = s.readPos + (s.readBuf ++ blob.enc x).length
        omega
      · show (s.readBuf ++ blob.enc x).length < 2 ^ 32
        have := ha.readBuf hc
        omega
  refine ⟨?_, ⟨h.ok, ?_, hread⟩, fun hbl => ?_⟩
  · rw [cacheEntry, length_eq hsmall, if_pos ⟨hc, heq⟩, if_pos hpos]
    rfl
  · exact Writer.push (s := cached x s) { hw with } ha.tail ha.ne ha.fits ha.writeBuf
  · -- an entry that was received was returned to a waiting read_entry
    have hne : s.readPos ≠ s.writePos := fun hend => ha.waits ⟨hbl, hend⟩
    obtain ⟨hr, hnr, -⟩ := (hwait hbl).resolve_left hne
    exact absurd (h.ready_of_received hr hne (by omega) ha.tail) hnr

theorem push_uncached (h : Inv c s) (ha : Appendable c s x) (hwait : s.Waits)
    (hn : ¬ (c.cache = true ∧ s.writePos = s.readPos + length s.readBuf)) :
    Inv c (pushEntry x s) ∧ (pushEntry x s).Waits := by
  have hw := h.writer
  refine ⟨⟨h.ok, hw.push ha.tail ha.ne ha.fits ha.writeBuf,
    { h.reader.toPlace.push with fresh := fun hr => ?_, stale := fun hr => ?_ }⟩, fun hbl => ?_⟩
  · have hb := h.reader.fresh hr
    refine hb.push hw ha.tail (hb.ack.resolve_right fun ⟨hc, hidle, hend⟩ => hn ⟨hc, ?_⟩)
    have hlen := hb.length_buf hw
    have hle := hb.le
    rw [length_eq (hb.buf_lt hw)]
    omega
  · exact { h.reader.stale hr with }
  · have hne : s.readPos ≠ s.writePos := fun hend => ha.waits ⟨hbl, hend⟩
    exact .inr ((hwait hbl).resolve_left hne)

/-- **The spec of `append_entry`.** -/
theorem appendEntry_spec (h : Inv c s) (hwait : s.Waits) (ha : Appendable c s x)
    (onsync late : Bool) : ∃ s', appendEntry c x onsync late s = some s' ∧ Inv c s' ∧ s'.Waits := by
  have hpad : pad c x.length late s = some s := by
    rw [pad, if_neg]
    rintro ⟨hsplit, hspan⟩
    rcases ha.split with hs | hs
    · cases hsplit.symm.trans hs
    · exact hs hspan
  obtain ⟨t, ht, hti, htw⟩ : ∃ t, cacheEntry c x s = some t ∧ Inv c (pushEntry x t) ∧ (pushEntry x t).Waits := by
    by_cases hcache : c.cache = true ∧ s.writePos = s.readPos + length s.readBuf
    · exact ⟨_, push_cached h ha hwait hcache.1 hcache.2⟩
    · exact ⟨s, by rw [cacheEntry, if_neg hcache], push_uncached h ha hwait hcache⟩
  rw [appendEntry, hpad, bind_some, ht, bind_some]
  cases onsync
  · exact ⟨_, rfl, hti, htw⟩
  · obtain ⟨u, hu, hui, husame, hust⟩ := flush_spec hti late
    refine ⟨u, hu, hui, fun hbl => ?_⟩
    rw [hust]
    exact htw (husame.readBl.symm.trans hbl)

/-! ### The file -/

theorem length_store (f : Bytes) (p : ℕ) (b : Bytes) : f.length ≤ (store f p b).length := by
  unfold store
  split_ifs
  · exact le_rfl
  · simp only [List.length_append, length_take, length_drop, length_replicate]
    omega

theorem getElem?_store_in {f b : Bytes} {p i : ℕ} (h1 : p ≤ i) (h2 : i < p + b.length) :
    (store f p b)[i]? = b[i - p]? := by
  have hne : b ≠ [] := by
    rintro rfl
    simp at h2
    omega
  have htake : ((f ++ replicate (p - f.length) 0).take p).length = p := by
    simp only [length_take, List.length_append, length_replicate]
    omega
  rw [store, if_neg hne, append_assoc, getElem?_append_right (by omega), htake,
    getElem?_append_left (by omega)]

theorem getElem?_store_out {f b : Bytes} {p i : ℕ} (hi : i < f.length) (h : i < p ∨ p + b.length ≤ i) :
    (store f p b)[i]? = f[i]? := by
  unfold store
  split_ifs
  · rfl
  · have htake : ((f ++ replicate (p - f.length) 0).take p).length = p := by
      simp only [length_take, List.length_append, length_replicate]
      omega
    rcases h with h | h
    · rw [append_assoc, getElem?_append_left (by omega), getElem?_take_of_lt h,
        getElem?_append_left hi]
    · rw [getElem?_append_right (by simp only [List.length_append]; omega), getElem?_drop,
        List.length_append, htake]
      congr 1
      omega

/-- A write reaches the file. -/
theorem stored_inv (h : Inv c s) (hp : p ∈ s.pendingFlush) : Inv c { s with
      file := store s.file p.start p.bytes
      pendingFlush := s.pendingFlush.map fun q => if q.start = p.start then { q with stored := true } else q } := by
  have hw := h.writer
  have hlen := length_store s.file p.start p.bytes
  obtain ⟨-, hle, hbytes⟩ := hw.pieces p hp
  have hshape : ∀ q : Piece, (if q.start = p.start then { q with stored := true } else q).start = q.start ∧
      (if q.start = p.start then { q with stored := true } else q).bytes = q.bytes := fun q => by
    split_ifs <;> exact ⟨rfl, rfl⟩
  refine ⟨h.ok, { hw with
    ack := ?_, pieces := fun q hq => ?_, sorted := ?_, base := le_trans hw.base hlen
    file := fun i hi hpi ha => ?_, heads := fun hd hhd => ?_ }, { h.reader with
      fresh := fun hr => { h.reader.fresh hr with }, stale := fun hr => { h.reader.stale hr with } }⟩
  · show s.ackPos = _
    rw [hw.ack]
    cases s.pendingFlush with
    | nil => rfl
    | cons q qs => simp [(hshape q).1]
  · obtain ⟨q, hmem, rfl⟩ := mem_map.mp hq
    rw [(hshape q).1, (hshape q).2]
    exact hw.pieces q hmem
  · refine pairwise_map.mpr (hw.sorted.imp fun {a b} hab => ?_)
    rw [(hshape a).1, (hshape a).2, (hshape b).1]
    exact hab
  · show (store s.file p.start p.bytes)[i]? = (stream c s)[i]?
    have hi' : i < s.flushPos := hi
    by_cases hin : p.start ≤ i ∧ i < p.start + p.bytes.length
    · rw [getElem?_store_in hin.1 hin.2, hbytes, getElem?_take_of_lt (by omega), getElem?_drop]
      congr 1
      omega
    · have hold : s.file[i]? = (stream c s)[i]? := by
        refine hw.file i hi' hpi fun q hq hqs => ?_
        by_cases hqp : q.start = p.start
        · rw [hw.start_inj hq hp hqp]
          omega
        · have hmem := ha q (mem_map.mpr ⟨q, hq, if_neg hqp⟩) hqs
          exact hmem
      have hfl := hw.flush
      have hwr := hw.writePos
      have hlt : i < s.file.length := by
        by_contra hge
        rw [getElem?_eq_none (not_lt.mp hge), getElem?_eq_getElem (by omega)] at hold
        cases hold
      rw [getElem?_store_out hlt (by omega), hold]
  · obtain ⟨h1, h2⟩ := hw.heads hd hhd
    exact ⟨h1, le_trans h2 hlen⟩

/-! ### Restarts -/

theorem setReadPos_spec (h : Inv c s) {p : ℕ} (hidle : ¬ s.isReading) (hbl : s.readBl = false)
    (hack : p ≤ s.ackPos) (hb : Boundary c s.log p) :
    ∃ s', setReadPos c p s = some s' ∧ Inv c s' ∧ s'.Waits := by
  obtain ⟨k, hk, rfl⟩ := hb
  have hreq : s.requestedPos = s.receivedPos := by
    cases hr : s.repaired with
    | false => exact le_antisymm (not_lt.mp hidle) (h.reader.fresh hr).requested
    | true => exact (h.reader.stale hr).idle
  have hindex : index s.log (c.period + (frames (s.log.take k)).length - c.period) = k := by
    rw [Nat.add_sub_cancel_left]
    exact index_take s.log k hk
  rw [setReadPos, if_pos ⟨hreq, hbl⟩, hindex]
  refine ⟨_, rfl, ⟨h.ok, { h.writer with }, { h.reader with
    le := hk, readPos := rfl, returned := by simp, fresh := fun _ => ?_, stale := fun hs => by cases hs }⟩,
    fun hwait => by cases hbl.symm.trans hwait⟩
  exact ⟨le_rfl, le_rfl, by simp, .inl hack, by simp⟩

theorem length_crashFile (part : ℕ → ℕ) (s : State) : s.file.length ≤ (crashFile part s).length := by
  have hfold : ∀ (ps : List Piece) (f : Bytes), f.length ≤ (ps.foldl (fun f p =>
      if p.stored then f else store f p.start (p.bytes.take (part p.start))) f).length := by
    intro ps
    induction ps with
    | nil => exact fun f => le_rfl
    | cons p ps ih =>
      intro f
      rw [foldl_cons]
      refine le_trans ?_ (ih _)
      split_ifs
      · exact le_rfl
      · exact length_store _ _ _
  exact hfold _ _

theorem Boundary.of_prefix {log found : List Bytes} {p : ℕ} (h : Boundary c log p) (hf : found <+: log)
    (hle : p ≤ c.period + (frames found).length) : Boundary c found p := by
  obtain ⟨k, hk, rfl⟩ := h
  obtain ⟨rest, rfl⟩ := hf
  have hkle : k ≤ found.length := by
    by_contra hlt
    have htake : (found ++ rest).take k = found ++ rest.take (k - found.length) := by
      rw [take_append, take_of_length_le (by omega)]
    rw [htake, frames_append, List.length_append] at hle
    rw [List.length_append] at hk
    obtain ⟨y, ys, hy⟩ : ∃ y ys, rest.take (k - found.length) = y :: ys :=
      exists_cons_of_ne_nil fun hnil => by
        have := congrArg List.length hnil
        rw [length_take, length_nil] at this
        omega
    rw [hy, frames_cons, List.length_append, length_frame] at hle
    omega
  refine ⟨k, hkle, ?_⟩
  rw [take_append_of_le_length hkle]

/-- **The spec of `recover`.** -/
theorem recover_spec (h : Inv c s) {part : ℕ → ℕ} (hf : Found c s (crashFile part s)) :
    ∃ s', recover c (crashFile part s) s.head = some s' ∧ Inv c s' ∧ s'.Waits := by
  have hw := h.writer
  have hbase := le_trans hw.base (length_crashFile part s)
  obtain ⟨hbound, hpos⟩ := hw.heads s.head mem_cons_self
  have hbound' := hbound.of_prefix hf.log hf.head
  obtain ⟨k, hk, hread⟩ := hbound'
  obtain ⟨hwhole, hshort⟩ := whole_spec ((crashFile part s).drop c.period)
  rw [recover, if_pos (le_trans hpos (length_crashFile part s))]
  have hindex : index (whole ((crashFile part s).drop c.period)).1 (s.head.readPos - c.period) = k := by
    rw [hread, Nat.add_sub_cancel_left]
    exact index_take _ k hk
  have hlen : (crashFile part s).length = c.period + (frames (whole ((crashFile part s).drop c.period)).1).length +
      (whole ((crashFile part s).drop c.period)).2.length := by
    have := congrArg List.length hwhole
    rw [List.length_append, length_drop] at this
    omega
  rw [hindex]
  refine ⟨_, rfl, ⟨rfl, ?_, ?_⟩, fun hwait => by cases hwait⟩
  · refine {
      writePos := ?_, flush := le_rfl, buf := ?_, small := by simp, ack := rfl, pieces := by simp
      sorted := .nil, base := hbase, file := fun i hi hpi _ => ?_
      entries := fun x hx => hw.entries x (hf.log.subset hx), short := hshort, fits := hf.tail
      tail := fun _ => rfl, heads := fun hd hhd => ?_, retries := by simp }
    · rw [length_stream]
      exact hlen
    · refine (drop_eq_nil_of_le ?_).symm
      rw [length_stream]
      exact hlen.symm.le
    · show (crashFile part s)[i]? = (replicate c.period 0 ++
        frames (whole ((crashFile part s).drop c.period)).1 ++ (whole ((crashFile part s).drop c.period)).2)[i]?
      rw [append_assoc, ← hwhole, getElem?_append_right (by simpa using hpi), length_replicate,
        getElem?_drop, Nat.add_sub_cancel' hpi]
    · rw [mem_singleton.mp hhd]
      exact ⟨⟨k, hk, hread⟩, le_trans hpos (length_crashFile part s)⟩
  · refine {
      le := hk, readPos := hread, returned := by simp, fetchLen := le_rfl, fetch := fun n hn => ?_
      fresh := fun _ => ⟨le_rfl, le_rfl, by simp, .inl ?_, by simp⟩, stale := fun hs => by cases hs }
    · unfold Config.Fits at hn
      show max (4 + n) c.prefetchFrom + c.fetchLen < 2 ^ 32
      omega
    · show s.head.readPos ≤ (crashFile part s).length
      have := hf.head
      omega

theorem init_inv : Inv c (init c) := by
  refine ⟨rfl, ?_, ?_⟩
  · refine {
      writePos := ?_, flush := le_rfl, buf := ?_, small := by simp [init], ack := rfl, pieces := by simp [init]
      sorted := .nil, base := by simp [init], file := fun i hi hpi _ => ?_, entries := by simp [init]
      short := .inl (by simp [init]), fits := by simp [init], tail := fun _ => rfl
      heads := fun hd hhd => ?_, retries := by simp [init] }
    · simp [stream, init]
    · simp [stream, init]
    · exact absurd hpi (not_le.mpr hi)
    · rw [mem_singleton.mp hhd]
      exact ⟨⟨0, Nat.zero_le _, by simp [init]⟩, by simp [init]⟩
  · refine {
      le := le_rfl, readPos := by simp [init], returned := by simp [init], fetchLen := le_rfl
      fetch := fun n hn => ?_, fresh := fun _ => ⟨le_rfl, le_rfl, by simp [init], .inl le_rfl, by simp [init]⟩
      stale := fun hs => by cases hs }
    unfold Config.Fits at hn
    show max (4 + n) c.prefetchFrom + c.fetchLen < 2 ^ 32
    omega

/-! ### Runs -/

/-- A completion: the answer of the file to a read or a write. -/
def Act.Completes : Act → Prop
  | .finishRead | .finishFlush _ => True
  | _ => False

theorem isReadable_waits (hc : c.Fits 0) (hpos : 0 < c.fetchLen) (h : Inv c s) (hf : s.Fresh) (hw : s.Waits) :
    ∃ s' b, isReadable c s = some (s', b) ∧ Inv c s' ∧ s'.Waits := by
  rcases isReadable_spec hc hpos h hf with ⟨-, -, -, heq⟩ | ⟨t, heq, hti, -, hst⟩
  · exact ⟨s, true, heq, h, hw⟩
  · exact ⟨t, false, heq, hti, fun _ => hst⟩

theorem after_some (s t : State) : s.after (some t) = t := rfl

/-- **One step** keeps the invariant, and a completion leaves less to do. -/
theorem step_inv (hc : c.Fits 0) (hpos : 0 < c.fetchLen) {a : Act} (h : Inv c s) (hw : s.Waits)
    (hok : Settled c s a) (hs : step c s a = some s') :
    Inv c s' ∧ s'.Waits ∧ (a.Completes → s'.work < s.work) := by
  unfold step at hs
  rw [if_neg (by simp [h.ok])] at hs
  cases a with
  | append x onsync late =>
    dsimp only at hs
    obtain ⟨t, ht, hti, htw⟩ := appendEntry_spec h hw hok onsync late
    rw [ht] at hs
    cases hs
    exact ⟨hti, htw, False.elim⟩
  | flush late =>
    dsimp only at hs
    obtain ⟨t, ht, hti, htsame, htst⟩ := flush_spec h late
    rw [ht] at hs
    cases hs
    refine ⟨hti, fun hbl => ?_, False.elim⟩
    rw [after_some, htst]
    exact hw (htsame.readBl.symm.trans hbl)
  | delayedFlush =>
    obtain ⟨-, hs⟩ := ite_none_right_eq_some.mp hs
    have hi : Inv c { s with delayFlush := false } := ⟨h.ok, { h.writer with }, { h.reader with
      fresh := fun hr => { h.reader.fresh hr with }, stale := fun hr => { h.reader.stale hr with } }⟩
    rw [doFlush_eq hi.writer] at hs
    cases hs
    exact ⟨hi.flushed, hw, False.elim⟩
  | stored start =>
    dsimp only at hs
    split at hs
    · cases hs
    · next p hp =>
      cases hs
      have hstart : p.start = start := by simpa using find?_some hp
      rw [← hstart]
      exact ⟨stored_inv h (mem_of_find?_eq_some hp), hw, False.elim⟩
  | finishFlush start =>
    obtain ⟨hany, hs⟩ := ite_none_right_eq_some.mp hs
    obtain ⟨p, hp, hst⟩ := any_eq_true.mp hany
    obtain ⟨rfl, hstored⟩ := of_decide_eq_true hst
    obtain ⟨t, ht, hti, htw, hwork⟩ := finishFlush_spec hc hpos h hw hp hstored
    rw [ht] at hs
    cases hs
    exact ⟨hti, htw, fun _ => hwork⟩
  | writeHead =>
    cases hs
    exact ⟨h.writeHead, hw, False.elim⟩
  | finishWriteHead =>
    dsimp only at hs
    split at hs
    · cases hs
    · next hd hds hheads =>
      cases hs
      refine ⟨⟨h.ok, { h.writer with heads := fun hd' hhd => ?_ }, { h.reader with
        fresh := fun hr => { h.reader.fresh hr with }, stale := fun hr => { h.reader.stale hr with } }⟩, hw,
        False.elim⟩
      refine h.writer.heads hd' (mem_cons_of_mem _ ?_)
      rw [hheads]
      exact hhd
  | isReadable =>
    obtain ⟨t, b, ht, hti, htw⟩ := isReadable_waits hc hpos h hok hw
    rw [ht] at hs
    cases hs
    exact ⟨hti, htw, False.elim⟩
  | tryReadEntry =>
    rcases tryReadEntry_spec hc hpos h hok with ⟨hne, hready, t, x, ht, hti, htook, -⟩ | ⟨t, ht, hti, -, hst⟩
    · rw [ht] at hs
      cases hs
      refine ⟨hti, fun hbl => ?_, False.elim⟩
      exact absurd ⟨hne, hready⟩ (hw (htook.readBl.symm.trans hbl)).not_readable
    · rw [ht] at hs
      cases hs
      exact ⟨hti, fun _ => hst, False.elim⟩
  | readEntry =>
    obtain ⟨t, ht, hti, htw⟩ := readEntry_spec hc hpos h hok.1 hok.2
    rw [ht] at hs
    cases hs
    exact ⟨hti, htw, False.elim⟩
  | waitForReadable =>
    obtain ⟨hf, hon, hnr⟩ := hok
    rcases isReadable_spec hc hpos h hf with ⟨hne, -, hready, -⟩ | ⟨t, ht, hti, htsame, hst⟩
    · exact absurd ⟨hne, hready⟩ hnr
    · have hwait : waitForReadable c s = some { t with onReadable := true } := by
        rw [waitForReadable, ht, bind_some, if_neg (by simp [htsame.onReadable, hon])]
      rw [hwait] at hs
      cases hs
      exact ⟨hti.onReadable true, fun _ => hst, False.elim⟩
  | finishRead =>
    obtain ⟨hread, hs⟩ := ite_none_right_eq_some.mp hs
    obtain ⟨t, ht, hti, htw, hwork⟩ := finishRead_spec hc hpos h hread
    rw [ht] at hs
    cases hs
    exact ⟨hti, htw, fun _ => hwork⟩
  | setReadPos p =>
    dsimp only at hs
    obtain ⟨hidle, hbl, hack, hb⟩ := hok
    obtain ⟨t, ht, hti, htw⟩ := setReadPos_spec h hidle hbl hack hb
    rw [ht] at hs
    cases hs
    exact ⟨hti, htw, False.elim⟩
  | restart part =>
    dsimp only at hs
    obtain ⟨t, ht, hti, htw⟩ := recover_spec h hok
    rw [ht] at hs
    cases hs
    exact ⟨hti, htw, False.elim⟩

/-- A read or a write is outstanding. -/
def State.Outstanding (s : State) : Prop := s.isReading ∨ s.pendingFlush ≠ []

theorem Inv.next_of_end (h : Inv c s) (hend : s.readPos = s.writePos) : s.next = s.log.length := by
  have hlen := congrArg List.length (frames_drop s.log s.next)
  rw [List.length_append] at hlen
  have hpos := h.reader.readPos
  have hwr := h.writer.writePos
  rw [length_stream] at hwr
  refine le_antisymm h.reader.le ?_
  by_contra hlt
  have hcons := drop_eq_getElem_cons (not_le.mp hlt)
  rw [hcons, frames_cons, List.length_append, length_frame] at hlen
  omega

theorem Inv.outstanding (h : Inv c s) (hst : s.Stuck) : s.next = s.log.length ∨ s.Outstanding := by
  rcases hst with hend | ⟨-, -, hread | hretries⟩
  · exact .inl (h.next_of_end hend)
  · exact .inr (.inl hread)
  · refine .inr (.inr fun hnil => ?_)
    obtain ⟨r, rs, hr⟩ := exists_cons_of_ne_nil hretries
    have hlt := h.writer.retries r (by simp [hr])
    have hack := h.writer.ack
    rw [hnil] at hack
    simp only [head?_nil, map_none, getD_none] at hack
    omega

/-- What the reader can rely on: the entries are returned in order; a `read_entry` waits
for the end of the journal or for a completion; `try_read_entry` returns the next entry,
if there is one and no completion is outstanding; and each completion leaves less to do. -/
structure Returns (c : Config) (s : State) : Prop where
  inOrder : s.returned <+: s.log.drop s.start
  waiting : s.readBl = true → s.next = s.log.length ∨ s.Outstanding
  tries : s.Fresh →
    (∃ s' x, tryReadEntry c s = some (s', true) ∧ s.log[s.next]? = some x ∧ s'.returned = s.returned ++ [x]) ∨
      ∃ s', tryReadEntry c s = some (s', false) ∧ s'.returned = s.returned ∧
        (s.next = s.log.length ∨ s'.Outstanding)
  completes : ∀ a s', a.Completes → step c s a = some s' → s'.work < s.work

/-- **Journal entries come back in order.** In every run that meets the condition no
assertion fails, and the reader returns the entries that were appended or found at the
last restart, one after the other. -/
theorem entries_in_order (c : Config) (hc : c.Fits 0) (hpos : 0 < c.fetchLen) {s : State}
    (h : Run.Reach (step c) (Settled c) (init c) s) : s.ok = true ∧ Returns c s := by
  obtain ⟨hi, hw⟩ : Inv c s ∧ s.Waits := by
    refine h.inv (fun s => Inv c s ∧ s.Waits) ⟨init_inv, fun hbl => by cases hbl⟩ fun s a s' hi hok hs => ?_
    obtain ⟨h1, h2, -⟩ := step_inv hc hpos hi.1 hi.2 hok hs
    exact ⟨h1, h2⟩
  refine ⟨hi.ok, ?_, fun hbl => hi.outstanding (hw hbl), fun hf => ?_, fun a s' ha hs => ?_⟩
  · rw [hi.reader.returned]
    exact List.take_prefix _ _
  · rcases tryReadEntry_spec hc hpos hi hf with ⟨-, -, t, x, ht, -, htook, -⟩ | ⟨t, ht, hti, hsame, hst⟩
    · exact .inl ⟨t, x, ht, htook.next, htook.returned⟩
    · refine .inr ⟨t, ht, hsame.returned, ?_⟩
      have hnext : t.next = s.next := by rw [State.next, hsame.start, hsame.returned, State.next]
      rw [← hnext, ← hsame.log]
      exact hti.outstanding hst
  · have hok : Settled c s a := by
      cases a <;> first | exact trivial | exact ha.elim
    exact (step_inv hc hpos hi hw hok hs).2.2 ha

/-- A small journal. -/
def small : Config where
  allowSplitEntries := true
  cache := false
  batchMax := 0
  stripeUnit := 64
  period := 8
  fetchLen := 16
  prefetchFrom := 8

/-- An entry is appended at `p` and written. -/
def writeRun (x : Bytes) (p : ℕ) : List Act := [.append x true false, .stored p, .finishFlush p]

/-- The reader asks for more, and gets it. -/
def readRun : List Act := [.tryReadEntry, .finishRead, .tryReadEntry]

/-- Six bytes of the second entry are stored before the restart; the reader returns the
first entry and cuts off the rest. -/
def tornRun : List Act :=
  writeRun [1, 2, 3, 4, 5, 6, 7, 8] 8 ++
    [.append [9, 9, 9, 9, 9, 9, 9, 9, 9, 9] true false, .restart fun _ => 6] ++ readRun ++
    [.finishRead, .tryReadEntry]

/-- After another restart the entries before the partial one and the entry appended after
it was cut off are returned. -/
theorem entries_in_order_torn : ∃ s, Run.Reach (step small) (Settled small) (init small) s ∧
    s.returned = [[1, 2, 3, 4, 5, 6, 7, 8], List.replicate 12 7] ∧ s.ok = true ∧ Returns small s := by
  have hrun : ((Run.exec (step small) (Settled small)
      (tornRun ++ writeRun (replicate 12 7) 20 ++ [.restart fun _ => 0] ++ readRun ++ readRun)
      (init small)).map fun s : State => s.returned) = some [[1, 2, 3, 4, 5, 6, 7, 8], replicate 12 7] := by
    decide +kernel
  obtain ⟨s, hs, hret⟩ := map_eq_some_iff.mp hrun
  have hr := Run.reach_of_exec hs
  exact ⟨s, hr, hret, entries_in_order small (by decide) (by decide) hr⟩

/-- Without the second restart the entry is mixed up with the partial one; and an empty entry
makes an assertion fail. -/
theorem entries_mixed_up :
    (∃ s, Run.Reach (step small) Run.anyAct (init small) s ∧
      s.log = [[1, 2, 3, 4, 5, 6, 7, 8], List.replicate 12 7] ∧
      s.returned = [[1, 2, 3, 4, 5, 6, 7, 8], 9 :: 9 :: List.replicate 8 7] ∧
      ¬ s.returned <+: s.log.drop s.start) ∧
    ∃ s, Run.Reach (step small) Run.anyAct (init small) s ∧ s.ok = false := by
  constructor
  · have hrun : ((Run.exec (step small) Run.anyAct
        (tornRun ++ writeRun (replicate 12 7) 20 ++ readRun)
        (init small)).map fun s : State => (s.log, s.returned, s.start)) =
          some ([[1, 2, 3, 4, 5, 6, 7, 8], replicate 12 7],
            [[1, 2, 3, 4, 5, 6, 7, 8], 9 :: 9 :: replicate 8 7], 0) := by
      decide +kernel
    obtain ⟨s, hs, hret⟩ := map_eq_some_iff.mp hrun
    simp only [Prod.mk.injEq] at hret
    obtain ⟨hlog, hreturned, hstart⟩ := hret
    refine ⟨s, Run.reach_of_exec hs, hlog, hreturned, ?_⟩
    rw [hlog, hreturned, hstart]
    decide
  · have hrun : ((Run.exec (step small) Run.anyAct (writeRun [] 8 ++ readRun)
        (init small)).map fun s : State => s.ok) = some false := by
      decide +kernel
    obtain ⟨s, hs, hok⟩ := map_eq_some_iff.mp hrun
    exact ⟨s, Run.reach_of_exec hs, hok⟩

end Journaler
end Osdc
end Ceph
