/-
# The MDS journal

`Journaler` of `osdc/Journaler.cc`: entries are appended to a buffer, flushed
to a file and acknowledged; a reader fetches the file in chunks, up to what
was acknowledged, and takes the entries off its own buffer. After a restart
the positions come from the head of the file and from its length.

The `Filer` is a flat file: a write is stored and then acknowledged, in any
order among the writes, and a read returns the bytes that are there. The
lengths of bufferlists have 32 bits. Trimming and the contexts of the callers
are left out; `C_RetryRead` is the only context that acts on the journal. Some things
are recorded that the source does not keep: the entries that were appended
or found at a restart, and those that were returned.
-/
import Ceph.Lib.Run
import Ceph.Lib.Frames

namespace Ceph
namespace Osdc
namespace Journaler

open Wire (Bytes blob unLe frames sizeField whole index)

/-- The configuration and the layout of the file. -/
structure Config where
  allowSplitEntries : Bool
  cache : Bool                    -- g_conf.journaler_cache
  batchMax : ℕ
  stripeUnit : ℕ
  period : ℕ                      -- where the journal starts in the file
  fetchLen : ℕ
  prefetchFrom : ℕ

/-- A write in progress; its start is in `pending_flush`. -/
structure Piece where
  start : ℕ
  bytes : Bytes
  stored : Bool                   -- it is in the file, but not acknowledged

/-- The positions in the head of the file. -/
structure Head where
  readPos : ℕ
  writePos : ℕ
deriving DecidableEq

/-- The journal and its file. -/
structure State where
  ok : Bool                       -- no assertion has failed
  file : Bytes
  head : Head
  heads : List Head               -- heads that are being written
  -- writer
  writePos : ℕ
  flushPos : ℕ
  ackPos : ℕ
  writeBuf : Bytes
  pendingFlush : List Piece
  delayFlush : Bool               -- the event is scheduled
  retries : List ℕ                -- waitfor_flush: C_RetryRead
  -- reader
  readPos : ℕ
  requestedPos : ℕ
  receivedPos : ℕ
  readBuf : Bytes
  fetchLen : ℕ
  readBl : Bool                   -- read_entry is waiting
  onReadable : Bool               -- wait_for_readable is waiting
  -- not in the source
  log : List Bytes                -- the entries in the journal
  tail : Bytes                    -- the partial entry that a restart found
  start : ℕ                       -- the entries before the place where the reading began
  returned : List Bytes           -- the entries returned since
  repaired : Bool                 -- the partial entry was cut off

/-- `bufferlist::length`. -/
def length (b : Bytes) : ℕ := b.length % 2 ^ 32

/-- `_is_reading`. -/
def State.isReading (s : State) : Prop := s.receivedPos < s.requestedPos

instance (s : State) : Decidable s.isReading := inferInstanceAs (Decidable (_ < _))

/-- A file after bytes are written at `p`; a gap is filled with zeros. -/
def store (file : Bytes) (p : ℕ) (b : Bytes) : Bytes :=
  if b = [] then file
  else (file ++ List.replicate (p - file.length) 0).take p ++ b ++ file.drop (p + b.length)

/-! ### Writing -/

/-- `write_head`. -/
def writeHead (s : State) : State :=
  { s with heads := s.heads ++ [⟨s.readPos, s.ackPos⟩] }

/-- `_do_flush`; `none` if an assertion fails. -/
def doFlush (s : State) : Option State :=
  if s.writePos = s.flushPos then some s
  else
    let len := (s.writePos - s.flushPos) % 2 ^ 32
    if s.writePos > s.flushPos ∧ len = length s.writeBuf then
      some { s with
        pendingFlush := s.pendingFlush ++ [⟨s.flushPos, s.writeBuf.take len, false⟩]
        flushPos := s.writePos
        writeBuf := [] }
    else none

variable (c : Config)

/-- `flush`; `late` says that the head was not written for some time. -/
def flush (late : Bool) (s : State) : Option State :=
  if s.writePos = s.ackPos then
    -- all flushed and acked
    if length s.writeBuf = 0 then some s else none
  else
    (if s.writePos = s.flushPos then
      if length s.writeBuf = 0 then some s else none
    else if length s.writeBuf < c.batchMax then some { s with delayFlush := true }
    else doFlush s).map fun s => if late then writeHead s else s

/-- An entry of `n` bytes would span a stripe boundary. -/
def State.spans (s : State) (n : ℕ) : Prop :=
  s.writePos / c.stripeUnit ≠ (s.writePos + (n + 4)) / c.stripeUnit

instance (s : State) (n : ℕ) : Decidable (s.spans c n) := inferInstanceAs (Decidable (_ ≠ _))

/-- The first part of `append_entry`: padding up to the stripe boundary. -/
def pad (n : ℕ) (late : Bool) (s : State) : Option State :=
  if c.allowSplitEntries = false ∧ s.spans c n then
    let writePos := s.writePos + c.stripeUnit - (s.writePos + c.stripeUnit) % c.stripeUnit
    if writePos - s.writePos ≥ 4 then
      flush c late { s with
        writePos, writeBuf := s.writeBuf ++ List.replicate (writePos - s.writePos) 0 }
    else none
  else some s

/-- The second part of `append_entry`: the entry goes to the reader's buffer, too. -/
def cacheEntry (x : Bytes) (s : State) : Option State :=
  if c.cache = true ∧ s.writePos = s.readPos + length s.readBuf then
    if s.requestedPos = s.receivedPos ∧ s.requestedPos = s.readPos + length s.readBuf then
      some { s with
        readBuf := s.readBuf ++ blob.enc x
        requestedPos := s.writePos + (4 + x.length)
        receivedPos := s.writePos + (4 + x.length) }
    else none
  else some s

/-- The third part of `append_entry`. -/
def pushEntry (x : Bytes) (s : State) : State :=
  { s with
    writeBuf := s.writeBuf ++ blob.enc x
    writePos := s.writePos + (4 + x.length)
    log := s.log ++ [x] }

/-- `append_entry`. -/
def appendEntry (x : Bytes) (onsync late : Bool) (s : State) : Option State :=
  (pad c x.length late s).bind fun s => (cacheEntry c x s).bind fun s =>
    if onsync then flush c late (pushEntry x s) else some (pushEntry x s)

/-! ### Reading -/

/-- `_issue_read`. -/
def issueRead (len : ℕ) (s : State) : Option State :=
  (doFlush s).bind fun s =>
    if s.isReading then some s
    else if s.requestedPos = s.receivedPos ∧ s.requestedPos ≤ s.ackPos then
      if s.requestedPos = s.ackPos then
        -- stuck at ack_pos
        if s.writePos > s.requestedPos then
          (if s.flushPos = s.ackPos then flush c false s else some s).bind fun s =>
            if s.flushPos > s.ackPos then some { s with retries := s.retries ++ [s.flushPos] } else none
        else none
      else
        -- don't read too much
        let len := if s.requestedPos + len > s.ackPos then s.ackPos - s.requestedPos else len
        some { s with requestedPos := s.requestedPos + len }
    else none

/-- `_prefetch`. -/
def prefetch (s : State) : Option State :=
  if s.requestedPos - s.readPos ≤ c.prefetchFrom ∧ ¬ s.isReading ∧ s.writePos > s.requestedPos then
    issueRead c s.fetchLen s
  else some s

/-- The length of the next entry, as far as it is known. -/
def State.nextSize (s : State) : ℕ := if length s.readBuf ≥ 4 then sizeField s.readBuf else 0

/-- The next entry is in the buffer. -/
def State.Ready (s : State) : Prop := length s.readBuf ≥ 4 ∧ length s.readBuf ≥ 4 + s.nextSize

instance (s : State) : Decidable s.Ready := inferInstanceAs (Decidable (_ ∧ _))

/-- The partial entry at the tail is cut off. -/
def repair (s : State) : Option State :=
  if length s.writeBuf = 0 then
    some { s with
      writePos := s.readPos, flushPos := s.readPos, ackPos := s.readPos
      tail := [], repaired := true }
  else none

/-- `is_readable`. -/
def isReadable (s : State) : Option (State × Bool) :=
  if s.readPos = s.writePos then some (s, false)
  else if s.Ready then some (s, true)
  else if s.receivedPos = s.writePos then (repair s).map (·, false)
  else if s.isReading then some (s, false)
  else
    let fetchLen :=
      if s.nextSize ≠ 0 then max s.fetchLen (4 + s.nextSize - length s.readBuf) else s.fetchLen
    (issueRead c fetchLen { s with fetchLen }).map (·, false)

/-- The entry at the head of the buffer is taken off; `none` if an assertion fails, also
in `splice`, which refuses to take nothing. -/
def takeEntry (s : State) : Option State :=
  let n := sizeField s.readBuf
  if length s.readBuf ≥ 4 ∧ length s.readBuf ≥ 4 + n ∧ 0 < length (s.readBuf.drop 4) ∧ 0 < n then
    some { s with
      readBuf := s.readBuf.drop (4 + n)
      readPos := s.readPos + (4 + n)
      returned := s.returned ++ [(s.readBuf.drop 4).take n] }
  else none

/-- `try_read_entry`, and whether it returned an entry. -/
def tryReadEntry (s : State) : Option (State × Bool) :=
  (isReadable c s).bind fun r =>
    if r.2 then (takeEntry r.1).bind fun s => (prefetch c s).map (·, true) else some (r.1, false)

/-- `read_entry`. -/
def readEntry (s : State) : Option State :=
  if s.readBl then none
  else
    (isReadable c s).bind fun r =>
      if r.2 then (tryReadEntry c r.1).bind fun r => if r.2 then some r.1 else none
      else some { r.1 with readBl := true }

/-- `wait_for_readable`. -/
def waitForReadable (s : State) : Option State :=
  (isReadable c s).bind fun r =>
    if r.2 ∨ r.1.onReadable then none else some { r.1 with onReadable := true }

/-- The waiting callbacks of `_finish_read`. -/
def wakeReaders (s : State) : Option State :=
  let s := { s with onReadable := false }
  if s.readBl then
    (tryReadEntry c s).bind fun r => if r.2 then some { r.1 with readBl := false } else none
  else some s

/-- `_finish_read`. -/
def finishRead (s : State) : Option State :=
  let got := (s.file.drop s.receivedPos).take (s.requestedPos - s.receivedPos)
  let s := { s with receivedPos := s.receivedPos + got.length, readBuf := s.readBuf ++ got }
  if s.receivedPos ≤ s.requestedPos then
    (isReadable c s).bind fun r => (if r.2 then wakeReaders c r.1 else some r.1).bind (prefetch c)
  else none

/-- `is_readable`, as often as `C_RetryRead` was queued. -/
def retryReads : ℕ → State → Option State
  | 0, s => some s
  | n + 1, s => (isReadable c s).bind fun r => retryReads n r.1

/-- `_finish_flush`. -/
def finishFlush (start : ℕ) (s : State) : Option State :=
  if start ≥ s.ackPos ∧ start < s.flushPos ∧ (s.pendingFlush.map (·.start)).contains start then
    let pendingFlush := s.pendingFlush.filter fun p => p.start ≠ start
    let ackPos := ((pendingFlush.head?).map (·.start)).getD s.flushPos
    -- kick waiters <= ack_pos
    retryReads c (s.retries.countP (· ≤ ackPos))
      { s with pendingFlush, ackPos, retries := s.retries.filter (ackPos < ·) }
  else none

/-! ### Restarts -/

/-- `set_read_pos`. -/
def setReadPos (p : ℕ) (s : State) : Option State :=
  if s.requestedPos = s.receivedPos ∧ s.readBl = false then
    some { s with
      readPos := p, requestedPos := p, receivedPos := p, readBuf := []
      start := index s.log (p - c.period), returned := [], repaired := false }
  else none

/-- The file after a crash: of a write in progress, some bytes were stored. -/
def crashFile (part : ℕ → ℕ) (s : State) : Bytes :=
  s.pendingFlush.foldl (fun f p => if p.stored then f else store f p.start (p.bytes.take (part p.start))) s.file

/-- `recover`, with `_finish_read_head` and `_finish_probe_end`. -/
def recover (file : Bytes) (head : Head) : Option State :=
  let found := whole (file.drop c.period)
  if file.length ≥ head.writePos then
    some
      { ok := true, file, head, heads := []
        writePos := file.length, flushPos := file.length, ackPos := file.length
        writeBuf := [], pendingFlush := [], delayFlush := false, retries := []
        readPos := head.readPos, requestedPos := head.readPos, receivedPos := head.readPos
        readBuf := [], fetchLen := c.fetchLen, readBl := false, onReadable := false
        log := found.1, tail := found.2, start := index found.1 (head.readPos - c.period)
        returned := [], repaired := false }
  else none

/-! ### The system -/

/-- What can happen. -/
inductive Act
  | append (x : Bytes) (onsync late : Bool)
  | flush (late : Bool)
  | delayedFlush                            -- C_DelayFlush
  | stored (start : ℕ)                      -- a write reaches the file
  | finishFlush (start : ℕ)                 -- and is acknowledged
  | writeHead
  | finishWriteHead
  | isReadable
  | tryReadEntry
  | readEntry
  | waitForReadable
  | finishRead
  | setReadPos (p : ℕ)
  | restart (part : ℕ → ℕ)

/-- The journal after a call; if an assertion failed, that is all there is to say. -/
def State.after (s : State) (r : Option State) : State := r.getD { s with ok := false }

/-- One step. -/
def step (s : State) (a : Act) : Option State :=
  if s.ok = false then none
  else match a with
  | .append x onsync late => some (s.after (appendEntry c x onsync late s))
  | .flush late => some (s.after (flush c late s))
  | .delayedFlush => if s.delayFlush then some (s.after (doFlush { s with delayFlush := false })) else none
  | .stored start =>
    match s.pendingFlush.find? (·.start = start) with
    | none => none
    | some p => some { s with
        file := store s.file p.start p.bytes
        pendingFlush := s.pendingFlush.map fun q => if q.start = start then { q with stored := true } else q }
  | .finishFlush start =>
    if s.pendingFlush.any (fun p => p.start = start ∧ p.stored) then some (s.after (finishFlush c start s))
    else none
  | .writeHead => some (writeHead s)
  | .finishWriteHead =>
    match s.heads with
    | [] => none
    | h :: hs => some { s with head := h, heads := hs }
  | .isReadable => some (s.after ((isReadable c s).map (·.1)))
  | .tryReadEntry => some (s.after ((tryReadEntry c s).map (·.1)))
  | .readEntry => some (s.after (readEntry c s))
  | .waitForReadable => some (s.after (waitForReadable c s))
  | .finishRead => if s.isReading then some (s.after (finishRead c s)) else none
  | .setReadPos p => some (s.after (setReadPos c p s))
  | .restart part => some (s.after (recover c (crashFile part s) s.head))

/-- `reset`, with the head written. -/
def init : State where
  ok := true
  file := List.replicate c.period 0
  head := ⟨c.period, c.period⟩
  heads := []
  writePos := c.period
  flushPos := c.period
  ackPos := c.period
  writeBuf := []
  pendingFlush := []
  delayFlush := false
  retries := []
  readPos := c.period
  requestedPos := c.period
  receivedPos := c.period
  readBuf := []
  fetchLen := c.fetchLen
  readBl := false
  onReadable := false
  log := []
  tail := []
  start := 0
  returned := []
  repaired := false

end Journaler
end Osdc
end Ceph
