/-
# The journal file

`FileJournal` of `ebofs/FileJournal.cc`, with what it needs of the commit
thread: entries are queued, a writer thread takes them from the queue, places
them in the file one after the other and acknowledges them, and each commit
lets go of the epochs before it. `do_write` runs without the lock; in that time
a commit can start and finish, and `write_pos` is read when the bytes go out.

The file is a header and a map from positions to the entries that can be read
there; what `read_entry` checks of an entry (the magics at its two ends) holds
of an entry exactly where it was stamped for. A crash in `do_write` leaves any
part of what is being written.

A callback is named by the entry it was submitted with. Some things are
recorded that the source does not keep: the callbacks that were queued for
completion, and the entries that were written and where.
-/
import Ceph.Lib.Wire
import Ceph.Ebofs.Superblock

namespace Ceph
namespace Ebofs
namespace FileJournal

open Wire (Bytes)

/-- The configuration of a journal; `maxWriteEntries` and `maxWriteBytes` are
`g_conf.ebofs_journal_max_write_entries` and `_bytes`. The block size is a power of
two. -/
structure Config where
  directio : Bool
  blockSize : ℕ
  dvd : blockSize ∣ 2 ^ 31
  maxSize : ℕ                     -- header.max_size
  maxWriteEntries : ℤ
  maxWriteBytes : ℤ

/-- `header.alignment`, a 32-bit number. -/
def Config.alignment (c : Config) : ℕ := if c.directio then c.blockSize else 16

/-- `get_top`; `sizeof(header)` is 88. -/
def Config.top (c : Config) : ℕ := if c.directio then c.blockSize else 88

/-- `ROUND_UP_2(n, d)` for a 32-bit `d`: the mask has 32 bits, too. -/
def roundUp2 (n d : ℕ) : ℕ := (n + d - 1) % 2 ^ 32 / d * d

/-- An entry: the epoch it was submitted in and the encoded transaction. -/
structure Entry where
  epoch : ℕ
  data : Bytes
deriving DecidableEq

/-- The bytes of an entry, with the `entry_header_t` at both ends. -/
def Entry.size (x : Entry) : ℕ := 2 * 32 + x.data.length

/-- `header_t`: `epoch[i]` and `offset[i]` for `i < num`, and `wrap`. -/
@[ext]
structure Header where
  ptrs : List (ℕ × ℕ)
  wrap : ℕ
deriving DecidableEq

namespace Header

/-- The epochs that are listed. -/
def epochs (h : Header) : List ℕ := h.ptrs.map (·.1)

/-- `last_epoch`. -/
def lastEpoch (h : Header) : ℕ := (h.ptrs.getLast?.map (·.1)).getD 0

/-- `clear`. -/
def clear : Header := ⟨[], 0⟩

/-- `pop`. -/
def pop (h : Header) : Header :=
  match h.ptrs with
  | p :: q :: rest => ⟨q :: rest, if p.2 > q.2 then 0 else h.wrap⟩
  | ptrs => ⟨ptrs.tail, h.wrap⟩

/-- `push`; `none` if its assertion fails. -/
def push (h : Header) (e o : ℕ) : Option Header :=
  if h.ptrs.length < 4 then
    match h.ptrs.reverse with
    | p :: q :: _ =>
      -- tail was an epoch boundary; replace it
      if h.ptrs.length > 2 ∧ p.1 = e ∧ q.1 + 1 = e then some { h with ptrs := h.ptrs.dropLast ++ [(e, o)] }
      else some { h with ptrs := h.ptrs ++ [(e, o)] }
    | _ => some { h with ptrs := h.ptrs ++ [(e, o)] }
  else none

end Header

/-- An entry in a buffer, stamped for a position, with the bytes it takes there. -/
structure Item where
  stamp : ℕ
  size : ℕ
  entry : Entry

/-- What `do_write` holds while it has released `write_lock`. -/
structure Flight where
  hbp : Option Header             -- the header to write
  bl : List Item
  oldHeader : Header
  start : ℕ                       -- write_pos when the entries were stamped
  pos : Option ℕ                  -- where they go, once that is read

/-- `bl.length()`. -/
def length (bl : List Item) : ℕ := (bl.map (·.size)).sum

/-- Where the commit thread is. -/
inductive Phase
  | idle
  | started                       -- super_epoch is advanced
  | written                       -- write_super has returned
deriving DecidableEq

/-- The mounted file system. -/
structure Mem where
  superEpoch : ℕ
  phase : Phase
  header : Header
  full : Bool
  mustWriteHeader : Bool
  writePos : ℕ
  writeq : List Entry
  commitq : List (Option Entry)
  writingq : List Entry
  flight : Option Flight          -- writing

/-- The disk, and the mounted file system, if there is one. -/
structure State where
  ok : Bool                       -- no assertion has failed
  header : Header
  file : ℕ → Option Entry
  sbEpoch : ℕ                     -- the epoch of the superblock on disk
  mem : Option Mem
  -- not in the source
  acked : List Entry              -- oncommit was queued for completion
  held : List Item                -- the entries written, and not overwritten or lost since

variable (c : Config)

/-! ### Taking entries from the queue -/

/-- What `check_for_wrap` leaves; the caller keeps its own `pos`. -/
structure Checked where
  header : Header
  mustWriteHeader : Bool
  full : Bool

/-- The first half of `check_for_wrap`: is this an epoch boundary? -/
def epochBoundary (h : Header) (must : Bool) (epoch pos : ℕ) : Option (Header × Bool) :=
  if epoch > h.lastEpoch then (h.push epoch pos).map (·, true) else some (h, must)

/-- The second half: does it fit? -/
def doesItFit (superEpoch : ℕ) (h : Header) (must : Bool) (pos size : ℕ) : Option Checked :=
  let first := (h.ptrs.head?.map (·.2)).getD 0
  if h.wrap ≠ 0 then
    -- we're wrapped.  don't overwrite ourselves.
    some ⟨h, must, pos + size ≥ first⟩
  else if pos + size ≥ c.maxSize then
    if c.top + size < first then
      (({ h with wrap := pos } : Header).push superEpoch c.top).map (⟨·, true, false⟩)
    else some ⟨h, must, true⟩
  else some ⟨h, must, false⟩

/-- `check_for_wrap`; `none` if an assertion fails. -/
def checkForWrap (superEpoch : ℕ) (h : Header) (must : Bool) (epoch pos size : ℕ) : Option Checked :=
  (epochBoundary h must epoch pos).bind fun b => doesItFit c superEpoch b.1 b.2 pos size

/-- The memory while entries are taken, with the buffer. -/
structure Taken where
  header : Header
  mustWriteHeader : Bool
  full : Bool
  writeq : List Entry
  commitq : List (Option Entry)
  writingq : List Entry
  bl : List Item

/-- What `check_for_wrap` says is taken over. -/
def Taken.check (t : Taken) (k : Checked) : Taken :=
  { t with header := k.header, mustWriteHeader := k.mustWriteHeader, full := k.full }

/-- The entry `x` goes into the buffer, and its callback to `writingq`. -/
def Taken.add (t : Taken) (i : Item) : Taken :=
  { t with
    bl := t.bl ++ [i]
    writingq := t.writingq ++ (t.commitq.head?.getD none).toList
    writeq := t.writeq.tail
    commitq := t.commitq.tail }

/-- `prepare_multi_write`, entry by entry of `writeq`. -/
def prepareMultiWrite (superEpoch : ℕ) : List Entry → ℕ → ℤ → ℤ → Taken → Option Taken
  | [], _, _, _, t => some t
  | x :: writeq, queuePos, eleft, bleft, t =>
    if t.bl ≠ [] ∧ bleft > 0 ∧ bleft < x.size then some t
    else
      (checkForWrap c superEpoch t.header t.mustWriteHeader x.epoch queuePos x.size).bind fun k =>
        let t := t.check k
        if k.full then some { t with writeq := [] }
        else if t.bl ≠ [] ∧ k.mustWriteHeader then some t
        else
          let t := t.add ⟨queuePos, x.size, x⟩
          if eleft - 1 = 0 ∨ bleft - x.size = 0 then some t
          else prepareMultiWrite superEpoch writeq (queuePos + x.size) (eleft - 1) (bleft - x.size) t

/-- `prepare_single_dio_write`. -/
def prepareSingleDioWrite (superEpoch writePos : ℕ) (t : Taken) : Option Taken :=
  match t.writeq with
  | [] => some t
  | x :: _ =>
    let size := roundUp2 x.size c.alignment
    (checkForWrap c superEpoch t.header t.mustWriteHeader x.epoch writePos size).map fun k =>
      let t := t.check k
      if k.full then { t with writeq := [] } else t.add ⟨writePos, size, x⟩

/-- The entries of a round of the writer. -/
def take (m : Mem) : Option Taken :=
  let t : Taken := ⟨m.header, false, m.full, m.writeq, m.commitq, m.writingq, []⟩
  if c.directio then prepareSingleDioWrite c m.superEpoch m.writePos t
  else prepareMultiWrite c m.superEpoch m.writeq m.writePos c.maxWriteEntries c.maxWriteBytes t

/-- One round of `write_thread_entry`, up to where `do_write` releases the lock. -/
def prepare (m : Mem) : Option Mem :=
  (take c m).map fun t =>
    let m' := { m with
      header := t.header, mustWriteHeader := t.mustWriteHeader, full := t.full
      writeq := t.writeq, commitq := t.commitq, writingq := t.writingq }
    let f : Flight := ⟨if t.mustWriteHeader then some t.header else none, t.bl, t.header, m.writePos, none⟩
    if t.bl = [] ∧ ¬ t.mustWriteHeader then m' else { m' with flight := some f }

/-! ### Writing -/

/-- The items lie apart. -/
def apart (p n q k : ℕ) : Bool := p + n ≤ q ∨ q + k ≤ p

/-- The file after bytes were written at `p`: what was there is gone, unless `old` says
that it survived, and the entries of `bl` that `new` says are there, if they were stamped
for this place. -/
def persist (file : ℕ → Option Entry) (f : Flight) (p : ℕ) (old new : ℕ → Bool) : ℕ → Option Entry :=
  let cleared q := (file q).filter fun x => apart p (length f.bl) q x.size ∨ old q
  if p = f.start then
    f.bl.foldl (fun g i => if new i.stamp then Function.update g i.stamp (some i.entry) else g) cleared
  else cleared

/-- The items that are held after a write at `p`. -/
def holdAfter (held : List Item) (f : Flight) (p : ℕ) : List Item :=
  held.filter (fun i => apart p (length f.bl) i.stamp i.size) ++ if p = f.start then f.bl else []

/-- The end of `do_write`, when everything is on the disk. -/
def doWriteDone (s : State) (m : Mem) (f : Flight) (p : ℕ) : State :=
  let s := { s with
    header := f.hbp.getD s.header
    file := persist s.file f p (fun _ => false) (fun _ => true)
    held := holdAfter s.held f p }
  if f.oldHeader = m.header then
    { s with
      acked := s.acked ++ m.writingq
      mem := some { m with
        writePos := roundUp2 (m.writePos + length f.bl) c.alignment, writingq := [], flight := none } }
  else if m.writingq = [] then { s with mem := some { m with flight := none } }
  else { s with ok := false }

/-! ### Commits -/

/-- `commit_epoch_start`, after `super_epoch` is advanced. -/
def commitEpochStart (m : Mem) : Mem :=
  if m.full ∧ m.header.ptrs = [] then { m with full := false } else m

/-- The epochs before `e` are popped. -/
def popBefore (e : ℕ) : ℕ → Header → Header
  | 0, h => h
  | n + 1, h =>
    match h.ptrs with
    | [] => h
    | p :: _ => if p.1 < e then popBefore e n h.pop else h

/-- Unwritten entries of the epochs before `e` are dropped, with their callbacks. -/
def dropBefore (e : ℕ) : List Entry → List (Option Entry) → List Entry →
    List Entry × List (Option Entry) × List Entry
  | [], cq, wq => ([], cq, wq)
  | x :: xs, cq, wq =>
    if x.epoch < e then dropBefore e xs cq.tail (wq ++ (cq.head?.getD none).toList) else (x :: xs, cq, wq)

/-- The header and `write_pos` after the epochs before `e` are committed; `none` if an
assertion fails. -/
def trim (m : Mem) (e : ℕ) : Option Mem :=
  if m.full then some { m with header := .clear, writePos := c.top }
  else
    let h := popBefore e m.header.ptrs.length m.header
    if h.ptrs = [] then (h.push e c.top).map fun h => { m with header := h, writePos := c.top }
    else some { m with header := h }

/-- `commit_epoch_finish`, with the callbacks that it queues. -/
def commitEpochFinish (m : Mem) (e : ℕ) : Option (Mem × List Entry) :=
  (trim c m e).map fun m =>
    let d := dropBefore e m.writeq m.commitq m.writingq
    ({ m with mustWriteHeader := true, writeq := d.1, commitq := d.2.1, writingq := [] }, d.2.2)

/-! ### Mounting -/

/-- The place where `open` starts to read; `none` if there is no valid segment. -/
def openPos (h : Header) (superEpoch : ℕ) : Option ℕ :=
  if h.ptrs = [] then some c.top
  else (h.ptrs.takeWhile fun p => p.1 ≤ superEpoch).find? (fun p => p.1 = superEpoch) |>.map (·.2)

/-- The place after a jump at the wrap; `none` if an assertion fails. -/
def wrapPos (h : Header) (readPos : ℕ) : Option ℕ :=
  if readPos ≠ h.wrap then some readPos
  else match ((h.ptrs.zip h.ptrs.tail).find? fun p => p.2.2 < readPos) with
    | none => none
    | some p => if p.1.2 < readPos ∧ p.2.2 ≠ h.wrap then some p.2.2 else none

/-- `read_entry`, until it fails: the entries with their places, and the last place. The
file has at most `fuel` entries. -/
def readEntries (h : Header) (file : ℕ → Option Entry) : ℕ → ℕ → Option (List Item × ℕ)
  | 0, pos => some ([], pos)
  | fuel + 1, pos => (wrapPos h pos).bind fun pos =>
    match file pos with
    | none => some ([], pos)
    | some x => (readEntries h file fuel (roundUp2 (pos + x.size) c.alignment)).map fun r =>
        (⟨pos, x.size, x⟩ :: r.1, r.2)

/-- What `open` and `read_entry` find on the disk: where the reading starts, the entries
and where it ends. -/
def readAll (s : State) : Option (ℕ × List Item × ℕ) :=
  (openPos c s.header s.sbEpoch).bind fun pos => (readEntries c s.header s.file c.maxSize pos).map (pos, ·)

/-- `mount`: the journal is opened and replayed, and made writeable. -/
def mount (s : State) : Option State :=
  (readAll c s).bind fun r =>
    (Superblock.replay s.sbEpoch (r.2.1.map (·.entry.epoch))).map fun superEpoch =>
      { s with
        mem := some
          { superEpoch, phase := .idle, header := s.header, full := false, mustWriteHeader := true
            writePos := if r.2.2 ≠ 0 then r.2.2 else c.top
            writeq := [], commitq := [], writingq := [], flight := none }
        -- what is not read is lost, unless it is older and lies before the start
        held := s.held.filter (fun i => i.stamp + i.size ≤ r.1 ∧ i.entry.epoch < s.sbEpoch) ++ r.2.1 }

/-! ### The system -/

/-- What can happen. -/
inductive Act
  | mount
  | submit (data : Bytes) (oncommit : Bool)
  | prepare
  | seek                                                -- do_write reads write_pos
  | writeDone
  | commitStart
  | superWritten
  | commitFinish
  | crash (header : Bool) (old new : ℕ → Bool)          -- what survives of a write in progress

/-- The disk after a crash in `do_write`. -/
def crashed (s : State) (m : Mem) (header : Bool) (old new : ℕ → Bool) : State :=
  match m.flight with
  | none => { s with mem := none }
  | some f =>
    let s := { s with mem := none, header := if header then f.hbp.getD s.header else s.header }
    match f.pos with
    | none => s
    | some p => { s with
        file := persist s.file f p old new
        held := s.held.filter fun i => apart p (length f.bl) i.stamp i.size ∨ old i.stamp }

/-- One step. -/
def step (s : State) (a : Act) : Option State :=
  if s.ok = false then none
  else match a, s.mem with
  | .mount, none => mount c s
  | .submit data oncommit, some m =>
    let x : Entry := ⟨m.superEpoch, data⟩
    some { s with mem := some { m with
      commitq := m.commitq ++ [if oncommit then some x else none]
      writeq := if m.full then m.writeq else m.writeq ++ [x] } }
  | .prepare, some m =>
    if m.flight.isNone ∧ m.writeq ≠ [] then
      match prepare c m with
      | none => some { s with ok := false }
      | some m => some { s with mem := some m }
    else none
  | .seek, some m =>
    match m.flight with
    | some f =>
      if f.pos.isNone then some { s with mem := some { m with flight := some { f with pos := some m.writePos } } }
      else none
    | none => none
  | .writeDone, some m =>
    match m.flight with
    | some f =>
      match f.pos with
      | some p => some (doWriteDone c s m f p)
      | none => none
    | none => none
  | .commitStart, some m =>
    if m.phase = .idle then
      some { s with mem := some (commitEpochStart { m with superEpoch := m.superEpoch + 1, phase := .started }) }
    else none
  | .superWritten, some m =>
    if m.phase = .started then some { s with sbEpoch := m.superEpoch, mem := some { m with phase := .written } }
    else none
  | .commitFinish, some m =>
    if m.phase = .written then
      match commitEpochFinish c { m with phase := .idle } m.superEpoch with
      | none => some { s with ok := false }
      | some (m, queued) => some { s with mem := some m, acked := s.acked ++ queued }
    else none
  | .crash header old new, some m => some (crashed s m header old new)
  | _, _ => none

/-- `mkfs` and `create`: superblocks of the epochs 0 and 1, and an empty journal. -/
def init : State where
  ok := true
  header := .clear
  file := fun _ => none
  sbEpoch := 1
  mem := none
  acked := []
  held := []

end FileJournal
end Ebofs
end Ceph
