/-
# The log of a placement group on disk

`write_log` writes the whole log as an object of the store, `append_log` adds
an entry at its end, and each trim of the log moves `ondisklog.bottom` up to the
start of a block of 4096 bytes, as far as `block_map` tells that it may: the
entries between there and the log's bottom stay on the disk, and `read_log`
leaves out what is not newer than the bottom, unless there is a backlog.

An entry takes the same number of bytes each time, whatever is in it; with
`osd_pad_pg_log` it is filled up to 4096 with bytes that nothing is known of.
The changes of a call reach the store in one transaction. What `read_log` finds
missing is left out here.
-/
import Ceph.Lib.Wire
import Ceph.Osd.LogIndex

namespace Ceph
namespace Osd
namespace Ondisk

open List Option
open PGLog
open Wire (Bytes)

/-- How entries are written: `osd_pad_pg_log`, `sizeof(Log::Entry)`, the entries
whose numbers are in the range of their types, and the bytes of an entry and of its padding. -/
structure Config where
  pad : Bool
  size : ℕ
  fits : Entry → Bool
  enc : Entry → Bytes
  dec : Bytes → Entry
  padding : Entry → Bytes
  size_pos : 0 < size
  size_le : size ≤ 4096
  length_enc : ∀ e, (enc e).length = size
  dec_enc : ∀ e, fits e = true → dec (enc e) = e
  length_padding : ∀ e, (padding e).length = 4096 - size

/-- `OndiskLog`. -/
structure Ondisklog where
  bottom : ℕ
  top : ℕ
  blockMap : List (ℕ × EVersion)
deriving DecidableEq

/-- `PG::Info`, as far as it is of the log. -/
structure Info where
  lastUpdate : EVersion
  logBottom : EVersion
  logBacklog : Bool
deriving DecidableEq

/-- The object of the log, and the attributes of the collection. -/
structure Disk where
  object : Bytes
  ondisklogBottom : ℕ
  ondisklogTop : ℕ
  info : Info

/-- A PG in memory, and what the store has of it. -/
structure State where
  log : IndexedLog
  ondisklog : Ondisklog
  info : Info
  disk : Disk

/-! ### The store -/

/-- `write`: a gap before the offset reads as zeros. -/
def write (object : Bytes) (off : ℕ) (bl : Bytes) : Bytes :=
  (object ++ List.replicate (off - object.length) 0).take off ++ bl ++ object.drop (off + bl.length)

/-- `zero`, from the object's start. -/
def zero (object : Bytes) (len : ℕ) : Bytes := List.replicate (min len object.length) 0 ++ object.drop len

/-- `read`: what there is. -/
def read (object : Bytes) (off len : ℕ) : Bytes := (object.drop off).take len

/-! ### Writing -/

section log

variable (c : Config)

/-- The bytes that an entry takes on the disk. -/
def stride : ℕ := if c.pad then 4096 else c.size

/-- An entry on the disk. -/
def record (e : Entry) : Bytes := c.enc e ++ if c.pad then c.padding e else []

/-- `block_map[off] = v`. -/
def setBlock (m : List (ℕ × EVersion)) (off : ℕ) (v : EVersion) : List (ℕ × EVersion) :=
  m.takeWhile (fun b => b.1 < off) ++ (off, v) :: m.dropWhile fun b => b.1 ≤ off

/-- The loop of `write_log`: the buffer and the block map so far. -/
def assemble : List Entry → Bytes → List (ℕ × EVersion) → Bytes × List (ℕ × EVersion)
  | [], bl, m => (bl, m)
  | p :: ps, bl, m =>
    assemble ps (bl ++ record c p) (if bl.length % 4096 = 0 then setBlock m bl.length p.version else m)

/-- `write_log`. -/
def writeLog (s : State) : State :=
  let r := assemble c s.log.log [] []
  { s with
    ondisklog := ⟨0, r.1.length, r.2⟩
    disk := ⟨write [] 0 r.1, 0, r.1.length, s.info⟩ }

/-- The walk of `trim_ondisklog_to` to the last block that starts no later than
`v`: what is left of the map from there on. -/
def seekBlock (v : EVersion) : List (ℕ × EVersion) → List (ℕ × EVersion)
  | [] => []
  | [b] => [b]
  | b :: b' :: rest => if v < b'.2 then b :: b' :: rest else seekBlock v (b' :: rest)

/-- `trim_ondisklog_to`. -/
def trimOndisklogTo (s : State) (v : EVersion) : Except Assert State :=
  match seekBlock v s.ondisklog.blockMap with
  | [] => .ok s
  | p :: rest =>
    if (p :: rest).length = s.ondisklog.blockMap.length then .ok s
    else if s.ondisklog.bottom ≤ p.1 then
      .ok { s with
        ondisklog := ⟨p.1, s.ondisklog.top, p :: rest⟩
        disk := { s.disk with
          object := zero s.disk.object p.1, ondisklogBottom := p.1, ondisklogTop := s.ondisklog.top } }
    else .error .other

/-- `append_log`. -/
def appendLog (s : State) (e : Entry) (trimTo : EVersion) : Except Assert State :=
  let bl := record c e
  let top := s.ondisklog.top
  let m := if top % 4096 = 0 then setBlock s.ondisklog.blockMap top e.version else s.ondisklog.blockMap
  let s : State := { s with
    ondisklog := { s.ondisklog with top := top + bl.length, blockMap := m }
    disk := { s.disk with object := write s.disk.object top bl, ondisklogTop := top + bl.length } }
  if s.log.bottom < trimTo then
    (s.log.trim trimTo).bind fun l =>
      trimOndisklogTo { s with log := l, info := { s.info with logBottom := l.bottom, logBacklog := l.backlog } } trimTo
  else .ok s

/-- `prepare_log_transaction`, and the info that `prepare_op_transaction`
writes. (An entry for a clone is no more than logged: `prepare_op_transaction`
asserts that there is none.) -/
def prepareLog (s : State) (e : Entry) (trimTo : EVersion) : Except Assert State :=
  (s.log.add e).bind fun l => (appendLog c { s with log := l } e trimTo).bind fun s =>
    if s.info.lastUpdate < e.version then
      let info := { s.info with lastUpdate := e.version }
      .ok { s with info := info, disk := { s.disk with info := info } }
    else .error .other

/-! ### Reading -/

/-- An entry is in the log: it is newer than the bottom, or there is a backlog. -/
def Live (info : Info) (v : EVersion) : Prop := info.logBottom < v ∨ info.logBacklog = true

instance (info : Info) (v : EVersion) : Decidable (Live info v) := inferInstanceAs (Decidable (_ ∨ _))

/-- The loop of `read_log`, of at most so many rounds: the log and the block map so far. -/
def readEntries (info : Info) (bl : Bytes) (bottom top : ℕ) :
    ℕ → ℕ → List Entry → List (ℕ × EVersion) → Option (List Entry × List (ℕ × EVersion))
  | 0, _, _, _ => none
  | n + 1, pos, log, m =>
    if pos < top then
      if pos - bottom + c.size ≤ bl.length then
        let e := c.dec (read bl (pos - bottom) c.size)
        if Live info e.version then
          readEntries info bl bottom top n (pos + stride c) (log ++ [e])
            (if pos % 4096 = 0 then setBlock m pos e.version else m)
        else readEntries info bl bottom top n (pos + stride c) log m
      else none
    else some (log, m)

/-- `read_log`; `none` is a failed assertion. -/
def readLog (d : Disk) : Option (IndexedLog × Ondisklog) :=
  (if 0 < d.ondisklogTop then
    let bl := read d.object d.ondisklogBottom (d.ondisklogTop - d.ondisklogBottom)
    if bl.length < d.ondisklogTop - d.ondisklogBottom then none
    else readEntries c d.info bl d.ondisklogBottom d.ondisklogTop (d.ondisklogTop + 1) d.ondisklogBottom [] []
  else some ([], [])).map fun r =>
    (⟨⟨r.1, d.info.lastUpdate, d.info.logBottom, d.info.logBacklog⟩, Index.all r.1, none, none⟩,
      ⟨d.ondisklogBottom, d.ondisklogTop, r.2⟩)

/-! ### Runs -/

/-- A call: `write_log`, after peering has put a log together; a modification;
or the OSD starts again. -/
inductive Act
  | writeLog (l : IndexedLog)
  | modify (e : Entry) (trimTo : EVersion)
  | restart

/-- One call; there is no next state where an assertion fails. -/
def step (s : State) : Act → Option State
  | .writeLog l => some (writeLog c { s with log := l, info := ⟨l.top, l.bottom, l.backlog⟩ })
  | .modify e trimTo => (prepareLog c s e trimTo).toOption
  | .restart => (readLog c s.disk).map fun r => { s with log := r.1, ondisklog := r.2, info := s.disk.info }

end log

/-! ### Entries one after the other -/

section records

variable (c : Config)

/-- Entries on the disk. -/
def records (es : List Entry) : Bytes := es.flatMap (record c)

/-- The blocks that an entry starts at, and its version, with the entries from `pos` on. -/
def blocks : ℕ → List Entry → List (ℕ × EVersion)
  | _, [] => []
  | pos, e :: es => (if pos % 4096 = 0 then [(pos, e.version)] else []) ++ blocks (pos + stride c) es

theorem stride_pos : 0 < stride c := by
  unfold stride
  split
  · decide
  · exact c.size_pos

theorem size_le_stride : c.size ≤ stride c := by
  unfold stride
  split
  · exact c.size_le
  · exact le_rfl

@[simp] theorem length_record (e : Entry) : (record c e).length = stride c := by
  unfold record stride
  have hsize := c.size_le
  by_cases hpad : c.pad = true
  · rw [if_pos hpad, if_pos hpad, length_append, c.length_enc, c.length_padding]
    omega
  · rw [if_neg hpad, if_neg hpad, append_nil, c.length_enc]

theorem dec_record {e : Entry} (h : c.fits e = true) (bl : Bytes) : c.dec ((record c e ++ bl).take c.size) = e := by
  unfold record
  rw [append_assoc, take_left' (c.length_enc e), c.dec_enc e h]

@[simp] theorem records_nil : records c [] = [] := rfl

@[simp] theorem records_cons (e : Entry) (es : List Entry) : records c (e :: es) = record c e ++ records c es := rfl

@[simp] theorem records_append (es es' : List Entry) : records c (es ++ es') = records c es ++ records c es' := by
  simp [records]

@[simp] theorem length_records (es : List Entry) : (records c es).length = stride c * es.length := by
  induction es with
  | nil => simp
  | cons e es ih =>
    rw [records_cons, length_append, length_record, ih, length_cons]
    ring

theorem blocks_append (es es' : List Entry) : ∀ pos : ℕ,
    blocks c pos (es ++ es') = blocks c pos es ++ blocks c (pos + stride c * es.length) es' := by
  induction es with
  | nil => exact fun pos => by simp [blocks]
  | cons e es ih =>
    intro pos
    have hpos : pos + stride c + stride c * es.length = pos + stride c * (e :: es).length := by
      rw [length_cons]
      ring
    rw [cons_append, blocks, blocks, ih, hpos, append_assoc]

variable {b : ℕ × EVersion}

theorem mem_blocks : ∀ {es : List Entry} {pos : ℕ}, b ∈ blocks c pos es →
    ∃ pre e post, es = pre ++ e :: post ∧ b = (pos + stride c * pre.length, e.version)
  | e :: es, pos, h => by
    unfold blocks at h
    obtain h | h := mem_append.mp h
    · by_cases hpos : pos % 4096 = 0
      · rw [if_pos hpos, mem_singleton] at h
        exact ⟨[], e, es, rfl, by simpa using h⟩
      · rw [if_neg hpos] at h
        cases h
    · obtain ⟨pre, e', post, rfl, rfl⟩ := mem_blocks h
      refine ⟨e :: pre, e', post, rfl, ?_⟩
      rw [length_cons]
      congr 1
      ring

theorem block_ge {es : List Entry} {pos : ℕ} (h : b ∈ blocks c pos es) : pos ≤ b.1 := by
  obtain ⟨pre, e, post, -, rfl⟩ := mem_blocks c h
  exact Nat.le_add_right _ _

theorem block_lt {es : List Entry} {pos : ℕ} (h : b ∈ blocks c pos es) :
    b.1 < pos + stride c * es.length := by
  obtain ⟨pre, e, post, rfl, rfl⟩ := mem_blocks c h
  rw [length_append, length_cons]
  exact Nat.add_lt_add_left ((Nat.mul_lt_mul_left (stride_pos c)).mpr (by omega)) pos

theorem blocks_pairwise : ∀ {es : List Entry} {pos : ℕ}, Sorted es →
    (blocks c pos es).Pairwise fun a b => a.1 < b.1 ∧ a.2 < b.2
  | [], _, _ => .nil
  | e :: es, pos, h => by
    obtain ⟨he, hes⟩ := pairwise_cons.mp h
    unfold blocks
    refine pairwise_append.mpr ⟨?_, blocks_pairwise hes, fun a ha b hb => ?_⟩
    · split
      · exact pairwise_singleton _ _
      · exact .nil
    · have hle := block_ge c hb
      obtain ⟨pre, x, post, rfl, rfl⟩ := mem_blocks c hb
      have := stride_pos c
      by_cases hpos : pos % 4096 = 0
      · rw [if_pos hpos, mem_singleton] at ha
        subst ha
        exact ⟨by omega, he x (mem_append.mpr (.inr mem_cons_self))⟩
      · rw [if_neg hpos] at ha
        cases ha

theorem setBlock_last {m : List (ℕ × EVersion)} {off : ℕ} (v : EVersion) (h : ∀ b ∈ m, b.1 < off) :
    setBlock m off v = m ++ [(off, v)] := by
  unfold setBlock
  have htake : m.takeWhile (fun b => b.1 < off) = m :=
    takeWhile_eq_self_iff.mpr fun b hb => decide_eq_true (h b hb)
  have hdrop : m.dropWhile (fun b => b.1 ≤ off) = [] :=
    dropWhile_eq_nil_iff.mpr fun b hb => decide_eq_true (h b hb).le
  rw [htake, hdrop]

/-- What `write_log` puts together. -/
theorem assemble_eq : ∀ (es : List Entry) (bl : Bytes) (m : List (ℕ × EVersion)), (∀ b ∈ m, b.1 < bl.length) →
    assemble c es bl m = (bl ++ records c es, m ++ blocks c bl.length es)
  | [], bl, m, _ => by simp [assemble, blocks]
  | e :: es, bl, m, h => by
    have hlen : (bl ++ record c e).length = bl.length + stride c := by simp
    have hpos := stride_pos c
    have hm : (if bl.length % 4096 = 0 then setBlock m bl.length e.version else m) =
        m ++ if bl.length % 4096 = 0 then [(bl.length, e.version)] else [] := by
      split
      · exact setBlock_last e.version h
      · rw [append_nil]
    unfold assemble
    rw [hm, assemble_eq es, hlen, records_cons, blocks, append_assoc, append_assoc]
    intro b hb
    obtain hb | hb := mem_append.mp hb
    · exact (h b hb).trans (by omega)
    · split at hb
      · rw [mem_singleton.mp hb]
        omega
      · cases hb

/-- **Reading.** The loop finds the entries that are live, and their blocks. -/
theorem readEntries_spec (info : Info) (bl : Bytes) (bottom top : ℕ) : ∀ (es : List Entry) {n pos : ℕ}
    (log : List Entry) (m : List (ℕ × EVersion)), (∀ e ∈ es, c.fits e = true) → bottom ≤ pos → bl.drop (pos - bottom) = records c es →
    top = pos + stride c * es.length → es.length < n → (∀ b ∈ m, b.1 < pos) →
    readEntries c info bl bottom top n pos log m =
      some (log ++ es.filter (fun e => Live info e.version), m ++ (blocks c pos es).filter fun b => Live info b.2)
  | [], n + 1, pos, log, m, _, _, _, htop, _, _ => by
    unfold readEntries
    rw [if_neg (by simp [htop])]
    simp [blocks]
  | e :: es, n + 1, pos, log, m, hfits, hle, hbl, htop, hn, hm => by
    obtain ⟨hfit, hfits⟩ := forall_mem_cons.mp hfits
    have hstride := stride_pos c
    have hsize := size_le_stride c
    have hlen : bl.length - (pos - bottom) = stride c * (es.length + 1) := by
      rw [← length_drop, hbl, length_records, length_cons]
    have hmul : stride c * (es.length + 1) = stride c * es.length + stride c := by ring
    rw [length_cons] at htop hn
    have hdec : c.dec (read bl (pos - bottom) c.size) = e := by
      unfold read
      rw [hbl, records_cons, dec_record c hfit]
    have hnext : bl.drop (pos + stride c - bottom) = records c es := by
      have hadd : pos + stride c - bottom = pos - bottom + stride c := by omega
      rw [hadd, ← drop_drop, hbl, records_cons, drop_left' (length_record c e)]
    have hrec := fun log m hm => readEntries_spec info bl bottom top es log m hfits (Nat.le_trans hle (Nat.le_add_right pos _))
      hnext (by omega) (Nat.lt_of_succ_lt_succ hn) hm
    unfold readEntries
    rw [if_pos (by omega), if_pos (by omega)]
    simp only [hdec, blocks, filter_append]
    by_cases hlive : Live info e.version
    · rw [if_pos hlive, hrec, filter_cons_of_pos (by simpa using hlive), append_assoc, singleton_append]
      · by_cases hpos : pos % 4096 = 0
        · rw [if_pos hpos, if_pos hpos, setBlock_last _ hm, filter_cons_of_pos (by simpa using hlive),
            append_assoc]
          rfl
        · rw [if_neg hpos, if_neg hpos]
          rfl
      · intro b hb
        by_cases hpos : pos % 4096 = 0
        · rw [if_pos hpos, setBlock_last _ hm] at hb
          obtain hb | hb := mem_append.mp hb
          · exact (hm b hb).trans (by omega)
          · rw [mem_singleton.mp hb]
            omega
        · rw [if_neg hpos] at hb
          exact (hm b hb).trans (by omega)
    · have hnone : (if pos % 4096 = 0 then [(pos, e.version)] else []).filter (fun b => Live info b.2) = [] := by
        split
        · exact filter_cons_of_neg (by simpa using hlive)
        · rfl
      rw [if_neg hlive, hrec log m fun b hb => (hm b hb).trans (by omega), hnone,
        filter_cons_of_neg (by simpa using hlive), nil_append]

end records

/-! ### What the disk holds -/

section holds

variable {c : Config} {s s' : State} {es : List Entry}

/-- The disk holds `es` from `ondisklog.bottom` on, and the map has blocks of
theirs, at least those that start with a live entry. -/
structure Holds (c : Config) (s : State) (es : List Entry) : Prop where
  fits : ∀ e ∈ es, c.fits e = true
  attrBottom : s.disk.ondisklogBottom = s.ondisklog.bottom
  attrTop : s.disk.ondisklogTop = s.ondisklog.top
  top : s.ondisklog.top = s.ondisklog.bottom + stride c * es.length
  length : s.disk.object.length = s.ondisklog.top
  object : s.disk.object.drop s.ondisklog.bottom = records c es
  live : ((blocks c s.ondisklog.bottom es).filter fun b => Live s.info b.2).Sublist s.ondisklog.blockMap
  only : s.ondisklog.blockMap.Sublist (blocks c s.ondisklog.bottom es)

/-- **A consistent PG.** The log is in order; the store has the PG's info, and
its object what was trimmed since the last block that is dead, and then the log. -/
structure Consistent (c : Config) (s : State) : Prop where
  valid : Valid s.log.toLog
  info : s.info = ⟨s.log.top, s.log.bottom, s.log.backlog⟩
  written : s.disk.info = s.info
  holds : ∃ dead, (∀ e ∈ dead, ¬ Live s.info e.version) ∧ Sorted (dead ++ s.log.log) ∧ Holds c s (dead ++ s.log.log)

/-- What the block maps of the writer and of the reader have in common. -/
def liveBlocks (info : Info) (m : List (ℕ × EVersion)) : List (ℕ × EVersion) := m.filter fun b => Live info b.2

theorem Holds.liveBlocks (h : Holds c s es) :
    liveBlocks s.info s.ondisklog.blockMap = (blocks c s.ondisklog.bottom es).filter fun b => Live s.info b.2 := by
  apply List.Sublist.antisymm
  · exact h.only.filter _
  · have hlive := h.live.filter fun b => Live s.info b.2
    rwa [List.filter_filter, filter_congr fun b _ => Bool.and_self _] at hlive

variable {e : Entry}

theorem Consistent.live (h : Consistent c s) (he : e ∈ s.log.log) : Live s.info e.version := by
  rw [h.info]
  by_cases hb : s.log.backlog = true
  · exact .inr hb
  · exact .inl (h.valid.bottom (by simpa using hb) e he)

/-- **`read_log`** of what the disk of a consistent PG holds. -/
theorem readLog_spec (h : Consistent c s) : ∃ r, readLog c s.disk = some r ∧ r.1.toLog = s.log.toLog ∧
    r.2 = ⟨s.ondisklog.bottom, s.ondisklog.top, liveBlocks s.info s.ondisklog.blockMap⟩ := by
  obtain ⟨dead, hdead, hsorted, hholds⟩ := h.holds
  set es := dead ++ s.log.log with hes
  have hlog : es.filter (fun e => Live s.info e.version) = s.log.log := by
    have hnone : dead.filter (fun e => Live s.info e.version) = [] :=
      filter_eq_nil_iff.mpr fun e he => by simpa using hdead e he
    rw [hes, filter_append, hnone, nil_append]
    exact filter_eq_self.mpr fun e he => decide_eq_true (h.live he)
  refine ⟨(⟨⟨s.log.log, s.info.lastUpdate, s.info.logBottom, s.info.logBacklog⟩, Index.all s.log.log, none, none⟩, _),
    ?_, ?_, rfl⟩
  · unfold readLog
    rw [h.written, hholds.attrBottom, hholds.attrTop, hholds.liveBlocks]
    have hloop : (if 0 < s.ondisklog.top then
        let bl := read s.disk.object s.ondisklog.bottom (s.ondisklog.top - s.ondisklog.bottom)
        if bl.length < s.ondisklog.top - s.ondisklog.bottom then none
        else readEntries c s.info bl s.ondisklog.bottom s.ondisklog.top (s.ondisklog.top + 1) s.ondisklog.bottom [] []
        else some ([], [])) = some (s.log.log, (blocks c s.ondisklog.bottom es).filter fun b => Live s.info b.2) := by
      by_cases hpos : 0 < s.ondisklog.top
      · have hread : read s.disk.object s.ondisklog.bottom (s.ondisklog.top - s.ondisklog.bottom) = records c es := by
          unfold read
          rw [hholds.object, take_of_length_le]
          rw [length_records, hholds.top]
          omega
        have hlen : (records c es).length = s.ondisklog.top - s.ondisklog.bottom := by
          rw [length_records, hholds.top]
          omega
        have hcount : es.length < s.ondisklog.top + 1 := by
          have := Nat.le_mul_of_pos_left es.length (stride_pos c)
          rw [hholds.top]
          omega
        rw [if_pos hpos]
        simp only [hread]
        rw [if_neg (by omega), readEntries_spec c s.info (records c es) s.ondisklog.bottom s.ondisklog.top es [] []
          hholds.fits (le_refl _) (by rw [Nat.sub_self, drop_zero]) hholds.top hcount nofun, hlog]
        rfl
      · have hnil : es = [] := by
          have htop := hholds.top
          have := stride_pos c
          rcases hcase : es with _ | ⟨e, rest⟩
          · rfl
          · rw [hcase, length_cons, Nat.mul_succ] at htop
            omega
        rw [if_neg hpos, ← hlog, hnil]
        rfl
    exact congrArg _ hloop
  · rw [h.info]

/-- **`write_log`**. -/
theorem writeLog_spec {l : IndexedLog} (h : Valid l.toLog) (hfits : ∀ e ∈ l.log, c.fits e = true) :
    Consistent c (writeLog c { s with log := l, info := ⟨l.top, l.bottom, l.backlog⟩ }) := by
  have hall := assemble_eq c l.log [] [] nofun
  rw [nil_append, nil_append, length_nil] at hall
  have hwrite : write [] 0 (records c l.log) = records c l.log := by
    unfold write
    simp
  unfold writeLog
  simp only [hall, hwrite]
  refine ⟨h, rfl, rfl, [], nofun, h.sorted, hfits, rfl, rfl, ?_, rfl, rfl, filter_sublist, .refl _⟩
  change (records c l.log).length = 0 + stride c * l.log.length
  rw [length_records, zero_add]

/-- An entry is written at the end. -/
def appended (c : Config) (s : State) (e : Entry) : State := { s with
  ondisklog := { s.ondisklog with
    top := s.ondisklog.top + stride c
    blockMap := if s.ondisklog.top % 4096 = 0 then setBlock s.ondisklog.blockMap s.ondisklog.top e.version
      else s.ondisklog.blockMap }
  disk := { s.disk with
    object := write s.disk.object s.ondisklog.top (record c e), ondisklogTop := s.ondisklog.top + stride c } }

theorem Holds.append (h : Holds c s es) (he : c.fits e = true) : Holds c (appended c s e) (es ++ [e]) := by
  have hm : ∀ b ∈ s.ondisklog.blockMap, b.1 < s.ondisklog.top := fun b hb => by
    rw [h.top]
    exact block_lt c (h.only.subset hb)
  have hmap : (if s.ondisklog.top % 4096 = 0 then setBlock s.ondisklog.blockMap s.ondisklog.top e.version
      else s.ondisklog.blockMap) = s.ondisklog.blockMap ++ blocks c s.ondisklog.top [e] := by
    rw [blocks, blocks, append_nil]
    split
    · exact setBlock_last e.version hm
    · rw [append_nil]
  have hwrite : write s.disk.object s.ondisklog.top (record c e) = s.disk.object ++ record c e := by
    unfold write
    rw [← h.length]
    simp
  have hblocks : blocks c s.ondisklog.bottom (es ++ [e]) =
      blocks c s.ondisklog.bottom es ++ blocks c s.ondisklog.top [e] := by
    rw [blocks_append, h.top]
  refine ⟨fun x hx => ?_, h.attrBottom, rfl, ?_, ?_, ?_, ?_, ?_⟩
  · obtain hx | hx := mem_append.mp hx
    · exact h.fits x hx
    · rwa [mem_singleton.mp hx]
  · change s.ondisklog.top + stride c = s.ondisklog.bottom + stride c * (es ++ [e]).length
    rw [h.top, length_append, length_singleton]
    ring
  · change (write s.disk.object s.ondisklog.top (record c e)).length = s.ondisklog.top + stride c
    rw [hwrite, length_append, h.length, length_record]
  · change (write s.disk.object s.ondisklog.top (record c e)).drop s.ondisklog.bottom = _
    have hle : s.ondisklog.bottom ≤ s.disk.object.length := by
      rw [h.length, h.top]
      exact Nat.le_add_right _ _
    rw [hwrite, drop_append_of_le_length hle, h.object, records_append, records_cons, records_nil,
      append_nil]
  · simp only [appended, hmap, hblocks, filter_append]
    exact h.live.append filter_sublist
  · simp only [appended, hmap, hblocks]
    exact h.only.append (.refl _)

/-- The walk over the blocks ends at the first, or at one that starts no later than `v`. -/
theorem seekBlock_spec {v : EVersion} : ∀ {m : List (ℕ × EVersion)}, ∃ pre, m = pre ++ seekBlock v m ∧
    (m = [] ∨ ∃ b rest, seekBlock v m = b :: rest ∧ (pre = [] ∨ b.2 ≤ v))
  | [] => ⟨[], rfl, .inl rfl⟩
  | [b] => ⟨[], rfl, .inr ⟨b, [], rfl, .inl rfl⟩⟩
  | b :: b' :: rest => by
    unfold seekBlock
    by_cases hlt : v < b'.2
    · rw [if_pos hlt]
      exact ⟨[], rfl, .inr ⟨b, b' :: rest, rfl, .inl rfl⟩⟩
    · rw [if_neg hlt]
      obtain ⟨pre, heq, hcase⟩ := seekBlock_spec (v := v) (m := b' :: rest)
      obtain hnil | ⟨x, xs, hx, hle⟩ := hcase
      · cases hnil
      · refine ⟨b :: pre, by rw [cons_append, ← heq], .inr ⟨x, xs, hx, .inr ?_⟩⟩
        obtain rfl | hle := hle
        · rw [hx, nil_append] at heq
          exact (cons.inj heq).1 ▸ not_lt.mp hlt
        · exact hle

/-- **`trim_ondisklog_to`**: the disk's bottom goes up to the start of a block,
no further than entries up to `v`. -/
theorem trimOndisklogTo_spec (v : EVersion) (h : Holds c s es) (hs : Sorted es) : ∃ s' gone kept,
    trimOndisklogTo s v = .ok s' ∧ es = gone ++ kept ∧ (∀ e ∈ gone, e.version ≤ v) ∧ Holds c s' kept ∧
      s'.log = s.log ∧ s'.info = s.info := by
  have hstay : ∃ s' gone kept, (Except.ok s : Except Assert State) = .ok s' ∧ es = gone ++ kept ∧
      (∀ e ∈ gone, e.version ≤ v) ∧ Holds c s' kept ∧ s'.log = s.log ∧ s'.info = s.info :=
    ⟨s, [], es, rfl, rfl, nofun, h, rfl, rfl⟩
  obtain ⟨pre, heq, hcase⟩ := seekBlock_spec (v := v) (m := s.ondisklog.blockMap)
  unfold trimOndisklogTo
  obtain hnil | ⟨b, rest, hb, hle⟩ := hcase
  · rw [hnil]
    exact hstay
  rw [hb] at heq ⊢
  by_cases hfirst : (b :: rest).length = s.ondisklog.blockMap.length
  · simp only [hfirst, if_true]
    exact hstay
  have hpre : pre ≠ [] := fun hpre => hfirst (by rw [heq, hpre, nil_append])
  have hmem : b ∈ blocks c s.ondisklog.bottom es := h.only.subset (heq ▸ by simp)
  have hge := block_ge c hmem
  obtain ⟨gone, e, post, hes, hbe⟩ := mem_blocks c hmem
  have hkey : b.1 = s.ondisklog.bottom + stride c * gone.length := by rw [hbe]
  have hver : e.version ≤ v := by
    have := hle.resolve_left hpre
    rwa [hbe] at this
  simp only [if_neg hfirst, if_pos hge]
  refine ⟨_, gone, e :: post, rfl, hes, fun x hx => ?_, ?_, rfl, rfl⟩
  · rw [hes] at hs
    exact ((pairwise_append.mp hs).2.2 x hx e mem_cons_self).le.trans hver
  have hpair : (pre ++ b :: rest).Pairwise fun a b => a.1 < b.1 ∧ a.2 < b.2 :=
    heq ▸ (blocks_pairwise c hs).sublist h.only
  have hparts : blocks c s.ondisklog.bottom es = blocks c s.ondisklog.bottom gone ++ blocks c b.1 (e :: post) := by
    rw [hes, blocks_append, hkey]
  have hlen : b.1 ≤ s.disk.object.length := by
    rw [h.length, h.top, hkey, hes, length_append]
    exact Nat.add_le_add_left (Nat.mul_le_mul_left _ (Nat.le_add_right _ _)) _
  -- the blocks of the map and of the entries from `b` on are those that start no earlier
  have hlow : pre.filter (fun x => b.1 ≤ x.1) = [] := filter_eq_nil_iff.mpr fun x hx => by
    simpa using ((pairwise_append.mp hpair).2.2 x hx b mem_cons_self).1
  have hgone : (blocks c s.ondisklog.bottom gone).filter (fun x => b.1 ≤ x.1) = [] :=
    filter_eq_nil_iff.mpr fun x hx => by simpa [hkey] using block_lt c hx
  have hrest : (b :: rest).filter (fun x => b.1 ≤ x.1) = b :: rest := filter_eq_self.mpr fun x hx => by
    obtain rfl | hx := mem_cons.mp hx
    · exact decide_eq_true le_rfl
    · exact decide_eq_true (rel_of_pairwise_cons (pairwise_append.mp hpair).2.1 hx).1.le
  have hkept : (blocks c b.1 (e :: post)).filter (fun x => b.1 ≤ x.1) = blocks c b.1 (e :: post) :=
    filter_eq_self.mpr fun x hx => decide_eq_true (block_ge c hx)
  refine ⟨fun x hx => h.fits x (hes ▸ mem_append_right _ hx), rfl, rfl, ?_, ?_, ?_, ?_, ?_⟩
  · change s.ondisklog.top = b.1 + stride c * (e :: post).length
    rw [h.top, hkey, hes, length_append]
    ring
  · change (zero s.disk.object b.1).length = s.ondisklog.top
    unfold zero
    rw [length_append, length_replicate, length_drop, h.length]
    omega
  · change (zero s.disk.object b.1).drop b.1 = records c (e :: post)
    unfold zero
    rw [min_eq_left hlen, drop_left' length_replicate, hkey, ← drop_drop, h.object, hes,
      records_append, drop_left' (length_records c gone)]
  · change ((blocks c b.1 (e :: post)).filter fun x => Live s.info x.2).Sublist (b :: rest)
    have hsub := h.live.filter fun x => b.1 ≤ x.1
    rw [hparts, heq, filter_append, filter_append, filter_append, hlow, hrest, filter_comm, hgone,
      filter_nil, filter_comm, hkept] at hsub
    exact hsub
  · change (b :: rest).Sublist (blocks c b.1 (e :: post))
    have hsub := h.only.filter fun x => b.1 ≤ x.1
    rwa [hparts, heq, filter_append, filter_append, hlow, hrest, hgone, hkept] at hsub

/-- A log trimmed. -/
theorem trim_log {l l' : IndexedLog} {v : EVersion} (hlt : l.bottom < v) (h : l.trim v = .ok l') :
    l'.toLog = ⟨left (fun e => v < e.version) l.log, l.top, v, false⟩ := by
  have hloop : ∀ {check : Entry → Bool} {es : List Entry} {ix : Index} {p : List Entry × Index},
      unindexWhile (fun e => v < e.version) check es ix = .ok p → p.1 = left (fun e => v < e.version) es := by
    intro check es
    induction es with
    | nil =>
      intro ix p hp
      cases hp
      rfl
    | cons e es ih =>
      intro ix p hp
      unfold unindexWhile at hp
      unfold left
      by_cases hstop : v < e.version
      · rw [if_pos (by simpa using hstop)] at hp
        cases hp
        rw [dropWhile_cons_of_neg (by simpa using hstop)]
      · rw [if_neg (by simpa using hstop)] at hp
        rw [dropWhile_cons_of_pos (by simpa using hstop)]
        by_cases hcheck : check e = true
        · rw [if_pos hcheck] at hp
          cases hix : ix.unindex e with
          | none =>
            rw [hix] at hp
            cases hp
          | some ix' =>
            rw [hix] at hp
            exact ih hp
        · rw [if_neg hcheck] at hp
          cases hp
  have hs : (if l.backlog = true ∧ v < l.bottom then l.bottom else v) = v := if_neg fun hb => hlt.not_gt hb.2
  unfold IndexedLog.trim at h
  simp only [hs] at h
  cases hp : unindexWhile (fun e => v < e.version)
      (fun e => l.completeTo ≠ some e.version ∧ l.requestedTo ≠ some e.version) l.log l.ix with
  | error a =>
    rw [hp] at h
    cases h
  | ok p =>
    rw [hp] at h
    cases h
    simp only [hloop hp, if_pos hlt]

theorem Holds.of_info (h : Holds c s es) (hondisk : s'.ondisklog = s.ondisklog) (hobj : s'.disk.object = s.disk.object)
    (hbottom : s'.disk.ondisklogBottom = s.disk.ondisklogBottom) (htop : s'.disk.ondisklogTop = s.disk.ondisklogTop)
    (hlive : ∀ v, Live s'.info v → Live s.info v) : Holds c s' es where
  fits := h.fits
  attrBottom := by rw [hbottom, hondisk, h.attrBottom]
  attrTop := by rw [htop, hondisk, h.attrTop]
  top := by rw [hondisk, h.top]
  length := by rw [hobj, hondisk, h.length]
  object := by rw [hobj, hondisk, h.object]
  live := by
    rw [hondisk]
    refine (monotone_filter_right _ fun b hb => ?_).trans h.live
    exact decide_eq_true (hlive b.2 (of_decide_eq_true hb))
  only := by
    rw [hondisk]
    exact h.only

theorem dead_of_gone {v : EVersion} {dead log gone kept : List Entry} (hsorted : Sorted log)
    (hdead : ∀ e ∈ dead, e.version ≤ v) (heq : dead ++ log = gone ++ kept) (hgone : ∀ e ∈ gone, e.version ≤ v) :
    ∃ dead', kept = dead' ++ left (fun e => v < e.version) log ∧ ∀ e ∈ dead', e.version ≤ v := by
  have hleft : ∀ e ∈ left (fun e => v < e.version) log, v < e.version := fun e he => of_decide_eq_true
    (stop_of_left (fun e => v < e.version)
      (hsorted.imp fun hlt hs => decide_eq_true ((of_decide_eq_true hs).trans hlt)) e he)
  have htaken : ∀ e ∈ taken (fun e => v < e.version) log, e.version ≤ v := fun e he => by
    have hstop := not_stop_of_taken he
    simpa using hstop
  have hold : ∀ e ∈ dead ++ taken (fun e => v < e.version) log, e.version ≤ v := fun e he =>
    (mem_append.mp he).elim (hdead e) (htaken e)
  rw [← taken_append_left (fun e => v < e.version) log, ← append_assoc] at heq
  obtain ⟨mid, hgone', hmid⟩ | ⟨mid, hmid, hkept⟩ := append_eq_append_iff.mp heq
  · -- nothing of what is left of the log has gone from the disk
    have hnil : mid = [] := eq_nil_iff_forall_not_mem.mpr fun e he =>
      (hgone e (hgone' ▸ mem_append_right _ he)).not_gt (hleft e (hmid ▸ mem_append_left _ he))
    rw [hnil, nil_append] at hmid
    exact ⟨[], hmid.symm, nofun⟩
  · exact ⟨mid, hkept, fun e he => hold e (hmid ▸ mem_append_right _ he)⟩

/-- A consistent PG, but for its last update and the info on the disk. -/
structure Logged (c : Config) (s : State) : Prop where
  valid : Valid s.log.toLog
  bottom : s.info.logBottom = s.log.bottom
  backlog : s.info.logBacklog = s.log.backlog
  holds : ∃ dead, (∀ e ∈ dead, ¬ Live s.info e.version) ∧ Sorted (dead ++ s.log.log) ∧ Holds c s (dead ++ s.log.log)

/-- **`append_log`**, of the newest entry of the log, with a trim that goes no further than that. -/
theorem appendLog_spec {trimTo : EVersion} {dead : List Entry} (h : Holds c s es) (he : c.fits e = true)
    (hes : es ++ [e] = dead ++ s.log.log) (hvalid : Valid s.log.toLog) (hbottom : s.info.logBottom = s.log.bottom)
    (hbacklog : s.info.logBacklog = s.log.backlog) (hsorted : Sorted (dead ++ s.log.log))
    (hdead : ∀ x ∈ dead, ¬ Live s.info x.version) (htrim : trimTo ≤ s.log.top)
    (hstep : appendLog c s e trimTo = .ok s') :
    Logged c s' ∧ s'.log.top = s.log.top ∧ s'.info.lastUpdate = s.info.lastUpdate := by
  have hwritten := h.append he
  rw [hes] at hwritten
  have hdeadle : ∀ x ∈ dead, x.version ≤ s.log.bottom := fun x hx =>
    hbottom ▸ not_lt.mp (not_or.mp (hdead x hx)).1
  unfold appendLog at hstep
  simp only [length_record] at hstep
  by_cases hlt : s.log.bottom < trimTo
  · rw [if_pos hlt] at hstep
    cases hl : s.log.trim trimTo with
    | error a =>
      rw [hl] at hstep
      cases hstep
    | ok l =>
      rw [hl] at hstep
      have hlog := trim_log hlt hl
      -- fewer entries are live than were
      have hless : Holds c { appended c s e with
          log := l, info := { s.info with logBottom := l.bottom, logBacklog := l.backlog } } (dead ++ s.log.log) := by
        refine hwritten.of_info rfl rfl rfl rfl fun v hv => ?_
        have hlb : l.toLog.bottom = trimTo := by rw [hlog]
        have hlk : l.toLog.backlog = false := by rw [hlog]
        obtain hv | hv := hv
        · refine .inl (lt_trans ?_ hv)
          rw [hlb]
          exact hbottom ▸ hlt
        · rw [hlk] at hv
          cases hv
      obtain ⟨s1, gone, kept, hs1, hparts, hgone, hkept, hslog, hsinfo⟩ := trimOndisklogTo_spec trimTo hless hsorted
      cases hs1.symm.trans hstep
      have hlogsorted := (pairwise_append.mp hsorted).2.1
      obtain ⟨dead', rfl, hdead'⟩ := dead_of_gone hlogsorted (fun x hx => (hdeadle x hx).trans hlt.le) hparts hgone
      have hcut : l.log = left (fun x => trimTo < x.version) s.log.log := congrArg Log.log hlog
      have hvalid' : Valid l.toLog := by
        rw [hlog]
        refine ⟨hlogsorted.sublist (dropWhile_sublist _), fun x hx =>
          hvalid.top x ((dropWhile_sublist _).subset hx), fun _ x hx => ?_, htrim⟩
        exact of_decide_eq_true (stop_of_left (fun x => trimTo < x.version)
          (hlogsorted.imp fun hab hs => decide_eq_true ((of_decide_eq_true hs).trans hab)) x hx)
      refine ⟨⟨hslog ▸ hvalid', by rw [hsinfo, hslog], by rw [hsinfo, hslog], dead', fun x hx => ?_, ?_, ?_⟩, ?_, ?_⟩
      · rw [hsinfo]
        rw [hlog]
        exact not_or.mpr ⟨(hdead' x hx).not_gt, Bool.false_ne_true⟩
      · rw [hslog]
        rw [hcut]
        exact (pairwise_append.mp (hparts ▸ hsorted)).2.1
      · rw [hslog]
        rwa [hcut]
      · rw [hslog]
        rw [hlog]
      · rw [hsinfo]
  · rw [if_neg hlt] at hstep
    cases hstep
    exact ⟨⟨hvalid, hbottom, hbacklog, dead, hdead, hsorted, hwritten⟩, rfl, rfl⟩

/-- **An entry logged**, with a trim that goes no further than that entry. -/
theorem prepareLog_spec {trimTo : EVersion} (h : Consistent c s) (he : c.fits e = true) (htrim : trimTo ≤ e.version)
    (hstep : prepareLog c s e trimTo = .ok s') : Consistent c s' := by
  obtain ⟨dead, hdead, hsorted, hholds⟩ := h.holds
  obtain ⟨hvalid, hinfo, hwritten, -⟩ := h
  have hdeadle : ∀ x ∈ dead, x.version ≤ s.log.bottom := fun x hx => by
    have hnot := hdead x hx
    rw [hinfo] at hnot
    exact not_lt.mp (not_or.mp hnot).1
  unfold prepareLog at hstep
  cases hadd : s.log.add e with
  | error a =>
    rw [hadd] at hstep
    cases hstep
  | ok l =>
    rw [hadd] at hstep
    unfold IndexedLog.add at hadd
    by_cases hnew : s.log.top < e.version ∧ (number s.log.top = 0 ∨ number s.log.top < number e.version)
    swap
    · rw [if_neg hnew] at hadd
      cases hadd
    rw [if_pos hnew] at hadd
    cases hadd
    have hsorted' : Sorted (dead ++ (s.log.log ++ [e])) := by
      rw [← append_assoc]
      refine pairwise_append.mpr ⟨hsorted, pairwise_singleton _ _, fun x hx y hy => ?_⟩
      rw [mem_singleton.mp hy]
      obtain hx | hx := mem_append.mp hx
      · exact lt_of_le_of_lt ((hdeadle x hx).trans hvalid.le) hnew.1
      · exact lt_of_le_of_lt (hvalid.top x hx) hnew.1
    have hvalid' : Valid ⟨s.log.log ++ [e], e.version, s.log.bottom, s.log.backlog⟩ := by
      refine ⟨(pairwise_append.mp hsorted').2.1, fun x hx => ?_, fun hb x hx => ?_, hvalid.le.trans hnew.1.le⟩
      · obtain hx | hx := mem_append.mp hx
        · exact (hvalid.top x hx).trans hnew.1.le
        · rw [mem_singleton.mp hx]
      · obtain hx | hx := mem_append.mp hx
        · exact hvalid.bottom hb x hx
        · rw [mem_singleton.mp hx]
          exact lt_of_le_of_lt hvalid.le hnew.1
    cases happ : appendLog c { s with log := { s.log with
        log := s.log.log ++ [e], top := e.version, ix := s.log.ix.set e } } e trimTo with
    | error a =>
      simp only [Except.bind] at hstep
      rw [happ] at hstep
      cases hstep
    | ok s1 =>
      simp only [Except.bind] at hstep
      rw [happ] at hstep
      obtain ⟨hlogged, htop, -⟩ := appendLog_spec
        (s := { s with log := { s.log with log := s.log.log ++ [e], top := e.version, ix := s.log.ix.set e } })
        (hholds.of_info rfl rfl rfl rfl fun v hv => hv) he (append_assoc dead s.log.log [e]) hvalid'
        (by rw [hinfo]) (by rw [hinfo]) hsorted' hdead htrim happ
      change (if s1.info.lastUpdate < e.version then Except.ok { s1 with
        info := { s1.info with lastUpdate := e.version }
        disk := { s1.disk with info := { s1.info with lastUpdate := e.version } } } else .error Assert.other) = .ok s' at hstep
      by_cases hlast : s1.info.lastUpdate < e.version
      swap
      · rw [if_neg hlast] at hstep
        cases hstep
      rw [if_pos hlast] at hstep
      cases hstep
      obtain ⟨dead', hdead', hsorted', hholds'⟩ := hlogged.holds
      refine ⟨hlogged.valid, ?_, rfl, dead', hdead', hsorted', hholds'.of_info rfl rfl rfl rfl fun v hv => hv⟩
      change (⟨e.version, s1.info.logBottom, s1.info.logBacklog⟩ : Info) = _
      rw [hlogged.bottom, hlogged.backlog, htop]

/-- **A restart**. -/
theorem restart_spec {r : IndexedLog × Ondisklog} (h : Consistent c s) (hr : readLog c s.disk = some r) :
    Consistent c { s with log := r.1, ondisklog := r.2, info := s.disk.info } := by
  obtain ⟨r', hr', hlog, hondisk⟩ := readLog_spec h
  cases some.inj (hr.symm.trans hr')
  obtain ⟨dead, hdead, hsorted, hholds⟩ := h.holds
  have hloglog : r.1.log = s.log.log := congrArg Log.log hlog
  refine ⟨hlog ▸ h.valid, ?_, rfl, dead, ?_, hloglog ▸ hsorted, ?_⟩
  · change s.disk.info = ⟨r.1.toLog.top, r.1.toLog.bottom, r.1.toLog.backlog⟩
    rw [hlog, h.written, h.info]
  · change ∀ e ∈ dead, ¬ Live s.disk.info e.version
    rwa [h.written]
  · rw [hloglog, hondisk, h.written]
    have hblocks := hholds.liveBlocks
    refine ⟨hholds.fits, hholds.attrBottom, hholds.attrTop, hholds.top, hholds.length, hholds.object, ?_, ?_⟩
    · change ((blocks c s.ondisklog.bottom (dead ++ s.log.log)).filter fun b => Live s.info b.2).Sublist
        (liveBlocks s.info s.ondisklog.blockMap)
      rw [hblocks]
    · change (liveBlocks s.info s.ondisklog.blockMap).Sublist _
      rw [hblocks]
      exact filter_sublist

end holds

/-! ### Runs -/

section runs

variable (c : Config)

/-- Logs that are written are in order, and entries in the range of their types. -/
def Proper (_ : State) : Act → Prop
  | .writeLog l => Valid l.toLog ∧ ∀ e ∈ l.log, c.fits e = true
  | .modify e _ => c.fits e = true
  | .restart => True

/-- And no trim goes further than the entry that is logged with it. -/
def Fair (s : State) (a : Act) : Prop :=
  Proper c s a ∧ match a with
    | .modify e trimTo => trimTo ≤ e.version
    | _ => True

theorem step_inv {s s' : State} {a : Act} (h : Consistent c s) (hok : Fair c s a) (hs : step c s a = some s') :
    Consistent c s' := by
  cases a with
  | writeLog l =>
    cases hs
    exact writeLog_spec hok.1.1 hok.1.2
  | modify e trimTo => exact prepareLog_spec h hok.1 hok.2 (toOption_eq_some.mp hs)
  | restart =>
    obtain ⟨r, hr, rfl⟩ := map_eq_some_iff.mp hs
    exact restart_spec h hr

/-- **The log on disk is the log**: after any calls `read_log` finds the entries
and bounds there are in memory, and of the blocks those that start with a live entry. -/
theorem log_round_trips (s₀ s : State) (h₀ : Consistent c s₀) (h : Run.Reach (step c) (Fair c) s₀ s) :
    ∃ r, readLog c s.disk = some r ∧ r.1.toLog = s.log.toLog ∧
      r.2.blockMap = liveBlocks s.info s.ondisklog.blockMap := by
  have hcons := h.inv (Consistent c) h₀ fun _ _ _ hi hok hs => step_inv c hi hok hs
  obtain ⟨r, hr, hlog, hondisk⟩ := readLog_spec hcons
  exact ⟨r, hr, hlog, by rw [hondisk]⟩

instance (s : State) (a : Act) : Decidable (Proper c s a) := by
  unfold Proper
  cases a <;> infer_instance

instance (s : State) (a : Act) : Decidable (Fair c s a) := by
  unfold Fair
  cases a <;> infer_instance

/-- A PG with nothing in it. -/
def blank : State where
  log := ⟨⟨[], EVersion.zero, EVersion.zero, false⟩, .empty, none, none⟩
  ondisklog := ⟨0, 0, []⟩
  info := ⟨EVersion.zero, EVersion.zero, false⟩
  disk := ⟨[], 0, 0, ⟨EVersion.zero, EVersion.zero, false⟩⟩

/-- A PG just created. -/
def start : State := writeLog c blank

theorem start_consistent : Consistent c (start c) :=
  writeLog_spec (s := blank) (l := blank.log) ⟨.nil, nofun, fun _ => nofun, le_rfl⟩ nofun

end runs

/-! ### Entries of eight bytes -/

def opByte : Recovery.Op → UInt8
  | .lost => 0
  | .modify => 1
  | .clone => 2
  | .delete => 3

def byteOp (b : UInt8) : Recovery.Op :=
  if b = 1 then .modify else if b = 2 then .clone else if b = 3 then .delete else .lost

/-- An entry with numbers of a byte each, and three bytes more. -/
def eightBytes : Config where
  pad := false
  size := 8
  fits e := e.oid < 256 ∧ (ofLex e.version).1 < 256 ∧ (ofLex e.version).2 < 256 ∧ e.reqid < 256
  enc e := [opByte e.op, .ofNat e.oid, .ofNat (ofLex e.version).1, .ofNat (ofLex e.version).2, .ofNat e.reqid, 0, 0, 0]
  dec b :=
    ⟨⟨byteOp (b.getD 0 0), (b.getD 1 0).toNat, toLex ((b.getD 2 0).toNat, (b.getD 3 0).toNat)⟩, (b.getD 4 0).toNat⟩
  padding _ := List.replicate 4088 0
  size_pos := by decide
  size_le := by decide
  length_enc _ := rfl
  length_padding _ := List.length_replicate
  dec_enc e h := by
    obtain ⟨⟨op, oid, version⟩, reqid⟩ := e
    have h := of_decide_eq_true h
    have hop : byteOp (opByte op) = op := by cases op <;> rfl
    simp [hop, Nat.mod_eq_of_lt h.1, Nat.mod_eq_of_lt h.2.1, Nat.mod_eq_of_lt h.2.2.1, Nat.mod_eq_of_lt h.2.2.2]

/-- Entries logged, a trim with a backlog taken for the log, a restart, and an entry more. -/
theorem log_round_trips_restart : ∃ s, Run.Reach (step eightBytes) (Fair eightBytes) (start eightBytes) s ∧
    s.log.log.map (·.version) = [toLex (1, 2), toLex (2, 3)] ∧
      ∃ r, readLog eightBytes s.disk = some r ∧ r.1.toLog = s.log.toLog ∧
        r.2.blockMap = liveBlocks s.info s.ondisklog.blockMap := by
  have hrun : ((Run.exec (step eightBytes) (Fair eightBytes) [.modify ⟨⟨.modify, 5, toLex (1, 1)⟩, 21⟩ (toLex (0, 0)),
      .modify ⟨⟨.delete, 5, toLex (1, 2)⟩, 22⟩ (toLex (1, 1)), .restart,
      .modify ⟨⟨.modify, 6, toLex (2, 3)⟩, 23⟩ (toLex (0, 0))] (start eightBytes)).map
        fun s => s.log.log.map (·.version)) = some [toLex (1, 2), toLex (2, 3)] := by decide +kernel
  obtain ⟨s, hs, heq⟩ := map_eq_some_iff.mp hrun
  have hreach := Run.reach_of_exec hs
  exact ⟨s, hreach, heq, log_round_trips eightBytes _ s (start_consistent _) hreach⟩

/-- Trimmed beyond its last entry, the log takes entries that are not read again. -/
theorem log_not_read : ¬ ∀ s, Run.Reach (step eightBytes) (Proper eightBytes) (start eightBytes) s →
    ∃ r, readLog eightBytes s.disk = some r ∧ r.1.log = s.log.log := by
  intro h
  have hrun : ((Run.exec (step eightBytes) (Proper eightBytes) [
      .modify ⟨⟨.modify, 5, toLex (1, 1)⟩, 21⟩ (toLex (1, 5)),
      .modify ⟨⟨.modify, 5, toLex (1, 2)⟩, 22⟩ (toLex (0, 0))] (start eightBytes)).map
        fun s => (s.log.log.length, (readLog eightBytes s.disk).map fun r => r.1.log.length)) =
          some (1, some 0) := by decide +kernel
  obtain ⟨s, hs, heq⟩ := map_eq_some_iff.mp hrun
  obtain ⟨hlen, hread⟩ := Prod.mk.inj heq
  obtain ⟨r, hr, hlog⟩ := h s (Run.reach_of_exec hs)
  rw [hr, map_some, hlog, hlen] at hread
  cases hread

end Ondisk
end Osd
end Ceph
