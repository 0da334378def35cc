/-
# Replies to a read

`Objecter::readx` submits each extent of a read under an id of its own, and
`handle_osd_read_reply` takes the replies in any order: the last one assembles what the
others have left (`Assemble`) and calls `onfinish`. The placement groups are
left out, and so is where a request is sent.

A reply of -EAGAIN has the extent submitted again. But its entry has just been
removed, and `rd->ops[tid]` is a new and empty one: it is the empty extent that
is submitted, and the entry stays there for ever.
-/
import Ceph.Lib.Run
import Ceph.Osdc.Assemble

namespace Ceph
namespace Osdc
namespace ReadReplies

open List Option
open Wire (Bytes)

/-- `OSDRead`, with the ids that `op_read` has it under. -/
structure OSDRead where
  extents : List ObjectExtent
  ops : List (ℕ × ObjectExtent)       -- map<tid_t, ObjectExtent>
  readData : List (ObjectT × Bytes)   -- map<object_t, bufferlist*>
  bl : Bytes
  opRead : List ℕ
  lastTid : ℕ
  -- not in the source
  finished : List ℤ                   -- the calls of onfinish
  resubmitted : List (ObjectExtent × ObjectExtent)    -- what failed, and what was submitted again
  answered : List (ObjectExtent × Bytes)              -- what was answered, but for -EAGAIN
deriving DecidableEq

/-- The part of `MOSDOpReply` that is read. It names the object of its request. -/
structure OpReply where
  tid : ℕ
  result : ℤ
  data : Bytes

def eagain : ℤ := 11

/-- `ObjectExtent()`; the layout is whatever is there. -/
def emptyExtent (junk : ℕ) : ObjectExtent := ⟨⟨0, 0, 0⟩, 0, 0, junk, []⟩

/-- `readx_submit`. -/
def readxSubmit (ex : ObjectExtent) (rd : OSDRead) : OSDRead :=
  { rd with
    lastTid := rd.lastTid + 1
    ops := rd.ops ++ [(rd.lastTid + 1, ex)]
    opRead := rd.opRead ++ [rd.lastTid + 1] }

/-- `readx` of new extents. -/
def readx (extents : List ObjectExtent) (lastTid : ℕ) : OSDRead :=
  extents.foldl (fun rd ex => readxSubmit ex rd) ⟨extents, [], [], [], [], lastTid, [], [], []⟩

/-- `onfinish->finish(bytes_read)`, which takes an `int`. -/
def OSDRead.finish (bytesRead : ℕ) (bl : Bytes) (rd : OSDRead) : OSDRead :=
  { rd with bl := bl, finished := rd.finished ++ [Int.bmod bytesRead (2 ^ 32)] }

/-- `handle_osd_read_reply`; `none` is a failed assertion. -/
def handleOsdReadReply (junk : ℕ) (rd : OSDRead) (m : OpReply) : Option OSDRead :=
  if m.tid ∈ rd.opRead then
    let ex := (rd.ops.lookup m.tid).getD (emptyExtent junk)
    let rd := { rd with opRead := rd.opRead.filter (· ≠ m.tid), ops := rd.ops.filter (·.1 ≠ m.tid) }
    if m.result = - eagain then
      -- rd->ops[tid] is gone, and made anew
      let again := emptyExtent junk
      some { readxSubmit again { rd with ops := rd.ops ++ [(m.tid, again)] } with
        resubmitted := rd.resubmitted ++ [(ex, again)] }
    else
      let rd := { rd with answered := rd.answered ++ [(ex, m.data)] }
      if rd.ops = [] then
        if rd.readData = [] then some (rd.finish m.data.length m.data)
        else
          (assemble rd.extents fun oid => ((ex.oid, m.data) :: rd.readData).lookup oid).map fun r => rd.finish r.2 r.1
      else some { rd with readData := (ex.oid, m.data) :: rd.readData }
  else some rd

/-! ### The entries of the ids -/

section ops

variable {ops : List (ℕ × ObjectExtent)} {tid : ℕ} {ex : ObjectExtent}

theorem lookup_of_mem (hn : (ops.map Prod.fst).Nodup) (h : (tid, ex) ∈ ops) : ops.lookup tid = some ex := by
  induction ops with
  | nil => cases h
  | cons p ops ih =>
    rw [map_cons, nodup_cons] at hn
    rw [lookup_cons]
    rcases mem_cons.mp h with rfl | h
    · simp
    · have hne : tid ≠ p.1 := fun heq => hn.1 (heq ▸ mem_map_of_mem h)
      have hf : (tid == p.1) = false := by simpa using hne
      simp only [hf]
      exact ih hn.2 h

theorem perm_filter_of_mem (hn : (ops.map Prod.fst).Nodup) (h : (tid, ex) ∈ ops) :
    ops.Perm ((tid, ex) :: ops.filter fun p => p.1 ≠ tid) := by
  induction ops with
  | nil => cases h
  | cons p ops ih =>
    rw [map_cons, nodup_cons] at hn
    rcases mem_cons.mp h with rfl | h
    · have hall : ops.filter (fun p => p.1 ≠ tid) = ops := by
        refine filter_eq_self.mpr fun q hq => ?_
        have hne : q.1 ≠ tid := fun heq => hn.1 (mem_map.mpr ⟨q, hq, heq⟩)
        simpa using hne
      rw [filter_cons_of_neg (by simp), hall]
    · have hne : p.1 ≠ tid := fun heq => hn.1 (heq ▸ mem_map_of_mem h)
      rw [filter_cons_of_pos (by simpa using hne)]
      exact ((ih hn.2 h).cons p).trans (List.Perm.swap _ _ _)

theorem readx_eq (exts : List ObjectExtent) (t : ℕ) : readx exts t =
    ⟨exts, (range' (t + 1) exts.length).zip exts, [], [], range' (t + 1) exts.length, t + exts.length, [],
      [], []⟩ := by
  have hfold : ∀ (es : List ObjectExtent) (rd : OSDRead), es.foldl (fun rd ex => readxSubmit ex rd) rd =
      { rd with
        ops := rd.ops ++ (range' (rd.lastTid + 1) es.length).zip es
        opRead := rd.opRead ++ range' (rd.lastTid + 1) es.length
        lastTid := rd.lastTid + es.length } := by
    intro es
    induction es with
    | nil => intro rd; simp
    | cons e es ih =>
      intro rd
      rw [foldl_cons, ih]
      simp [readxSubmit, range'_succ]
      omega
  rw [readx, hfold]
  simp

end ops

/-! ### Runs without -EAGAIN -/

/-- Every extent is answered or outstanding, and what was answered is there for the last reply. -/
structure Accounted (exts : List ObjectExtent) (rd : OSDRead) : Prop where
  extents : rd.extents = exts
  pending : (rd.answered.map Prod.fst ++ rd.ops.map Prod.snd).Perm exts
  opRead : rd.opRead = rd.ops.map Prod.fst
  nodup : (rd.ops.map Prod.fst).Nodup
  kept : rd.ops ≠ [] → ∀ p ∈ rd.answered, rd.readData.lookup p.1.oid = some p.2
  fits : ∀ p ∈ rd.answered, p.2.length ≤ p.1.length
  finished : rd.finished.length = if rd.ops = [] then 1 else 0
  resubmitted : rd.resubmitted = []
  old : ∀ i ∈ rd.opRead, i ≤ rd.lastTid

theorem accounted_readx {exts : List ObjectExtent} (hne : exts ≠ []) (t : ℕ) : Accounted exts (readx exts t) := by
  have hfst : ((range' (t + 1) exts.length).zip exts).map Prod.fst = range' (t + 1) exts.length :=
    map_fst_zip (by rw [length_range'])
  have hsnd : ((range' (t + 1) exts.length).zip exts).map Prod.snd = exts :=
    map_snd_zip (by rw [length_range'])
  have hops : (range' (t + 1) exts.length).zip exts ≠ [] := fun hnil => hne (by rw [← hsnd, hnil, map_nil])
  rw [readx_eq]
  refine ⟨rfl, ?_, hfst.symm, ?_, fun _ => nofun, nofun, (if_neg hops).symm, rfl, fun i hi => ?_⟩
  · rw [hsnd]
    exact .refl _
  · rw [hfst]
    exact nodup_range'
  · have := mem_range'_1.mp hi
    change i ≤ t + exts.length
    omega

/-- What the last reply delivers: the file that all replies are of. -/
def Delivered (len : ℕ) (rd : OSDRead) : Prop :=
  ∀ file : ℕ → UInt8, (∀ p ∈ rd.answered, p.1.positions.map file = pad p.1.length p.2) →
    ∃ n, rd.bl = (List.range n).map file ∧ rd.finished = [Int.bmod n (2 ^ 32)] ∧ n ≤ len ∧
      JustAfter (rd.answered.flatMap fun p => p.1.positions.take p.2.length) n

section step

variable {l : FileLayout} {objectLayout : ObjectT → ℕ} {ino rev offset len junk : ℕ} {exts : List ObjectExtent}
  {rd rd' : OSDRead}

section

variable (hw : Walked l objectLayout ino rev offset len exts)
include hw

theorem Accounted.oids (h : Accounted exts rd) :
    ((rd.answered.map Prod.fst ++ rd.ops.map Prod.snd).map (·.oid)).Nodup :=
  (h.pending.map _).nodup_iff.mpr hw.nodup

/-- The last reply: all is answered, and `data` finds what was. -/
theorem assemble_answered {answered : List (ObjectExtent × Bytes)}
    (data : ObjectT → Option Bytes) (hperm : (answered.map Prod.fst).Perm exts)
    (hdata : ∀ p ∈ answered, data p.1.oid = some p.2) (hfits : ∀ p ∈ answered, p.2.length ≤ p.1.length) :
    ∃ r, assemble exts data = some r ∧
      ∀ file : ℕ → UInt8, (∀ p ∈ answered, p.1.positions.map file = pad p.1.length p.2) →
      r.1 = (range r.2).map file ∧ r.2 ≤ len ∧
        JustAfter (answered.flatMap fun p => p.1.positions.take p.2.length) r.2 := by
  have hall : ∀ ex ∈ exts, ∃ d, (ex, d) ∈ answered := fun ex hex => by
    obtain ⟨p, hp, rfl⟩ := mem_map.mp (hperm.symm.subset hex)
    exact ⟨p.2, hp⟩
  obtain ⟨r, hr⟩ := isSome_iff_exists.mp (assemble_isSome hw fun ex hex => by
    obtain ⟨d, hd⟩ := hall ex hex
    exact ⟨d, hdata _ hd, hfits _ hd⟩)
  refine ⟨r, hr, fun file hfile => ?_⟩
  obtain ⟨n, hn, hle, hjust⟩ := assemble_eq hw fun ex hex => by
    obtain ⟨d, hd⟩ := hall ex hex
    exact ⟨d, hdata _ hd, hfits _ hd, hfile _ hd⟩
  obtain rfl : r = ((range n).map file, n) := some.inj (hr.symm.trans hn)
  refine ⟨rfl, hle, hjust.of_perm ((hperm.symm.flatMap_right _).trans ?_)⟩
  rw [flatMap_map]
  refine List.Perm.of_eq (flatMap_congr fun p hp => ?_)
  rw [given, hdata p hp, getD_some]

/-- One extent only: what was read of it is the buffer. -/
theorem single_answered {ex : ObjectExtent} (hone : exts = [ex])
    {data : Bytes} (hfits : data.length ≤ ex.length) {file : ℕ → UInt8}
    (hfile : ex.positions.map file = pad ex.length data) :
    data = (range data.length).map file ∧ data.length ≤ len ∧
      JustAfter (ex.positions.take data.length) data.length := by
  have hin : ex ∈ exts := hone ▸ mem_singleton_self ex
  have hpos : ex.positions = range len := by
    have hperm : ex.positions.Perm (range len) := by
      have hp := hw.perm
      rwa [hone, flatMap_singleton] at hp
    exact hperm.eq_of_pairwise (fun a b _ _ hab hba => absurd hab hba.not_gt) (hw.ordered ex hin) pairwise_lt_range
  have hlen : data.length ≤ len := by
    have hlength := (hw.mapped ex hin).length_positions
    rw [hpos, length_range] at hlength
    omega
  have htake : (range len).take data.length = range data.length := by
    rw [take_range, min_eq_left hlen]
  rw [hpos] at hfile ⊢
  refine ⟨?_, hlen, ?_⟩
  · rw [← htake, map_take, hfile, pad, take_left]
  · rw [htake]
    refine ⟨fun p hp => mem_range.mp hp, ?_⟩
    rcases eq_zero_or_pos data.length with h0 | hpos
    · exact .inl h0
    · exact .inr (mem_range.mpr (by omega))

end

/-- **A reply to an outstanding extent.** -/
theorem accounted_step (junk : ℕ) (hw : Walked l objectLayout ino rev offset len exts) (h : Accounted exts rd) {tid : ℕ}
    {ex : ObjectExtent} {result : ℤ} {data : Bytes} (hin : (tid, ex) ∈ rd.ops) (hresult : result ≠ - eagain)
    (hfits : data.length ≤ ex.length) :
    ∃ rd', handleOsdReadReply junk rd ⟨tid, result, data⟩ = some rd' ∧ Accounted exts rd' ∧
      rd'.ops = rd.ops.filter (fun p => p.1 ≠ tid) ∧ rd'.answered = rd.answered ++ [(ex, data)] ∧
      (rd'.ops = [] → Delivered len rd') := by
  have hops : rd.ops ≠ [] := ne_nil_of_mem hin
  have hmem : tid ∈ rd.opRead := h.opRead ▸ mem_map_of_mem hin
  have hlook : (rd.ops.lookup tid).getD (emptyExtent junk) = ex := by rw [lookup_of_mem h.nodup hin, getD_some]
  have hperm := perm_filter_of_mem h.nodup hin
  have hread : rd.opRead.filter (· ≠ tid) = (rd.ops.filter fun p => p.1 ≠ tid).map Prod.fst := by
    rw [h.opRead, List.filter_map]
    rfl
  have hnodup : ((rd.ops.filter fun p => p.1 ≠ tid).map Prod.fst).Nodup := h.nodup.sublist (filter_sublist.map _)
  have hpending : ((rd.answered ++ [(ex, data)]).map Prod.fst ++ (rd.ops.filter fun p => p.1 ≠ tid).map Prod.snd).Perm
    exts := by
    rw [map_append, map_singleton, append_assoc, singleton_append]
    exact ((hperm.map Prod.snd).symm.append_left _).trans h.pending
  have hfits' : ∀ p ∈ rd.answered ++ [(ex, data)], p.2.length ≤ p.1.length :=
    forall_mem_append.mpr ⟨h.fits, fun p hp => by rw [mem_singleton.mp hp]; exact hfits⟩
  -- what was read of the others is still found
  have hkept : ∀ p ∈ rd.answered ++ [(ex, data)],
      (fun oid => ((ex.oid, data) :: rd.readData).lookup oid) p.1.oid = some p.2 := by
    refine forall_mem_append.mpr ⟨fun p hp => ?_, fun p hp => ?_⟩
    · have hoids := h.oids hw
      rw [map_append] at hoids
      have hne : p.1.oid ≠ ex.oid := (nodup_append.mp hoids).2.2 _
        (mem_map_of_mem (mem_map_of_mem hp)) _ (mem_map_of_mem (mem_map.mpr ⟨_, hin, rfl⟩))
      have hf : (p.1.oid == ex.oid) = false := by simpa using hne
      simp only [lookup_cons, hf]
      exact h.kept hops p hp
    · rw [mem_singleton.mp hp]
      simp
  have hfin0 : rd.finished = [] := eq_nil_of_length_eq_zero (h.finished.trans (if_neg hops))
  have hold : ∀ i ∈ rd.opRead.filter (· ≠ tid), i ≤ rd.lastTid := fun i hi => h.old i (mem_of_mem_filter hi)
  unfold handleOsdReadReply
  rw [if_pos hmem]
  simp only [hlook, if_neg hresult]
  by_cases hlast : (rd.ops.filter fun p => p.1 ≠ tid) = []
  · have hans : ((rd.answered ++ [(ex, data)]).map Prod.fst).Perm exts := by
      rwa [hlast, map_nil, append_nil] at hpending
    rw [if_pos hlast]
    by_cases hone : rd.readData = []
    · have hanswered : rd.answered = [] := eq_nil_iff_forall_not_mem.mpr fun p hp => by
        have hk := h.kept hops p hp
        rw [hone] at hk
        cases hk
      have hexts : exts = [ex] := by
        rw [hanswered] at hans
        exact perm_singleton.mp hans.symm
      rw [if_pos hone]
      refine ⟨_, rfl, ⟨h.extents, hpending, hread, hnodup, fun hne => absurd hlast hne, hfits', ?_, h.resubmitted,
        hold⟩,
        rfl, rfl, fun _ file hfile => ?_⟩
      · change (rd.finished ++ _).length = if (rd.ops.filter fun p => p.1 ≠ tid) = [] then 1 else 0
        rw [if_pos hlast, hfin0]
        rfl
      · obtain ⟨hbl, hle, hjust⟩ := single_answered hw hexts hfits (hfile (ex, data) (by simp [OSDRead.finish]))
        refine ⟨data.length, hbl, ?_, hle, ?_⟩
        · change rd.finished ++ _ = _
          rw [hfin0, nil_append]
        · change JustAfter ((rd.answered ++ [(ex, data)]).flatMap _) _
          rw [hanswered, nil_append, flatMap_singleton]
          exact hjust
    · obtain ⟨r, hr, hfile⟩ :=
        assemble_answered hw (fun oid => ((ex.oid, data) :: rd.readData).lookup oid) hans hkept hfits'
      rw [if_neg hone, h.extents, hr]
      refine ⟨_, rfl, ⟨rfl, hpending, hread, hnodup, fun hne => absurd hlast hne, hfits', ?_, h.resubmitted, hold⟩,
        rfl, rfl, fun _ file hf => ?_⟩
      · change (rd.finished ++ _).length = if (rd.ops.filter fun p => p.1 ≠ tid) = [] then 1 else 0
        rw [if_pos hlast, hfin0]
        rfl
      · obtain ⟨hbl, hle, hjust⟩ := hfile file hf
        refine ⟨r.2, hbl, ?_, hle, hjust⟩
        change rd.finished ++ _ = _
        rw [hfin0, nil_append]
  · rw [if_neg hlast]
    refine ⟨_, rfl, ⟨h.extents, hpending, hread, hnodup, fun _ => hkept, hfits', ?_, h.resubmitted, hold⟩, rfl, rfl,
      fun hnil => absurd hnil hlast⟩
    rw [if_neg hlast, hfin0]
    rfl

end step

/-! ### A striped read -/

/-- What an OSD returns of an object, which may be shorter than asked for, or missing. -/
def answer (content : ObjectT → Bytes) (ex : ObjectExtent) : Bytes := ((content ex.oid).drop ex.start).take ex.length

/-- The replies to extents, one after the other. -/
def answerAll (junk : ℕ) (result : ObjectT → ℤ) (content : ObjectT → Bytes) (order : List (ℕ × ObjectExtent))
    (rd : OSDRead) : Option OSDRead :=
  order.foldlM (fun rd p => handleOsdReadReply junk rd ⟨p.1, result p.2.oid, answer content p.2⟩) rd

/-- A byte of the file: 0 in a hole. -/
def fileByte (l : FileLayout) (ino rev : ℕ) (content : ObjectT → Bytes) (y : ℕ) : UInt8 :=
  (content (objectOf l ino rev y)).getD (l.xOffset y) 0

/-- The object of the byte reaches it. -/
def Reached (l : FileLayout) (ino rev : ℕ) (content : ObjectT → Bytes) (y : ℕ) : Prop :=
  l.xOffset y < (content (objectOf l ino rev y)).length

instance (l : FileLayout) (ino rev : ℕ) (content : ObjectT → Bytes) : DecidablePred (Reached l ino rev content) :=
  fun _ => inferInstanceAs (Decidable (_ < _))

/-- The buffer is the file from `offset` on, up to just after the last byte that an object
returned, and `onfinish` was called once, with its length. -/
def ReadsFile (l : FileLayout) (ino rev offset len : ℕ) (content : ObjectT → Bytes) (rd : OSDRead) : Prop :=
  ∃ n, rd.bl = (List.range n).map (fun p => fileByte l ino rev content (offset + p)) ∧ n ≤ len ∧
    JustAfter ((List.range len).filter fun p => Reached l ino rev content (offset + p)) n ∧
    rd.finished = [(rd.bl.length : ℤ)]

section striped

variable {l : FileLayout} {objectLayout : ObjectT → ℕ} {ino rev offset len junk : ℕ} {exts : List ObjectExtent}
  {rd rd' : OSDRead}
  {content : ObjectT → Bytes} {result : ObjectT → ℤ}

theorem length_answer_le (content : ObjectT → Bytes) (ex : ObjectExtent) : (answer content ex).length ≤ ex.length :=
  length_take_le _ _

theorem answerAll_spec (hw : Walked l objectLayout ino rev offset len exts) (hresult : ∀ oid, result oid ≠ - eagain) :
    ∀ {order rest : List (ℕ × ObjectExtent)} {rd : OSDRead}, Accounted exts rd → (order ++ rest).Perm rd.ops →
    (∀ p ∈ rd.answered, p.2 = answer content p.1) →
    ∃ rd', answerAll junk result content order rd = some rd' ∧ Accounted exts rd' ∧ rest.Perm rd'.ops ∧
      ∀ p ∈ rd'.answered, p.2 = answer content p.1
  | [], rest, rd, h, hperm, hans => ⟨rd, rfl, h, hperm, hans⟩
  | (tid, ex) :: order, rest, rd, h, hperm, hans => by
    have hin : (tid, ex) ∈ rd.ops := hperm.subset mem_cons_self
    obtain ⟨next, hstep, hacc, hops, hanswered, -⟩ :=
      accounted_step junk hw h hin (hresult ex.oid) (length_answer_le content ex)
    have hrest : (order ++ rest).Perm next.ops := by
      rw [hops]
      exact (hperm.trans (perm_filter_of_mem h.nodup hin)).cons_inv
    have hnext : ∀ p ∈ next.answered, p.2 = answer content p.1 := by
      rw [hanswered]
      exact forall_mem_append.mpr ⟨hans, fun p hp => by rw [mem_singleton.mp hp]⟩
    obtain ⟨rd', hall, hrd'⟩ := answerAll_spec hw hresult hacc hrest hnext
    refine ⟨rd', ?_, hrd'⟩
    rw [answerAll, foldlM_cons, hstep]
    exact hall

theorem filter_eq_take {p : ℕ → Bool} : ∀ {ps : List ℕ} {k : ℕ}, (∀ i (h : i < ps.length), p ps[i] = true ↔ i < k) →
    ps.filter p = ps.take k
  | [], _, _ => by simp
  | a :: ps, 0, h => by
    refine filter_eq_nil_iff.mpr fun x hx => ?_
    obtain ⟨i, hi, rfl⟩ := getElem_of_mem hx
    exact fun hcon => absurd ((h i hi).mp hcon) (Nat.not_lt_zero i)
  | a :: ps, k + 1, h => by
    have hhead : p a = true := (h 0 (Nat.zero_lt_succ _)).mpr (Nat.zero_lt_succ _)
    rw [filter_cons_of_pos hhead, take_succ_cons, filter_eq_take fun i hi => ?_]
    simpa using h (i + 1) (Nat.succ_lt_succ hi)

/-- The bytes that an extent's object returned are those of the file there. -/
theorem answer_file (hw : Walked l objectLayout ino rev offset len exts) {ex : ObjectExtent} (hex : ex ∈ exts) :
    ex.positions.map (fun p => fileByte l ino rev content (offset + p)) = pad ex.length (answer content ex) ∧
      ex.positions.take (answer content ex).length = ex.positions.filter fun p =>
        Reached l ino rev content (offset + p) := by
  have hm := hw.mapped ex hex
  have hlen := hm.length_positions
  have hanswer : (answer content ex).length = min ex.length ((content ex.oid).length - ex.start) := by
    rw [answer, length_take, length_drop]
  have hat : ∀ i (hi : i < ex.positions.length), objectOf l ino rev (offset + ex.positions[i]) = ex.oid ∧
      l.xOffset (offset + ex.positions[i]) = ex.start + i := fun i hi => by
    obtain ⟨hbno, hoff⟩ := hm.getElem hi
    obtain ⟨hino, hrev, -⟩ := hw.oid ex hex
    exact ⟨by rw [objectOf, hbno, ← hino, ← hrev], hoff⟩
  constructor
  · refine ext_getElem ?_ fun i hi hi' => ?_
    · rw [length_map, length_pad (length_answer_le content ex), hlen]
    · rw [length_map] at hi
      obtain ⟨hobj, hoff⟩ := hat i hi
      rw [getElem_map, fileByte, hobj, hoff]
      simp only [pad]
      by_cases hin : i < (answer content ex).length
      · rw [getElem_append_left hin]
        have hi'' : ex.start + i < (content ex.oid).length := by omega
        simp [answer, getElem?_eq_getElem hi'']
      · have hout : (content ex.oid).length ≤ ex.start + i := by omega
        rw [getElem_append_right (not_lt.mp hin)]
        simp [zeros, getElem?_eq_none hout]
  · refine (filter_eq_take fun i hi => ?_).symm
    obtain ⟨hobj, hoff⟩ := hat i hi
    rw [decide_eq_true_eq, Reached, hobj, hoff, hanswer]
    omega

/-- **The last reply**, after all others in some order. -/
theorem answer_last (junk : ℕ) (content : ObjectT → Bytes) (result : ObjectT → ℤ)
    (hw : Walked l objectLayout ino rev offset len exts) (hresult : ∀ oid, result oid ≠ - eagain)
    {t : ℕ} {order : List (ℕ × ObjectExtent)} {last : ℕ × ObjectExtent}
      (hperm : (order ++ [last]).Perm (readx exts t).ops) :
    ∃ rd rd' n, answerAll junk result content order (readx exts t) = some rd ∧ rd.finished = [] ∧
      handleOsdReadReply junk rd ⟨last.1, result last.2.oid, answer content last.2⟩ = some rd' ∧
      rd'.bl = (range n).map (fun p => fileByte l ino rev content (offset + p)) ∧
      rd'.finished = [Int.bmod n (2 ^ 32)] ∧ n ≤ len ∧
      JustAfter ((range len).filter fun p => Reached l ino rev content (offset + p)) n := by
  have hne : exts ≠ [] := by
    rintro rfl
    exact absurd hperm.length_eq (by simp [readx])
  obtain ⟨rd, hall, hacc, hrest, hans⟩ :=
    answerAll_spec hw hresult (accounted_readx hne t) hperm (by rw [readx_eq]; exact nofun)
  have hops : rd.ops = [last] := perm_singleton.mp hrest.symm
  have hin : (last.1, last.2) ∈ rd.ops := hops ▸ mem_singleton_self last
  obtain ⟨rd', hstep, hacc', hops', hanswered, hdelivered⟩ :=
    accounted_step junk hw hacc hin (hresult last.2.oid) (length_answer_le content last.2)
  have hnone : rd'.ops = [] := by
    rw [hops', hops]
    simp
  have hfinished : rd.finished = [] := by
    refine eq_nil_of_length_eq_zero (hacc.finished.trans (if_neg ?_))
    rw [hops]
    exact cons_ne_nil _ _
  have hans' : ∀ p ∈ rd'.answered, p.1 ∈ exts ∧ p.2 = answer content p.1 := by
    refine fun p hp => ⟨hacc'.pending.subset (mem_append_left _ (mem_map_of_mem hp)), ?_⟩
    rw [hanswered] at hp
    rcases mem_append.mp hp with hp | hp
    · exact hans p hp
    · rw [mem_singleton.mp hp]
  obtain ⟨n, hbl, hfin, hle, hjust⟩ :=
    hdelivered hnone (fun p => fileByte l ino rev content (offset + p)) fun p hp => by
    obtain ⟨hex, hdata⟩ := hans' p hp
    rw [hdata]
    exact (answer_file hw hex).1
  refine ⟨rd, rd', n, hall, hfinished, hstep, hbl, hfin, hle, hjust.of_perm ?_⟩
  -- the bytes given of all extents are the bytes of the range that are reached
  have hpending := hacc'.pending
  rw [hnone, map_nil, append_nil] at hpending
  have hgiven : (rd'.answered.flatMap fun p => p.1.positions.take p.2.length) =
      (rd'.answered.map Prod.fst).flatMap fun ex =>
        ex.positions.filter fun p => Reached l ino rev content (offset + p) := by
    rw [flatMap_map]
    refine flatMap_congr fun p hp => ?_
    obtain ⟨hex, hdata⟩ := hans' p hp
    rw [hdata]
    exact (answer_file hw hex).2
  rw [hgiven, ← filter_flatMap]
  exact ((hpending.flatMap_right _).trans hw.perm).filter _

end striped

/-- **Striped reads reassemble the file**, up to the largest `int`. -/
theorem striped_read (l : FileLayout) (objectLayout : ObjectT → ℕ) (ino rev offset len junk t : ℕ)
    (exts : List ObjectExtent)
    (content : ObjectT → Bytes) (result : ObjectT → ℤ) (order : List (ℕ × ObjectExtent)) (last : ℕ × ObjectExtent)
    (hexts : fileToExtents l objectLayout ino offset len rev = some exts) (hlen : len < 2 ^ 31)
    (hresult : ∀ oid, result oid ≠ - eagain) (horder : (order ++ [last]).Perm (readx exts t).ops) :
    ∃ rd rd', answerAll junk result content order (readx exts t) = some rd ∧ rd.finished = [] ∧
      handleOsdReadReply junk rd ⟨last.1, result last.2.oid, answer content last.2⟩ = some rd' ∧
      ReadsFile l ino rev offset len content rd' := by
  have hw := fileToExtents_walked hexts
  rw [leftOf, if_pos (by omega)] at hw
  obtain ⟨rd, rd', n, hall, hnone, hstep, hbl, hfin, hle, hjust⟩ := answer_last junk content result hw hresult horder
  refine ⟨rd, rd', hall, hnone, hstep, n, hbl, hle, hjust, ?_⟩
  rw [hfin, hbl, length_map, length_range, Int.bmod_eq_of_le (by omega) (by omega)]

theorem fileToExtents_two : fileToExtents ⟨2, 2, 2⟩ (·.bno) 1 1 3 0 =
    some [⟨⟨1, 0, 0⟩, 1, 1, 0, [(0, 1)]⟩, ⟨⟨1, 1, 0⟩, 0, 2, 1, [(1, 2)]⟩] := by
  rw [fileToExtents, if_pos (by decide), fileLoop_step (by decide) (by decide) (by decide) rfl,
    fileLoop_step (by decide) (by decide) (by decide) rfl]
  change Option.map _ (fileLoop _ _ 1 0 1 4 0 _) = _
  rw [fileLoop_zero]
  rfl

/-- Two objects, the second shorter than asked for, and its reply first. -/
theorem striped_read_two : ∃ rd rd',
    answerAll 0 (fun _ => 0) (fun oid => if oid.bno = 0 then [7, 8] else [9]) [(2, ⟨⟨1, 1, 0⟩, 0, 2, 1, [(1, 2)]⟩)]
      (readx [⟨⟨1, 0, 0⟩, 1, 1, 0, [(0, 1)]⟩, ⟨⟨1, 1, 0⟩, 0, 2, 1, [(1, 2)]⟩] 0) = some rd ∧ rd.finished = [] ∧
      handleOsdReadReply 0 rd ⟨1, 0, [8]⟩ = some rd' ∧
      ReadsFile ⟨2, 2, 2⟩ 1 0 1 3 (fun oid => if oid.bno = 0 then [7, 8] else [9]) rd' :=
  striped_read ⟨2, 2, 2⟩ (·.bno) 1 0 1 3 0 0 [⟨⟨1, 0, 0⟩, 1, 1, 0, [(0, 1)]⟩, ⟨⟨1, 1, 0⟩, 0, 2, 1, [(1, 2)]⟩]
    (fun oid => if oid.bno = 0 then [7, 8] else [9]) (fun _ => 0) [(2, ⟨⟨1, 1, 0⟩, 0, 2, 1, [(1, 2)]⟩)]
    (1, ⟨⟨1, 0, 0⟩, 1, 1, 0, [(0, 1)]⟩)
    fileToExtents_two (by decide) (fun _ => by decide) (by decide)

/-- Of 2^31 bytes, `onfinish` is told that there are -2^31. -/
theorem striped_read_int : ∃ ex last,
    fileToExtents ⟨2 ^ 31, 1, 2 ^ 31⟩ (·.bno) 1 0 (2 ^ 31) 0 = some [ex] ∧ ([] ++ [last]).Perm (readx [ex] 0).ops ∧
      ∃ rd', handleOsdReadReply 0 (readx [ex] 0) ⟨last.1, 0, answer (fun _ => List.replicate (2 ^ 31) 1) last.2⟩ =
        some rd' ∧
        ¬ ReadsFile ⟨2 ^ 31, 1, 2 ^ 31⟩ 1 0 0 (2 ^ 31) (fun _ => List.replicate (2 ^ 31) 1) rd' := by
  have hexts : fileToExtents ⟨2 ^ 31, 1, 2 ^ 31⟩ (·.bno) 1 0 (2 ^ 31) 0 =
      some [⟨⟨1, 0, 0⟩, 0, 2 ^ 31, 0, [(0, 2 ^ 31)]⟩] := by
    rw [fileToExtents, if_pos (by decide), fileLoop_step (by decide) (by decide) (by decide) rfl]
    change Option.map _ (fileLoop _ _ 1 0 0 (2 ^ 31) 0 _) = _
    rw [fileLoop_zero]
    rfl
  have hw := fileToExtents_walked hexts
  rw [leftOf, if_pos (by decide)] at hw
  have horder : ([] ++ [((1, ⟨⟨1, 0, 0⟩, 0, 2 ^ 31, 0, [(0, 2 ^ 31)]⟩) : ℕ × ObjectExtent)]).Perm
      (readx [⟨⟨1, 0, 0⟩, 0, 2 ^ 31, 0, [(0, 2 ^ 31)]⟩] 0).ops := .refl _
  obtain ⟨rd, rd', n, hall, -, hstep, hbl, hfin, hle, hjust⟩ := answer_last 0 (fun _ => replicate (2 ^ 31) 1)
    (fun _ => 0) hw (fun _ => by decide) horder
  cases hall
  refine ⟨_, _, hexts, .refl _, rd', hstep, ?_⟩
  rintro ⟨m, hm, -, -, hfin'⟩
  -- all of the last byte of the range is there
  have hlast : 2 ^ 31 - 1 < n := by
    refine hjust.1 _ (mem_filter.mpr ⟨mem_range.mpr (by decide), decide_eq_true ?_⟩)
    rw [Reached, length_replicate]
    decide
  obtain rfl : n = 2 ^ 31 := by omega
  rw [hfin, hbl, length_map, length_range] at hfin'
  exact absurd hfin' (by decide)

/-! ### Retries -/

/-- An OSD returns no more than was asked for. -/
def Fits (rd : OSDRead) (m : OpReply) : Prop := ∀ ex, (m.tid, ex) ∈ rd.ops → m.data.length ≤ ex.length

/-- The reply is not -EAGAIN, or is a stray one. -/
def Kept (rd : OSDRead) (m : OpReply) : Prop := Fits rd m ∧ (m.tid ∈ rd.opRead → m.result ≠ - eagain)

/-- What was submitted again is what failed, and `onfinish` was called once if every
extent is answered, and not before. -/
def Good (rd : OSDRead) : Prop :=
  (∀ p ∈ rd.resubmitted, p.2 = p.1) ∧
    rd.finished.length = if ∀ ex ∈ rd.extents, ex ∈ rd.answered.map Prod.fst then 1 else 0

section retry

variable {l : FileLayout} {objectLayout : ObjectT → ℕ} {ino rev offset len junk t : ℕ} {exts : List ObjectExtent}
  {rd rd' : OSDRead} {m : OpReply}

theorem Accounted.ops_nil_iff (hw : Walked l objectLayout ino rev offset len exts) (h : Accounted exts rd) :
    rd.ops = [] ↔ ∀ ex ∈ rd.extents, ex ∈ rd.answered.map Prod.fst := by
  rw [h.extents]
  constructor
  · intro hnil ex hex
    have hin := h.pending.symm.subset hex
    rwa [hnil, map_nil, append_nil] at hin
  · intro hall
    refine eq_nil_iff_forall_not_mem.mpr fun p hp => ?_
    have hp' := mem_map_of_mem (f := Prod.snd) hp
    have hin : p.2 ∈ exts := h.pending.subset (mem_append_right _ hp')
    have hnodup := h.pending.nodup_iff.mpr hw.nodup.of_map
    exact (nodup_append.mp hnodup).2.2 _ (hall p.2 hin) _ hp' rfl

theorem Accounted.good (hw : Walked l objectLayout ino rev offset len exts) (h : Accounted exts rd) : Good rd := by
  refine ⟨fun p hp => ?_, ?_⟩
  · rw [h.resubmitted] at hp
    cases hp
  · rw [h.finished, if_congr (h.ops_nil_iff hw) rfl rfl]

theorem handle_stray (h : m.tid ∉ rd.opRead) : handleOsdReadReply junk rd m = some rd := if_neg h

theorem handle_eagain (junk : ℕ) (h : m.tid ∈ rd.opRead) (hm : m.result = - eagain) :
    ∃ rd', handleOsdReadReply junk rd m = some rd' ∧ rd'.finished = rd.finished ∧
      rd'.ops = rd.ops.filter (fun p => p.1 ≠ m.tid) ++ [(m.tid, emptyExtent junk),
        (rd.lastTid + 1, emptyExtent junk)] ∧
      rd'.opRead = rd.opRead.filter (fun i => i ≠ m.tid) ++ [rd.lastTid + 1] ∧ rd'.lastTid = rd.lastTid + 1 ∧
      rd'.resubmitted = rd.resubmitted ++ [((rd.ops.lookup m.tid).getD (emptyExtent junk), emptyExtent junk)] := by
  refine ⟨_, (if_pos h).trans (if_pos hm), rfl, ?_, rfl, rfl, rfl⟩
  simp [readxSubmit]

/-- **A reply that is not -EAGAIN**, to an extent or a stray one. -/
theorem accounted_kept (junk : ℕ) (hw : Walked l objectLayout ino rev offset len exts) (h : Accounted exts rd)
    (hm : Kept rd m) :
    ∃ rd', handleOsdReadReply junk rd m = some rd' ∧ Accounted exts rd' := by
  obtain ⟨hfits, hresult⟩ := hm
  by_cases hmem : m.tid ∈ rd.opRead
  · obtain ⟨⟨tid, ex⟩, hin, htid⟩ := mem_map.mp (h.opRead ▸ hmem)
    obtain rfl : tid = m.tid := htid
    obtain ⟨rd', hstep, hacc, -⟩ := accounted_step junk hw h hin (hresult hmem) (hfits ex hin)
    exact ⟨rd', hstep, hacc⟩
  · exact ⟨rd, handle_stray hmem, h⟩

theorem accounted_run (hw : Walked l objectLayout ino rev offset len exts) (hne : exts ≠ [])
    (hr : Run.Reach (handleOsdReadReply junk) Kept (readx exts t) rd) : Accounted exts rd := by
  refine hr.inv _ (accounted_readx hne t) fun s m s' hacc hm hstep => ?_
  obtain ⟨s'', hstep', hacc'⟩ := accounted_kept junk hw hacc hm
  obtain rfl : s' = s'' := some.inj (hstep.symm.trans hstep')
  exact hacc'

theorem not_good_eagain (junk : ℕ) (hw : Walked l objectLayout ino rev offset len exts) (h : Accounted exts rd)
    (hmem : m.tid ∈ rd.opRead) (hm : m.result = - eagain) :
    ∃ rd', handleOsdReadReply junk rd m = some rd' ∧ ¬ Good rd' := by
  obtain ⟨⟨tid, ex⟩, hin, htid⟩ := mem_map.mp (h.opRead ▸ hmem)
  obtain rfl : tid = m.tid := htid
  obtain ⟨rd', hstep, -, -, -, -, hagain⟩ := handle_eagain junk hmem hm
  refine ⟨rd', hstep, fun hgood => ?_⟩
  have hsame := hgood.1 (ex, emptyExtent junk) (by
    rw [hagain, lookup_of_mem h.nodup hin]
    exact mem_append_right _ (mem_singleton_self _))
  have hex : ex ∈ exts := h.pending.subset (mem_append_right _ (mem_map.mpr ⟨_, hin, rfl⟩))
  have hpos := hw.pos ex hex
  have hempty : ex = emptyExtent junk := hsame.symm
  rw [hempty] at hpos
  exact lt_irrefl _ hpos

end retry

/-- **A read is retried rightly** exactly as long as no outstanding extent is told -EAGAIN. -/
theorem read_retries (l : FileLayout) (objectLayout : ObjectT → ℕ) (ino rev offset len junk t : ℕ)
    (exts : List ObjectExtent)
    (hexts : fileToExtents l objectLayout ino offset len rev = some exts) (hmulti : 1 < exts.length) (rd : OSDRead)
    (hr : Run.Reach (handleOsdReadReply junk) Kept (readx exts t) rd) :
    Good rd ∧ ∀ m, Fits rd m → ∃ rd', handleOsdReadReply junk rd m = some rd' ∧
      (Good rd' ↔ (m.tid ∈ rd.opRead → m.result ≠ - eagain)) := by
  have hw := fileToExtents_walked hexts
  have hacc := accounted_run hw (ne_nil_of_length_pos (by omega)) hr
  refine ⟨hacc.good hw, fun m hfits => ?_⟩
  by_cases hm : m.tid ∈ rd.opRead → m.result ≠ - eagain
  · obtain ⟨rd', hstep, hacc'⟩ := accounted_kept junk hw hacc ⟨hfits, hm⟩
    exact ⟨rd', hstep, iff_of_true (hacc'.good hw) hm⟩
  · obtain ⟨hmem, heagain⟩ := Classical.not_imp.mp hm
    obtain ⟨rd', hstep, hbad⟩ := not_good_eagain junk hw hacc hmem (not_not.mp heagain)
    exact ⟨rd', hstep, iff_of_false hbad hm⟩


/-- The second extent is answered, the first is not yet. -/
theorem read_retries_two : ∃ rd, handleOsdReadReply 0
    (readx [⟨⟨1, 0, 0⟩, 1, 1, 0, [(0, 1)]⟩, ⟨⟨1, 1, 0⟩, 0, 2, 1, [(1, 2)]⟩] 0) ⟨2, 0, [9]⟩ = some rd ∧
    Good rd ∧ ∀ m, Fits rd m → ∃ rd', handleOsdReadReply 0 rd m = some rd' ∧
      (Good rd' ↔ (m.tid ∈ rd.opRead → m.result ≠ - eagain)) :=
  ⟨_, rfl, read_retries ⟨2, 2, 2⟩ (·.bno) 1 0 1 3 0 0 _ fileToExtents_two (by decide) _
    (.step ⟨2, 0, [9]⟩ .init ⟨fun ex hex => by
      obtain rfl : ex = ⟨⟨1, 1, 0⟩, 0, 2, 1, [(1, 2)]⟩ := by simpa [readx_eq, range'_succ] using hex
      decide, by decide⟩ rfl)⟩

/-- The first extent is told -EAGAIN: nothing is read in its place, and when all
replies are there the read is not over. -/
theorem eagain_reads_nothing : ∃ exts rd, fileToExtents ⟨2, 2, 2⟩ (·.bno) 1 1 3 0 = some exts ∧
    [(⟨1, - eagain, []⟩ : OpReply), ⟨2, 0, [9]⟩, ⟨3, 0, []⟩].foldlM (handleOsdReadReply 0) (readx exts 0) = some rd ∧
      rd.opRead = [] ∧ rd.finished = [] ∧ rd.resubmitted = [(⟨⟨1, 0, 0⟩, 1, 1, 0, [(0, 1)]⟩, emptyExtent 0)] ∧
        ¬ Good rd := by
  refine ⟨_, _, fileToExtents_two, rfl, rfl, rfl, rfl, fun hgood => ?_⟩
  exact absurd (hgood.1 _ (mem_singleton_self _)) (by decide)

end ReadReplies
end Osdc
end Ceph
