/-
# How far all replicas are complete

A primary notes in `peers_complete_thru` up to which version all acting OSDs are
complete, and sends it along with each operation: the log is trimmed to it on
all of them. `put_rep_gather` raises it to what the OSDs have reported with an
operation; `adjust_peers_complete_thru` raises it to what `peer_info` has, but
looks under the places of the acting OSDs for their numbers.

Both only raise it, and so a value that was too high stays.
-/
import Ceph.Osd.LogIndex

namespace Ceph
namespace Osd
namespace CompleteThru

open List

/-! ### What raises it -/

/-- A primary with `peer_info`, of which the `last_complete`s are here. -/
structure Primary extends PG where
  peerInfo : ℕ → Option EVersion

/-- `peer_info[osd].last_complete`, zero where nothing is known. -/
def completeOf (peerInfo : ℕ → Option EVersion) (osd : ℕ) : EVersion := (peerInfo osd).getD EVersion.zero

/-- What `peer_info[osd]` leaves: an OSD that is not known gets an entry. -/
def touch (peerInfo : ℕ → Option EVersion) (osd : ℕ) : ℕ → Option EVersion :=
  if (peerInfo osd).isNone then Function.update peerInfo osd (some EVersion.zero) else peerInfo

/-- The loop of `adjust_peers_complete_thru`, with the lowest `last_complete` so far. -/
def adjustLoop : List ℕ → EVersion → (ℕ → Option EVersion) → EVersion × (ℕ → Option EVersion)
  | [], t, peerInfo => (t, peerInfo)
  | i :: is, t, peerInfo =>
    let peerInfo := touch peerInfo i
    let lastComplete := completeOf peerInfo i
    adjustLoop is (if lastComplete < t then lastComplete else t) peerInfo

namespace Primary

/-- The places in `acting` from the second on. -/
def places (s : Primary) : List ℕ := List.range' 1 (s.acting.length - 1)

/-- `adjust_peers_complete_thru`. -/
def adjustPeersCompleteThru (s : Primary) : Bool × Primary :=
  let p := adjustLoop s.places s.lastComplete s.peerInfo
  let s := { s with peerInfo := p.2 }
  if s.peersCompleteThru < p.1 then (true, { s with peersCompleteThru := p.1 }) else (false, s)

/-- `put_rep_gather`. -/
def putRepGather (s : Primary) (t : ℕ) (g : RepGather) : Primary := { s with toPG := Osd.putRepGather t g s.toPG }

end Primary

/-! ### Bounds -/

/-- `v` is no higher than what we have completed, nor than what each of `peers` has. -/
structure LowerBound (v lastComplete : EVersion) (peers : List ℕ) (complete : ℕ → EVersion) : Prop where
  self : v ≤ lastComplete
  peers : ∀ osd ∈ peers, v ≤ complete osd

/-- The lowest of `m` and some versions is no higher than `v` where one of them is not. -/
theorem foldl_lowest_le (f : ℕ → EVersion) (v : EVersion) : ∀ (is : List ℕ) (m : EVersion),
    is.foldl (fun m i => if f i < m then f i else m) m ≤ v ↔ m ≤ v ∨ ∃ i ∈ is, f i ≤ v
  | [], m => by simp
  | i :: is, m => by
    rw [foldl_cons, foldl_lowest_le f v is, exists_mem_cons_iff, ← or_assoc]
    refine or_congr_left ?_
    by_cases hlt : f i < m
    · rw [if_pos hlt]
      exact ⟨.inr, fun h => h.elim hlt.le.trans id⟩
    · rw [if_neg hlt]
      exact ⟨.inl, fun h => h.elim id fun hi => (not_lt.mp hlt).trans hi⟩

theorem foldl_lowest_bound (f : ℕ → EVersion) (is : List ℕ) (m : EVersion) :
    is.foldl (fun m i => if f i < m then f i else m) m ≤ m ∧
      ∀ i ∈ is, is.foldl (fun m i => if f i < m then f i else m) m ≤ f i :=
  ⟨(foldl_lowest_le f m is m).mpr (.inl le_rfl), fun i hi => (foldl_lowest_le f (f i) is m).mpr (.inr ⟨i, hi, le_rfl⟩)⟩

section loop

theorem touch_apply (peerInfo : ℕ → Option EVersion) (osd j : ℕ) :
    touch peerInfo osd j = if j = osd ∧ peerInfo j = none then some .zero else peerInfo j := by
  unfold touch
  cases hosd : peerInfo osd with
  | none =>
    rw [Option.isNone_none, if_pos rfl, Function.update_apply]
    by_cases hj : j = osd
    · rw [if_pos hj, if_pos ⟨hj, hj ▸ hosd⟩]
    · rw [if_neg hj, if_neg fun h => hj h.1]
  | some v =>
    rw [Option.isNone_some, if_neg Bool.false_ne_true, if_neg]
    rintro ⟨rfl, hnone⟩
    rw [hosd] at hnone
    cases hnone

theorem completeOf_touch (peerInfo : ℕ → Option EVersion) (osd : ℕ) :
    completeOf (touch peerInfo osd) = completeOf peerInfo := by
  funext j
  rw [completeOf, touch_apply, completeOf]
  split_ifs with hnone
  · rw [hnone.2]
    rfl
  · rfl

theorem adjustLoop_lowest : ∀ (is : List ℕ) (t : EVersion) (peerInfo : ℕ → Option EVersion),
    (adjustLoop is t peerInfo).1 =
      is.foldl (fun m i => if completeOf peerInfo i < m then completeOf peerInfo i else m) t
  | [], _, _ => rfl
  | i :: is, t, peerInfo => by
    unfold adjustLoop
    rw [adjustLoop_lowest is, completeOf_touch, foldl_cons]

theorem adjustLoop_peerInfo : ∀ (is : List ℕ) (t : EVersion) (peerInfo : ℕ → Option EVersion) (j : ℕ),
    (adjustLoop is t peerInfo).2 j = if j ∈ is ∧ peerInfo j = none then some .zero else peerInfo j
  | [], _, _, _ => (if_neg fun h => not_mem_nil h.1).symm
  | i :: is, t, peerInfo, j => by
    unfold adjustLoop
    rw [adjustLoop_peerInfo is, touch_apply]
    by_cases hnew : j = i ∧ peerInfo j = none
    · have hentry : (if j = i ∧ peerInfo j = none then some .zero else peerInfo j) = some .zero := if_pos hnew
      rw [hentry, if_neg fun h => nomatch h.2]
      exact (if_pos ⟨mem_cons.mpr (.inl hnew.1), hnew.2⟩).symm
    · have hentry : (if j = i ∧ peerInfo j = none then some .zero else peerInfo j) = peerInfo j := if_neg hnew
      rw [hentry]
      refine if_congr ⟨fun h => ⟨mem_cons_of_mem i h.1, h.2⟩, fun h => ⟨?_, h.2⟩⟩ rfl rfl
      exact (mem_cons.mp h.1).resolve_left fun hji => hnew ⟨hji, h.2⟩

theorem adjustLoop_same (is : List ℕ) (t : EVersion) (peerInfo : ℕ → Option EVersion) :
    (adjustLoop is t peerInfo).2 = peerInfo ↔ ∀ i ∈ is, peerInfo i ≠ none := by
  constructor
  · intro heq i hi hnone
    have hentry := adjustLoop_peerInfo is t peerInfo i
    rw [heq, if_pos ⟨hi, hnone⟩, hnone] at hentry
    cases hentry
  · intro hall
    funext j
    rw [adjustLoop_peerInfo, if_neg fun h => hall j h.1 h.2]

end loop

/-! ### What is left a bound -/

section bound

variable {v m lastComplete : EVersion} {peers : List ℕ} {complete : ℕ → EVersion}

theorem LowerBound.raised : LowerBound (if v < m then m else v) lastComplete peers complete ↔
    LowerBound v lastComplete peers complete ∧ (v < m → LowerBound m lastComplete peers complete) := by
  split_ifs with hlt
  · exact ⟨fun h => ⟨⟨hlt.le.trans h.self, fun osd ho => hlt.le.trans (h.peers osd ho)⟩, fun _ => h⟩, fun h => h.2 hlt⟩
  · exact ⟨fun h => ⟨h, fun h' => absurd h' hlt⟩, And.left⟩

/-- **`adjust_peers_complete_thru`** leaves a bound where one was, no place is unknown,
and each acting OSD has completed as much as we have or an OSD with the number of a place. -/
theorem adjust_bound (s : Primary) :
    (LowerBound s.adjustPeersCompleteThru.2.peersCompleteThru s.lastComplete s.acting.tail (completeOf s.peerInfo) ∧
      s.adjustPeersCompleteThru.2.peerInfo = s.peerInfo) ↔
    LowerBound s.peersCompleteThru s.lastComplete s.acting.tail (completeOf s.peerInfo) ∧
      (∀ i ∈ s.places, s.peerInfo i ≠ none) ∧
      ∀ osd ∈ s.acting.tail, s.lastComplete ≤ completeOf s.peerInfo osd ∨
        ∃ i ∈ s.places, completeOf s.peerInfo i ≤ completeOf s.peerInfo osd := by
  obtain ⟨m, hm⟩ : ∃ m, m = (adjustLoop s.places s.lastComplete s.peerInfo).1 := ⟨_, rfl⟩
  have hraised : s.adjustPeersCompleteThru.2.peersCompleteThru =
      if s.peersCompleteThru < m then m else s.peersCompleteThru := by
    rw [hm]
    unfold Primary.adjustPeersCompleteThru
    dsimp only
    split_ifs <;> rfl
  have hinfo : s.adjustPeersCompleteThru.2.peerInfo = (adjustLoop s.places s.lastComplete s.peerInfo).2 := by
    unfold Primary.adjustPeersCompleteThru
    dsimp only
    split_ifs <;> rfl
  rw [adjustLoop_lowest] at hm
  -- the lowest is a bound just where each acting OSD has completed as much as one looked at
  have hlow : LowerBound m s.lastComplete s.acting.tail (completeOf s.peerInfo) ↔
      ∀ osd ∈ s.acting.tail, s.lastComplete ≤ completeOf s.peerInfo osd ∨
        ∃ i ∈ s.places, completeOf s.peerInfo i ≤ completeOf s.peerInfo osd := by
    have hle : m ≤ s.lastComplete := hm ▸ (foldl_lowest_bound _ _ _).1
    have hiff := fun osd => hm ▸ foldl_lowest_le (completeOf s.peerInfo) (completeOf s.peerInfo osd) s.places s.lastComplete
    exact ⟨fun h osd ho => (hiff osd).mp (h.peers osd ho), fun h => ⟨hle, fun osd ho => (hiff osd).mpr (h osd ho)⟩⟩
  rw [hraised, hinfo, adjustLoop_same, LowerBound.raised, hlow]
  constructor
  · rintro ⟨⟨hold, hnew⟩, hknown⟩
    refine ⟨hold, hknown, ?_⟩
    by_cases hlt : s.peersCompleteThru < m
    · exact hnew hlt
    · have hle := not_lt.mp hlt
      exact hlow.mp ⟨hle.trans hold.self, fun osd ho => hle.trans (hold.peers osd ho)⟩
  · rintro ⟨hold, hknown, hnew⟩
    exact ⟨⟨hold, fun _ => hnew⟩, hknown⟩

/-- Sending a reply leaves alone what `peers_complete_thru` is made of. -/
theorem sendReply_keeps (t : ℕ) (g : RepGather) (s : PG) :
    (sendReply t g s).1.canDelete = g.canDelete ∧ (sendReply t g s).1.pgCompleteThru = g.pgCompleteThru ∧
      (sendReply t g s).2.acting = s.acting ∧ (sendReply t g s).2.lastComplete = s.lastComplete ∧
      (sendReply t g s).2.peersCompleteThru = s.peersCompleteThru := by
  unfold sendReply applyRepop
  split_ifs <;> exact ⟨rfl, rfl, rfl, rfl, rfl⟩

theorem deleteIfDone_pct (t : ℕ) (g : RepGather) (s : PG) :
    (deleteIfDone t g s).peersCompleteThru = if g.canDelete then adjustCompleteThru g s else s.peersCompleteThru := by
  unfold deleteIfDone
  by_cases hdone : g.canDelete = true
  · rw [if_pos hdone, if_pos hdone]
    dsimp only
    split_ifs <;> rfl
  · rw [if_neg hdone, if_neg hdone]
    rfl

/-- **`put_rep_gather`** leaves a bound where one was. -/
theorem put_bound (s : Primary) (t : ℕ) (g : RepGather) :
    (LowerBound (s.putRepGather t g).peersCompleteThru s.lastComplete s.acting g.completeThru ∧
      (s.putRepGather t g).peerInfo = s.peerInfo) ↔
    LowerBound s.peersCompleteThru s.lastComplete s.acting g.completeThru := by
  obtain ⟨hdel, hthru, hacting, hcomplete, hpct⟩ := sendReply_keeps t g s.toPG
  have hput : (s.putRepGather t g).peersCompleteThru =
      if g.canDelete then adjustCompleteThru (sendReply t g s.toPG).1 (sendReply t g s.toPG).2 else s.peersCompleteThru := by
    rw [← hdel, ← hpct]
    exact deleteIfDone_pct t _ _
  rw [hput, and_iff_left (show (s.putRepGather t g).peerInfo = s.peerInfo from rfl)]
  split_ifs with hdone
  · unfold adjustCompleteThru
    have hfun : (sendReply t g s.toPG).1.completeThru = g.completeThru := by
      funext osd
      rw [RepGather.completeThru, hthru, RepGather.completeThru]
    rw [hthru, hacting, hcomplete, hpct, hfun]
    split_ifs with hempty
    · exact .rfl
    · obtain ⟨hle, hpeers⟩ := foldl_lowest_bound g.completeThru s.acting s.lastComplete
      exact LowerBound.raised.trans (and_iff_left fun _ => ⟨hle, hpeers⟩)
  · exact .rfl

end bound

/-! ### Trimming -/

open PGLog in
theorem unindexWhile_left {stop check : Entry → Bool} : ∀ {es : List Entry} {ix : Index} {p : List Entry × Index},
    unindexWhile stop check es ix = .ok p → ∀ e ∈ es, stop e = true → e ∈ p.1
  | [], _, _, _, _, he, _ => nomatch he
  | x :: es, ix, p, h, e, he, hstop => by
    rw [unindexWhile] at h
    split_ifs at h with hx hcheck
    · cases h
      exact he
    · have hne : e ∈ es := (mem_cons.mp he).resolve_left fun heq => hx (heq ▸ hstop)
      cases hix : ix.unindex x with
      | none =>
        rw [hix] at h
        cases h
      | some ix' =>
        rw [hix] at h
        exact unindexWhile_left h e hne hstop

open PGLog in
theorem LowerBound.keeps {v lastComplete : EVersion} {peers : List ℕ} {complete : ℕ → EVersion}
    (h : LowerBound v lastComplete peers complete) {l l' : IndexedLog} (hb : l.backlog = false) (ht : l.trim v = .ok l') :
    ∀ e ∈ l.log, (lastComplete < e.version ∨ ∃ osd ∈ peers, complete osd < e.version) → e ∈ l'.log := by
  intro e he hneed
  have hlt : v < e.version := by
    obtain hself | ⟨osd, ho, hosd⟩ := hneed
    · exact lt_of_le_of_lt h.self hself
    · exact lt_of_le_of_lt (h.peers osd ho) hosd
  have hto : (if l.backlog = true ∧ v < l.bottom then l.bottom else v) = v :=
    if_neg fun hc => Bool.false_ne_true (hb ▸ hc.1)
  rw [IndexedLog.trim] at ht
  simp only [hto] at ht
  cases hw : unindexWhile (fun e => v < e.version)
      (fun e => l.completeTo ≠ some e.version ∧ l.requestedTo ≠ some e.version) l.log l.ix with
  | error b =>
    simp only [hw] at ht
    cases ht
  | ok p =>
    simp only [hw] at ht
    cases ht
    exact unindexWhile_left hw e he (decide_eq_true hlt)

/-- OSD 0 with OSD 3, which has completed 1'2, and a stray OSD 1, which has completed 1'9. -/
def strayAhead : Primary where
  toPG := { init 0 with acting := [0, 3], lastComplete := toLex (1, 10) }
  peerInfo := fun osd => if osd = 1 then some (toLex (1, 9)) else if osd = 3 then some (toLex (1, 2)) else none

end CompleteThru
end Osd
end Ceph
