/-
# What the primary thinks a peer misses

When a primary activates a PG it sends each peer the part of its log that the
peer lacks, and enters the objects of that part in `peer_missing`; the peer
enters them in its own `missing` when it merges what it is sent. The primary
takes a delete for an update. The peer replays its part from the newest entry
down, so an older update enters an object again that a delete has taken off.

Both sides are folds over the same entries, and an object is looked at alone:
`recorded` is what the primary makes of it. Of the entries the peer replays
(`replayed`) only the newest update of an object counts; an object that it
replays no entry of keeps what it had, or what was in entries that the peer
drops as divergent (`held`).
-/
import Ceph.Osd.LogIndex
import Mathlib.Data.Finset.Max

namespace Ceph
namespace Osd
namespace PGLog

open List Function
open Option hiding max_eq_left max_eq_right max_le

/-! ### What the primary does -/

/-- The loop of `copy_after`: the entries down to `v`, newest first. -/
def copyLoop (v : EVersion) : List Entry → Option (List Entry)
  | [] => some []
  | e :: es =>
    if e.version = v then some []
    else if v < e.version then (copyLoop v es).map (e :: ·)
    else none

/-- `copy_after`; `none` is a failed assertion. -/
def copyAfter (other : Log) (v : EVersion) : Option Log :=
  if other.bottom ≤ v then (copyLoop v other.log.reverse).map fun es => ⟨es.reverse, other.top, v, false⟩ else none

/-- What peering gathers of a peer: `peer_info[peer].last_update` and `peer_missing[peer]`. -/
structure View where
  lastUpdate : EVersion
  missing : Missing

/-- The log that `activate` sends to a peer: nothing, everything, or what follows
the peer's last update. -/
def sentLog (lastUpdate : EVersion) (log : Log) (view : View) : Option Log :=
  if view.lastUpdate = lastUpdate then some ⟨[], EVersion.zero, EVersion.zero, false⟩
  else if view.lastUpdate < log.bottom then if log.backlog then some log else none
  else if view.lastUpdate < lastUpdate then copyAfter log view.lastUpdate
  else none

/-- `activate`: the local version of the peer's missing list. -/
def notePeer (view : View) (sent : Log) : Missing :=
  sent.log.foldl (fun m e => if view.lastUpdate < e.version then m.add e.oid e.version else m) view.missing

/-- The loop of `proc_replica_log` over the peer's log, newest first, with the
peer's missing and last update so far. -/
def procEntries (stored : ℕ → EVersion) (olist : List ℕ) (bottom : EVersion) :
    List Entry → IndexedLog → View → Except Assert (IndexedLog × View)
  | [], l, view => .ok (l, view)
  | pp :: rest, l, view =>
    (if (l.ix.objects pp.oid).isNone then generateBacklog stored olist l else .ok l).bind fun l =>
      match l.ix.objects pp.oid with
      | none => procEntries stored olist bottom rest l view
      | some o =>
        if o.version = pp.version then .ok (l, view)
        else
          let m := if pp.version < o.version then view.missing else view.missing.add pp.oid pp.version
          let lu := match rest with
            | [] => bottom
            | next :: _ => next.version
          procEntries stored olist bottom rest l ⟨lu, m⟩

/-- `proc_replica_log`, once the primary has the master log. -/
def procReplicaLog (stored : ℕ → EVersion) (olist : List ℕ) (olog : Log) (omissing : Missing) (lastUpdate : EVersion)
    (l : IndexedLog) : Except Assert (IndexedLog × View) :=
  (procEntries stored olist olog.bottom olog.log.reverse l ⟨lastUpdate, omissing⟩).map fun p =>
    (p.1, { p.2 with lastUpdate := if p.2.lastUpdate < lastUpdate then p.2.lastUpdate else lastUpdate })

/-! ### One object -/

/-- A version to recover, and another. -/
def raise : Option EVersion → EVersion → Option EVersion
  | none, v => some v
  | some u, v => some (max u v)

/-- What the primary makes of object `o`: what it had, and each entry sent above the peer's last update. -/
def recorded (view : View) (sent : Log) (o : ℕ) : Option EVersion :=
  (sent.log.filter fun e => e.oid = o ∧ view.lastUpdate < e.version).foldl (fun u e => raise u e.version)
    (view.missing.missing o)

/-- The entries that the peer replays, newest first. -/
def replayed (pg : PG) (sent : Log) : List Entry :=
  if mergeable pg sent then if extendsTop pg sent then above pg.log.top (upper pg sent) else []
  else sent.log.reverse.takeWhile fun e => pg.log.top < e.version

/-- The entries of the old log, newest first, that `merge_log` drops and has
nothing newer for in the new one. -/
def divergent (top : EVersion) (ix : Index) (old new : List Entry) : List Entry :=
  match new.dropWhile fun e => top < e.version with
  | [] => []
  | p :: _ =>
    if p.version < top then
      (old.takeWhile fun e => p.version < e.version).filter fun e =>
        (ix.objects e.oid).all fun x => x.version < e.version
    else []

/-- The entries that the peer drops as divergent and that the log sent has nothing newer for. -/
def dropped (pg : PG) (sent : Log) : List Entry :=
  if mergeable pg sent then []
  else divergent pg.log.top (Index.all sent.log) pg.log.log.reverse sent.log.reverse

/-- The peer takes an entry that it replays for an update. -/
def takesUpdate (pg : PG) (sent : Log) (e : Entry) : Bool :=
  if mergeable pg sent then e.isUpdate else ! e.isDelete

/-- What the peer makes of an object that it replays no entry of. -/
def held (pg : PG) (sent : Log) (o : ℕ) : Option EVersion :=
  ((dropped pg sent).filter fun e => e.oid = o).foldl (fun u e => raise u e.version) (pg.missing.missing o)

/-- What a peer has: a log in order, and nothing missing that is newer than it. -/
structure Settled (pg : PG) : Prop where
  valid : Valid pg.log.toLog
  missing : ∀ o, ∀ v ∈ pg.missing.missing o, v ≤ pg.log.top
  complete : pg.log.backlog = false → pg.log.bottom ≤ pg.lastComplete

/-- What peering gathers of it. -/
structure Gathered (view : View) (pg : PG) : Prop where
  lastUpdate : view.lastUpdate ≤ pg.log.top
  missing : ∀ o, ∀ v ∈ view.missing.missing o, v ≤ pg.log.top

theorem missing_add (m : Missing) (o : ℕ) (v : EVersion) (x : ℕ) :
    (m.add o v).missing x = if x = o then raise (m.missing o) v else m.missing x := by
  unfold Missing.add
  cases h : m.missing o with
  | none =>
    change Function.update m.missing o (some v) x = _
    rw [update_apply]
    rfl
  | some u =>
    by_cases hlt : v < u
    · rw [if_pos (by simpa using hlt), raise, max_eq_left hlt.le]
      by_cases hx : x = o
      · rw [if_pos hx, hx, h]
      · rw [if_neg hx]
    · rw [if_neg (by simpa using hlt), raise, max_eq_right (not_lt.mp hlt)]
      change Function.update m.missing o (some v) x = _
      rw [update_apply]

theorem missing_rm (m : Missing) (o : ℕ) (v : EVersion) (x : ℕ) :
    (m.rm o v).missing x = if x = o ∧ (m.missing o).any (· < v) = true then none else m.missing x := by
  unfold Missing.rm
  by_cases hlt : (m.missing o).any (· < v) = true
  · rw [if_pos hlt]
    simp only [update_apply, hlt, and_true]
  · rw [if_neg hlt, if_neg fun h => hlt h.2]

theorem notePeer_missing (view : View) (sent : Log) (o : ℕ) : (notePeer view sent).missing o = recorded view sent o := by
  rw [notePeer, recorded]
  generalize view.missing = m
  induction sent.log generalizing m with
  | nil => rfl
  | cons e es ih =>
    rw [foldl_cons, ih, filter_cons]
    by_cases hv : view.lastUpdate < e.version
    · rw [if_pos hv, missing_add]
      by_cases ho : o = e.oid
      · rw [if_pos ho, if_pos (by simp [ho, hv]), foldl_cons, ho]
      · rw [if_neg ho, if_neg (by simpa [hv] using fun h => ho h.symm)]
    · rw [if_neg hv, if_neg (by simp [hv])]

variable {e : Entry} {es : List Entry} {u : Option EVersion}

/-- The highest of versions. -/
theorem foldl_raise_max (he : e ∈ es)
    (hmax : ∀ x ∈ es, x.version ≤ e.version) (hu : ∀ v ∈ u, v ≤ e.version) :
    es.foldl (fun u e => raise u e.version) u = some e.version := by
  -- once the highest version is there, or none higher has come, the fold ends with it
  suffices h : ∀ (es : List Entry) (u : Option EVersion), (∀ x ∈ es, x.version ≤ e.version) →
      (∀ v ∈ u, v ≤ e.version) → (e ∈ es ∨ u = some e.version) →
      es.foldl (fun u e => raise u e.version) u = some e.version from h es u hmax hu (.inl he)
  intro es
  induction es with
  | nil => exact fun u _ _ h => h.resolve_left not_mem_nil
  | cons x es ih =>
    intro u hall hu h
    obtain ⟨hx, hall⟩ := forall_mem_cons.mp hall
    rw [foldl_cons]
    refine ih _ hall ?_ ?_
    · cases u with
      | none => exact fun v hv => some.inj hv ▸ hx
      | some u => exact fun v hv => some.inj hv ▸ max_le (hu u rfl) hx
    · obtain h | rfl := h
      · obtain rfl | h := mem_cons.mp h
        · right
          cases u with
          | none => rfl
          | some u => rw [raise, max_eq_right (hu u rfl)]
        · exact .inl h
      · right
        rw [raise, max_eq_left hx]

/-! ### The peer's replay -/

/-- An entry replayed, with `up` for the updates. -/
def replay (up : Entry → Bool) (m : Missing) (e : Entry) : Missing :=
  if up e then m.add e.oid e.version else m.rm e.oid e.version

/-- The same of one object: an update enters it, a delete takes it off if it is older. -/
def enter (up : Entry → Bool) (u : Option EVersion) (e : Entry) : Option EVersion :=
  if up e then raise u e.version else if u.any (· < e.version) then none else u

theorem replay_missing (up : Entry → Bool) (m : Missing) (e : Entry) (o : ℕ) :
    (replay up m e).missing o = if e.oid = o then enter up (m.missing o) e else m.missing o := by
  unfold replay enter
  by_cases hup : up e = true
  · rw [if_pos hup, if_pos hup, missing_add]
    by_cases ho : e.oid = o
    · rw [if_pos ho.symm, if_pos ho, ho]
    · rw [if_neg (Ne.symm ho), if_neg ho]
  · rw [if_neg hup, if_neg hup, missing_rm]
    by_cases ho : e.oid = o
    · rw [if_pos ho, ho]
      simp only [true_and]
    · rw [if_neg fun h => ho h.1.symm, if_neg ho]

theorem foldl_replay (up : Entry → Bool) (o : ℕ) : ∀ (es : List Entry) (m : Missing),
    (es.foldl (replay up) m).missing o = (es.filter fun e => e.oid = o).foldl (enter up) (m.missing o)
  | [], _ => rfl
  | e :: es, m => by
    rw [foldl_cons, foldl_replay up o es, replay_missing, filter_cons]
    by_cases ho : e.oid = o
    · rw [if_pos ho, if_pos (by simpa using ho), foldl_cons]
    · rw [if_neg ho, if_neg (by simpa using ho)]

theorem foldl_add (o : ℕ) (es : List Entry) (m : Missing) :
    (es.foldl (fun m e => m.add e.oid e.version) m).missing o =
      (es.filter fun e => e.oid = o).foldl (fun u e => raise u e.version) (m.missing o) :=
  foldl_replay (fun _ => true) o es m

variable {up : Entry → Bool}

variable {v : EVersion}

theorem foldl_enter_some : ∀ {es : List Entry}, (∀ e ∈ es, e.version < v) →
    es.foldl (enter up) (some v) = some v
  | [], _ => rfl
  | e :: es, h => by
    obtain ⟨he, hes⟩ := forall_mem_cons.mp h
    have hkeep : enter up (some v) e = some v := by
      unfold enter
      have hold : ¬ (some v).any (· < e.version) = true := by simpa using he.le
      rw [raise, max_eq_left he.le, if_neg hold, ite_self]
    rw [foldl_cons, hkeep, foldl_enter_some hes]

/-- What entries older than `v` make of nothing is not `v`. -/
theorem foldl_enter_none : ∀ {es : List Entry}, (∀ e ∈ es, e.version < v) →
    (es.Pairwise fun a b => b.version < a.version) → es.foldl (enter up) none ≠ some v
  | [], _, _ => nofun
  | e :: es, h, hs => by
    obtain ⟨he, hes⟩ := forall_mem_cons.mp h
    obtain ⟨hlt, hs⟩ := pairwise_cons.mp hs
    rw [foldl_cons]
    by_cases hup : up e = true
    · have hadd : enter up none e = some e.version := by rw [enter, if_pos hup, raise]
      rw [hadd, foldl_enter_some hlt]
      exact fun heq => he.ne (some.inj heq)
    · have hrm : enter up none e = none := by
        rw [enter, if_neg hup]
        rfl
      rw [hrm]
      exact foldl_enter_none hes hs

/-- **The newest entry replayed** is what is missing in the end if it is an
update (or was missing already), and only then. -/
theorem foldl_enter_newest
    (hs : (e :: es).Pairwise fun a b => b.version < a.version) (hu : ∀ v ∈ u, v ≤ e.version) :
    (e :: es).foldl (enter up) u = some e.version ↔ up e = true ∨ u = some e.version := by
  obtain ⟨hlt, hs⟩ := pairwise_cons.mp hs
  rw [foldl_cons]
  by_cases hup : up e = true
  · have hadd : enter up u e = some e.version := by
      rw [enter, if_pos hup]
      cases u with
      | none => rfl
      | some u => rw [raise, max_eq_right (hu u rfl)]
    rw [hadd, foldl_enter_some hlt]
    exact ⟨fun _ => .inl hup, fun _ => rfl⟩
  · by_cases heq : u = some e.version
    · have hkeep : enter up u e = some e.version := by
        rw [enter, if_neg hup, heq, if_neg (by simp)]
      rw [hkeep, foldl_enter_some hlt]
      exact ⟨fun _ => .inr heq, fun _ => rfl⟩
    · have hrm : enter up u e = none := by
        rw [enter, if_neg hup]
        cases u with
        | none => rfl
        | some u =>
          have hlt : u < e.version := lt_of_le_of_ne (hu u rfl) fun h => heq (h ▸ rfl)
          rw [if_pos (by simpa using hlt)]
      rw [hrm]
      exact ⟨fun h => absurd h (foldl_enter_none hlt hs), fun h => absurd h (not_or.mpr ⟨hup, heq⟩)⟩

/-- **Newest first**, an object is missing after its entries if one of them is an update. -/
theorem foldl_enter_isSome : ∀ {es : List Entry} {u : Option EVersion},
    (es.Pairwise fun a b => b.version < a.version) → es ≠ [] → (∀ v ∈ u, ∀ e ∈ es.head?, v < e.version) →
    ((es.foldl (enter up) u).isSome = true ↔ ∃ e ∈ es, up e = true)
  | [], _, _, hne, _ => absurd rfl hne
  | x :: es, u, hs, _, hlow => by
    obtain ⟨hx, hs⟩ := pairwise_cons.mp hs
    have hlow : ∀ v ∈ u, v < x.version := fun v hv => hlow v hv x rfl
    rw [foldl_cons, exists_mem_cons_iff]
    by_cases hup : up x = true
    · have hadd : enter up u x = some x.version := by
        rw [enter, if_pos hup]
        cases u with
        | none => rfl
        | some u => rw [raise, max_eq_right (hlow u rfl).le]
      rw [hadd, foldl_enter_some hx]
      exact ⟨fun _ => .inl hup, fun _ => rfl⟩
    · have hrm : enter up u x = none := by
        rw [enter, if_neg hup]
        cases u with
        | none => rfl
        | some u => rw [if_pos (by simpa using hlow u rfl)]
      rw [hrm, or_iff_right hup]
      by_cases hnil : es = []
      · rw [hnil]
        exact ⟨nofun, fun ⟨_, hcon, _⟩ => nomatch hcon⟩
      · exact foldl_enter_isSome hs hnil nofun

theorem discardDivergent_eq (split : EVersion) (ix : Index) : ∀ (old : List Entry) (m : Missing),
    discardDivergent split ix old m = ((old.takeWhile fun e => split < e.version).filter fun e =>
        (ix.objects e.oid).all fun x => x.version < e.version).foldl (fun m e => m.add e.oid e.version) m
  | [], _ => rfl
  | oe :: old, m => by
    unfold discardDivergent
    by_cases hlt : split < oe.version
    · rw [if_pos hlt, takeWhile_cons_of_pos (by simpa using hlt), filter_cons, discardDivergent_eq]
      by_cases hnew : ((ix.objects oe.oid).all fun x => x.version < oe.version) = true
      · rw [if_pos hnew, if_pos hnew, foldl_cons]
      · rw [if_neg hnew, if_neg hnew]
    · rw [if_neg hlt, takeWhile_cons_of_neg (by simpa using hlt)]
      rfl

/-- The walk to the split point, and what is dropped there. -/
theorem findSplit_fst (top : EVersion) (ix : Index) (old : List Entry) : ∀ (es : List Entry) (m : Missing) (oldest : EVersion),
    (findSplit top ix old es m oldest).1 =
      (divergent top ix old es).foldl (fun m e => m.add e.oid e.version)
        ((es.takeWhile fun e => top < e.version).foldl (replay fun e => ! e.isDelete) m)
  | [], _, _ => rfl
  | p :: ps, m, oldest => by
    unfold findSplit divergent
    by_cases hle : p.version ≤ top
    · rw [if_pos hle, dropWhile_cons_of_neg (by simpa using hle), takeWhile_cons_of_neg (by simpa using hle)]
      by_cases hlt : p.version < top
      · rw [if_pos hlt]
        simp only [if_pos hlt]
        exact discardDivergent_eq p.version ix old m
      · rw [if_neg hlt]
        simp only [if_neg hlt]
        rfl
    · rw [if_neg hle, dropWhile_cons_of_pos (by simpa using hle), takeWhile_cons_of_pos (by simpa using hle),
        foldl_cons, findSplit_fst top ix old ps]
      have hp : (if p.isDelete = true then m.rm p.oid p.version else m.add p.oid p.version) =
          replay (fun e => ! e.isDelete) m p := by
        unfold replay
        by_cases hdel : p.isDelete = true
        · rw [if_pos hdel, if_neg (by simp [hdel])]
        · rw [if_neg hdel, if_pos (by simp [hdel])]
      rw [hp]
      rfl

section merge

variable {pg pg' : PG} {sent : Log}

/-- Extending on the bottom brings nothing new to what is complete down to there. -/
theorem extendBottom_missing {rest : List Entry} (hpeer : Settled pg) (hext : extendBottom pg sent = .ok (pg', rest)) :
    pg'.missing = pg.missing ∧ pg'.log.top = pg.log.top ∧ rest = upper pg sent := by
  unfold extendBottom at hext
  unfold upper
  by_cases hb : extendsBottom pg sent
  · rw [if_pos hb] at hext
    rw [if_pos hb]
    by_cases hrest : sent.log.dropWhile (fun e => e.version ≤ pg.log.bottom) = []
    · rw [if_pos hrest] at hext
      cases hext
    · rw [if_neg hrest] at hext
      cases hext
      refine ⟨?_, rfl, rfl⟩
      have hkeep : ∀ (es : List Entry), (∀ e ∈ es, e.version ≤ pg.log.bottom) →
          es.foldl (fun m e => if pg.lastComplete < e.version then mergeEntry m e else m) pg.missing = pg.missing := by
        intro es
        induction es with
        | nil => exact fun _ => rfl
        | cons e es ih =>
          intro hes
          obtain ⟨he, hes⟩ := forall_mem_cons.mp hes
          rw [foldl_cons, if_neg (not_lt.mpr (he.trans (hpeer.complete hb.2.2))), ih hes]
      exact hkeep _ fun e he => of_decide_eq_true (mem_takeWhile_imp he :)
  · rw [if_neg hb] at hext
    cases hext
    exact ⟨rfl, rfl, (if_neg hb).symm⟩

variable {es : List Entry} {e : Entry}

theorem extendTop_missing (hext : extendTop pg sent es = .ok pg') :
    pg'.missing = (if extendsTop pg sent then above pg.log.top es else []).foldl mergeEntry pg.missing := by
  obtain ⟨hx, rfl⟩ | ⟨hx, first, kept, -, -, rfl⟩ := extendTop_cases hext
  · rw [if_neg hx]
    rfl
  · rw [if_pos hx]

/-- **What swapping makes of an object**: the entries above its top are replayed newest
first, and then what is dropped is entered. -/
theorem swapLog_missing (pg : PG) (sent : Log) (o : ℕ) : (swapLog pg sent).missing.missing o =
      ((divergent pg.log.top (Index.all sent.log) pg.log.log.reverse sent.log.reverse).filter fun e => e.oid = o).foldl
        (fun u e => raise u e.version)
        (((sent.log.reverse.takeWhile fun e => pg.log.top < e.version).filter fun e => e.oid = o).foldl
          (enter fun e => ! e.isDelete) (pg.missing.missing o)) := by
  rw [← foldl_replay, ← foldl_add, ← findSplit_fst]
  rfl

/-- **What the peer makes of an object** in `merge_log`. -/
theorem mergeLog_missing (hpeer : Settled pg) (hm : mergeLog pg sent = .ok pg') (o : ℕ) :
    pg'.missing.missing o = ((dropped pg sent).filter fun e => e.oid = o).foldl (fun u e => raise u e.version)
      (((replayed pg sent).filter fun e => e.oid = o).foldl (enter (takesUpdate pg sent)) (pg.missing.missing o)) := by
  unfold mergeLog at hm
  by_cases hmerge : mergeable pg sent
  · have hup : takesUpdate pg sent = fun e => e.isUpdate := funext fun e => if_pos hmerge
    rw [if_pos hmerge] at hm
    cases hb : extendBottom pg sent with
    | error a =>
      rw [hb] at hm
      cases hm
    | ok p =>
      rw [hb] at hm
      obtain ⟨hmiss, htop, hrest⟩ := extendBottom_missing hpeer hb
      have hx : extendsTop p.1 sent ↔ extendsTop pg sent := by rw [extendsTop, extendsTop, htop]
      rw [extendTop_missing hm, hmiss, htop, hrest, dropped, if_pos hmerge, replayed, if_pos hmerge, hup]
      simp only [hx]
      exact foldl_replay (fun e => e.isUpdate) o _ _
  · have hup : takesUpdate pg sent = fun e => ! e.isDelete := funext fun e => if_neg hmerge
    rw [if_neg hmerge] at hm
    cases hm
    rw [dropped, if_neg hmerge, replayed, if_neg hmerge, hup]
    exact swapLog_missing pg sent o

theorem mem_takeWhile_newer {p : Entry → Bool} {e x : Entry}
    (hs : es.Pairwise fun a b => b.version < a.version) (he : e ∈ es.takeWhile p) (hx : x ∈ es)
    (hlt : e.version < x.version) : x ∈ es.takeWhile p := by
  rw [← @takeWhile_append_dropWhile _ p es] at hs hx
  obtain hx | hx := mem_append.mp hx
  · exact hx
  · exact absurd hlt ((pairwise_append.mp hs).2.2 e he x hx).not_gt

theorem upper_suffix (pg : PG) (sent : Log) : upper pg sent <:+ sent.log := by
  unfold upper
  split
  · exact dropWhile_suffix _
  · exact suffix_refl _

/-- The entries replayed: newest first, none older than the top of the peer's
log, and with an entry all newer ones that are sent. -/
theorem replayed_spec (pg : PG) (hs : Sorted sent.log) :
    (replayed pg sent).Pairwise (fun a b => b.version < a.version) ∧
      (∀ e ∈ replayed pg sent, pg.log.top ≤ e.version ∧ e ∈ sent.log) ∧
      ∀ e ∈ replayed pg sent, ∀ x ∈ sent.log, e.version < x.version → x ∈ replayed pg sent := by
  have hrev : ∀ {es : List Entry}, Sorted es → es.reverse.Pairwise fun a b => b.version < a.version :=
    fun h => pairwise_reverse.mpr h
  unfold replayed
  by_cases hmerge : mergeable pg sent
  · rw [if_pos hmerge]
    by_cases hx : extendsTop pg sent
    · rw [if_pos hx]
      have hsuf := upper_suffix pg sent
      have hup := hrev (hs.sublist hsuf.sublist)
      obtain ⟨habove, hlow⟩ := above_spec pg.log.top (upper pg sent)
      have hmem : ∀ e ∈ above pg.log.top (upper pg sent), e ∈ upper pg sent := fun e he =>
        habove.subset (mem_reverse.mpr he)
      refine ⟨hup.sublist (takeWhile_sublist _), fun e he => ⟨hlow e he, hsuf.subset (hmem e he)⟩,
        fun e he x hxs hlt => mem_takeWhile_newer hup he (mem_reverse.mpr ?_) hlt⟩
      -- `x` is newer than an entry that extending on the bottom has left
      obtain ⟨low, hlow⟩ := hsuf
      rw [← hlow] at hs hxs
      obtain hxl | hxu := mem_append.mp hxs
      · exact absurd hlt ((pairwise_append.mp hs).2.2 x hxl e (hmem e he)).not_gt
      · exact hxu
    · rw [if_neg hx]
      exact ⟨.nil, nofun, nofun⟩
  · rw [if_neg hmerge]
    refine ⟨(hrev hs).sublist (takeWhile_sublist _), fun e he => ⟨?_, ?_⟩, fun e he x hx hlt =>
      mem_takeWhile_newer (hrev hs) he (mem_reverse.mpr hx) hlt⟩
    · exact (of_decide_eq_true (mem_takeWhile_imp he :)).le
    · exact mem_reverse.mp ((takeWhile_sublist _).subset he)

/-- `copy_after` takes the end of the log that is newer than `v`. -/
theorem copyLoop_spec {v : EVersion} : ∀ {es out : List Entry}, copyLoop v es = some out →
    out.Sublist es ∧ ∀ e ∈ out, v < e.version
  | [], out, h => by
    cases h
    exact ⟨.slnil, nofun⟩
  | e :: es, out, h => by
    unfold copyLoop at h
    by_cases heq : e.version = v
    · rw [if_pos heq] at h
      cases h
      exact ⟨nil_sublist _, nofun⟩
    · rw [if_neg heq] at h
      obtain ⟨hlt, h⟩ := ite_none_right_eq_some.mp h
      obtain ⟨out, hout, rfl⟩ := map_eq_some_iff.mp h
      obtain ⟨hsub, hnew⟩ := copyLoop_spec hout
      exact ⟨hsub.cons_cons e, forall_mem_cons.mpr ⟨hlt, hnew⟩⟩

variable {log : Log}

theorem copyAfter_spec {v : EVersion} (h : copyAfter log v = some sent) :
    sent.log.Sublist log.log ∧ ∀ e ∈ sent.log, v < e.version := by
  obtain ⟨-, h⟩ := ite_none_right_eq_some.mp h
  obtain ⟨out, hout, rfl⟩ := map_eq_some_iff.mp h
  obtain ⟨hsub, hnew⟩ := copyLoop_spec hout
  refine ⟨?_, fun e he => hnew e (mem_reverse.mp he)⟩
  simpa using hsub.reverse

variable {view : View} {lastUpdate : EVersion}

/-- The entries sent: in order, and those replayed are newer than the peer's last update. -/
theorem sentLog_spec (hlog : Valid log) (hview : Gathered view pg)
    (hsent : sentLog lastUpdate log view = some sent) :
    Sorted sent.log ∧ ∀ e ∈ replayed pg sent, view.lastUpdate < e.version := by
  unfold sentLog at hsent
  by_cases heq : view.lastUpdate = lastUpdate
  · rw [if_pos heq] at hsent
    cases hsent
    exact ⟨.nil, fun e he => nomatch ((replayed_spec pg .nil).2.1 e he).2⟩
  rw [if_neg heq] at hsent
  by_cases hlow : view.lastUpdate < log.bottom
  · rw [if_pos hlow] at hsent
    obtain ⟨hback, ⟨⟩⟩ := ite_none_right_eq_some.mp hsent
    refine ⟨hlog.sorted, fun e he => ?_⟩
    by_cases hmerge : mergeable pg sent
    · -- the peer's log reaches the bottom of the log sent
      have hreach : sent.bottom ≤ pg.log.top := not_lt.mp fun h => (not_or.mp hmerge).2 ⟨h, hback⟩
      exact lt_of_lt_of_le hlow (hreach.trans ((replayed_spec pg hlog.sorted).2.1 e he).1)
    · unfold replayed at he
      rw [if_neg hmerge] at he
      exact lt_of_le_of_lt hview.lastUpdate (of_decide_eq_true (mem_takeWhile_imp he :))
  · rw [if_neg hlow] at hsent
    obtain ⟨-, hsent⟩ := ite_none_right_eq_some.mp hsent
    obtain ⟨hsub, hnew⟩ := copyAfter_spec hsent
    have hs := hlog.sorted.sublist hsub
    exact ⟨hs, fun e he => hnew e ((replayed_spec pg hs).2.1 e he).2⟩

/-- The entries dropped as divergent are of objects that none is replayed of. -/
theorem dropped_spec (hpeer : Settled pg) (hs : Sorted sent.log) (he : e ∈ dropped pg sent) :
    ∀ x ∈ replayed pg sent, x.oid ≠ e.oid := by
  unfold dropped at he
  by_cases hmerge : mergeable pg sent
  · rw [if_pos hmerge] at he
    cases he
  rw [if_neg hmerge] at he
  unfold divergent at he
  cases hdrop : sent.log.reverse.dropWhile fun e => pg.log.top < e.version with
  | nil =>
    simp only [hdrop] at he
    cases he
  | cons p ps =>
    simp only [hdrop] at he
    by_cases hlt : p.version < pg.log.top
    · rw [if_pos hlt] at he
      obtain ⟨hmem, hnew⟩ := mem_filter.mp he
      have hin : e ∈ pg.log.log := mem_reverse.mp ((takeWhile_sublist _).subset hmem)
      intro x hx hoid
      obtain ⟨hxt, hxs⟩ := (replayed_spec pg hs).2.1 x hx
      obtain ⟨y, hy⟩ := isSome_iff_exists.mp ((indexed_all hs).every x hxs)
      have hmax := ((indexed_all hs).newest _ y hy).2.2 x hxs rfl
      rw [hoid] at hy
      rw [hy, all_some, decide_eq_true_iff] at hnew
      exact absurd (lt_of_le_of_lt (hxt.trans hmax) hnew) (hpeer.valid.top e hin).not_gt
    · rw [if_neg hlt] at he
      cases he

/-! ### Both sides -/

/-- The newest entry of an object among those replayed. -/
def Newest (es : List Entry) (e : Entry) : Prop := e ∈ es ∧ ∀ x ∈ es, x.oid = e.oid → x.version ≤ e.version

theorem recorded_newest (hlog : Valid log) (hview : Gathered view pg)
    (hsent : sentLog lastUpdate log view = some sent) (he : Newest (replayed pg sent) e) :
    recorded view sent e.oid = some e.version := by
  obtain ⟨hs, hnew⟩ := sentLog_spec hlog hview hsent
  obtain ⟨-, htop, hup⟩ := replayed_spec pg hs
  refine foldl_raise_max (mem_filter.mpr ⟨(htop e he.1).2, ?_⟩) (fun x hx => ?_) fun v hv =>
    (hview.missing _ v hv).trans (htop e he.1).1
  · exact decide_eq_true ⟨rfl, hnew e he.1⟩
  · obtain ⟨hxs, hx⟩ := mem_filter.mp hx
    by_contra hlt
    exact hlt (he.2 x (hup e he.1 x hxs (not_le.mp hlt)) (of_decide_eq_true hx).1)

/-- What the peer makes of it. -/
theorem merged_newest (hpeer : Settled pg) (hs : Sorted sent.log) (hm : mergeLog pg sent = .ok pg')
    (he : Newest (replayed pg sent) e) :
    pg'.missing.missing e.oid = some e.version ↔
      takesUpdate pg sent e = true ∨ pg.missing.missing e.oid = some e.version := by
  obtain ⟨hdesc, htop, -⟩ := replayed_spec pg hs
  have hdrop : ((dropped pg sent).filter fun x => x.oid = e.oid) = [] := by
    refine filter_eq_nil_iff.mpr fun x hx => ?_
    simpa using fun h => dropped_spec hpeer hs hx e he.1 h.symm
  have hin : e ∈ (replayed pg sent).filter fun x => x.oid = e.oid := mem_filter.mpr ⟨he.1, decide_eq_true rfl⟩
  have hdesc := hdesc.sublist (filter_sublist (p := fun x => decide (x.oid = e.oid)))
  rw [mergeLog_missing hpeer hm, hdrop, foldl_nil]
  -- the newest of the object's entries is the first
  cases hes : (replayed pg sent).filter fun x => x.oid = e.oid with
  | nil =>
    rw [hes] at hin
    cases hin
  | cons x rest =>
    rw [hes] at hin hdesc
    obtain ⟨hx, hoid⟩ := mem_filter.mp (hes ▸ mem_cons_self : x ∈ _)
    have hxe : x = e := by
      obtain rfl | hrest := mem_cons.mp hin
      · rfl
      · exact absurd (he.2 x hx (of_decide_eq_true hoid)) (rel_of_pairwise_cons hdesc hrest).not_ge
    subst hxe
    exact foldl_enter_newest hdesc fun v hv => (hpeer.missing _ v hv).trans (htop x hx).1

theorem merged_held (hpeer : Settled pg) (hm : mergeLog pg sent = .ok pg') {o : ℕ}
    (ho : ∀ e ∈ replayed pg sent, e.oid ≠ o) : pg'.missing.missing o = held pg sent o := by
  have hnone : ((replayed pg sent).filter fun e => e.oid = o) = [] :=
    filter_eq_nil_iff.mpr fun e he => by simpa using ho e he
  rw [mergeLog_missing hpeer hm, hnone]
  rfl

theorem exists_newest (he : e ∈ es) : ∃ x, Newest es x ∧ x.oid = e.oid := by
  have hin : ∀ x, x ∈ (es.filter fun x => x.oid = e.oid).toFinset ↔ x ∈ es ∧ x.oid = e.oid := fun x => by
    rw [List.mem_toFinset, mem_filter, decide_eq_true_iff]
  obtain ⟨x, hx, hmax⟩ := Finset.exists_max_image _ (fun x : Entry => x.version) ⟨e, (hin e).mpr ⟨he, rfl⟩⟩
  obtain ⟨hx, hoid⟩ := (hin x).mp hx
  exact ⟨x, ⟨hx, fun y hy hyo => hmax y ((hin y).mpr ⟨hy, hyo.trans hoid⟩)⟩, hoid⟩

end merge

/-! ### Peers -/

theorem mem_takeWhile_of_forall {p : Entry → Bool} : ∀ {es : List Entry},
    es.Pairwise (fun a b => b.version < a.version) → e ∈ es → (∀ x ∈ es, e.version ≤ x.version → p x = true) →
    e ∈ es.takeWhile p
  | x :: es, hs, he, hp => by
    obtain ⟨hx, hs⟩ := pairwise_cons.mp hs
    obtain ⟨hpx, hp⟩ := forall_mem_cons.mp hp
    obtain rfl | he := mem_cons.mp he
    · rw [takeWhile_cons_of_pos (hpx le_rfl)]
      exact mem_cons_self
    · rw [takeWhile_cons_of_pos (hpx (hx e he).le)]
      exact mem_cons_of_mem _ (mem_takeWhile_of_forall hs he hp)

section follows

variable {log sent : Log} {lastUpdate : EVersion} {pg : PG} {missing : Missing}

theorem sentLog_cases (htop : log.top = lastUpdate) (hpeer : Settled pg)
    (hsent : sentLog lastUpdate log ⟨pg.log.top, missing⟩ = some sent) :
    sent.log = [] ∧ sent.backlog = false ∨ sent = log ∧ ¬ mergeable pg sent ∨
      sent.backlog = false ∧ extendsTop pg sent ∧ ¬ extendsBottom pg sent := by
  unfold sentLog at hsent
  by_cases heq : pg.log.top = lastUpdate
  · rw [if_pos heq] at hsent
    cases hsent
    exact .inl ⟨rfl, rfl⟩
  rw [if_neg heq] at hsent
  by_cases hlow : pg.log.top < log.bottom
  · rw [if_pos hlow] at hsent
    obtain ⟨hback, ⟨⟩⟩ := ite_none_right_eq_some.mp hsent
    exact .inr (.inl ⟨rfl, fun h => (not_or.mp h).2 ⟨hlow, hback⟩⟩)
  · rw [if_neg hlow] at hsent
    obtain ⟨hlt, hsent⟩ := ite_none_right_eq_some.mp hsent
    obtain ⟨-, hsent⟩ := ite_none_right_eq_some.mp hsent
    obtain ⟨out, -, rfl⟩ := map_eq_some_iff.mp hsent
    exact .inr (.inr ⟨rfl, ⟨lt_of_lt_of_eq hlt htop.symm, le_rfl⟩, fun h => hpeer.valid.le.not_gt h.1⟩)

theorem replayed_of_above (hs : Sorted sent.log) (htop : log.top = lastUpdate) (hpeer : Settled pg)
    (hsent : sentLog lastUpdate log ⟨pg.log.top, missing⟩ = some sent) {e : Entry} (he : e ∈ sent.log)
    (hlt : pg.log.top < e.version) : e ∈ replayed pg sent := by
  have hrev : sent.log.reverse.Pairwise fun a b => b.version < a.version := pairwise_reverse.mpr hs
  unfold replayed
  by_cases hmerge : mergeable pg sent
  · obtain ⟨hnil, -⟩ | ⟨-, hno⟩ | ⟨-, hx, hb⟩ := sentLog_cases htop hpeer hsent
    · rw [hnil] at he
      cases he
    · exact absurd hmerge hno
    · rw [if_pos hmerge, if_pos hx, upper, if_neg hb]
      apply mem_takeWhile_of_forall hrev (mem_reverse.mpr he)
      intro x _ hle
      simpa using (hlt.trans_le hle).le
  · rw [if_neg hmerge]
    apply mem_takeWhile_of_forall hrev (mem_reverse.mpr he)
    intro x _ hle
    simpa using hlt.trans_le hle

theorem not_lt_zero (v : EVersion) : ¬ v < .zero := by
  rw [EVersion.zero, Prod.Lex.lt_iff]
  simp

/-- It drops nothing for which the log sent has nothing newer. -/
theorem dropped_of_follows (hs : Sorted sent.log) (htop : log.top = lastUpdate) (hpeer : Settled pg)
    (hfollows : ∀ e ∈ pg.log.log, ∃ x ∈ log.log, x.oid = e.oid ∧ e.version ≤ x.version)
    (hsent : sentLog lastUpdate log ⟨pg.log.top, missing⟩ = some sent) : dropped pg sent = [] := by
  unfold dropped
  by_cases hmerge : mergeable pg sent
  · rw [if_pos hmerge]
  rw [if_neg hmerge, divergent]
  cases hdrop : sent.log.reverse.dropWhile fun e => pg.log.top < e.version with
  | nil => rfl
  | cons p ps =>
    by_cases hlt : p.version < pg.log.top
    swap
    · exact if_neg hlt
    refine (if_pos hlt).trans (filter_eq_nil_iff.mpr fun e he => ?_)
    have hpeerlog : e ∈ pg.log.log := mem_reverse.mp ((takeWhile_sublist _).subset he)
    have hlog : sent = log := by
      have hnonzero : pg.log.top ≠ .zero := fun h => not_lt_zero _ (h ▸ hlt)
      have hback : sent.backlog = true := ((not_not.mp hmerge).resolve_left hnonzero).2
      obtain ⟨-, hno⟩ | ⟨heq, -⟩ | ⟨hno, -⟩ := sentLog_cases htop hpeer hsent
      · rw [hno] at hback
        cases hback
      · exact heq
      · rw [hno] at hback
        cases hback
    -- the log sent has an entry of the object at least as new
    obtain ⟨x, hx, hoid, hle⟩ := hfollows e hpeerlog
    rw [← hlog] at hx
    obtain ⟨y, hy⟩ := isSome_iff_exists.mp ((indexed_all hs).every x hx)
    have hmax := ((indexed_all hs).newest _ y hy).2.2 x hx rfl
    rw [← hoid, hy, all_some, decide_eq_true_iff]
    exact (hle.trans hmax).not_gt

end follows

/-- A peer is right about what it replays nothing of where the primary's log
goes on from its own: each of its entries is in that log, or has a newer one
of its object there. -/
theorem recorded_eq_held {log sent : Log} {lastUpdate : EVersion} {view : View} {pg : PG} (hlog : Valid log)
    (htop : log.top = lastUpdate) (hpeer : Settled pg) (hview : view = ⟨pg.log.top, pg.missing⟩)
    (hfollows : ∀ e ∈ pg.log.log, ∃ x ∈ log.log, x.oid = e.oid ∧ e.version ≤ x.version)
    (hsent : sentLog lastUpdate log view = some sent) {o : ℕ} (ho : ∀ e ∈ replayed pg sent, e.oid ≠ o) :
    recorded view sent o = held pg sent o := by
  subst hview
  have hview : Gathered ⟨pg.log.top, pg.missing⟩ pg := ⟨le_rfl, hpeer.missing⟩
  have hs := (sentLog_spec hlog hview hsent).1
  have hnone : (sent.log.filter fun e => e.oid = o ∧ pg.log.top < e.version) = [] := by
    refine filter_eq_nil_iff.mpr fun e he => ?_
    rw [decide_eq_true_iff]
    exact fun h => ho e (replayed_of_above hs htop hpeer hsent he h.2) h.1
  rw [recorded, hnone, held, dropped_of_follows hs htop hpeer hfollows hsent]
  rfl

end PGLog
end Osd
end Ceph
