/-
# `last_complete` tells the truth

In an active PG every object that is missing is missing in a version above
`info.last_complete`, over any order of writes, pushes and recovery. If
`activate` has set `log.complete_to`, the entries before it are not above
`last_complete` and those behind it are; the entry that it points at may be
the one of `last_complete`. When recovery has finished nothing is missing and
`last_complete` is `last_update`.

An entry up to `last_complete` can be about a missing object, if it was
modified again above `last_complete`.
-/
import Ceph.Osd.Recovery
import Mathlib.Data.List.Pairwise

namespace Ceph
namespace Osd
namespace Recovery

open List Option

variable {pg pg' : PG}

/-! ### The invariant -/

/-- The position `i` splits the log at `lc`; the entry there may be the one of `lc`. -/
structure Pointed (log : List Entry) (lc : EVersion) (i : ℕ) : Prop where
  le : i ≤ log.length
  before : ∀ e ∈ log.take i, e.version ≤ lc
  there : ∀ e ∈ log[i]?, lc ≤ e.version
  behind : ∀ e ∈ log.drop (i + 1), lc < e.version

/-- The object is missing in the version of an entry above `lc`. -/
def Logged (log : List Entry) (lc : EVersion) (p : ℕ × EVersion) : Prop :=
  lc < p.2 ∧ ∃ e ∈ log, e.oid = p.1 ∧ e.version = p.2

/-- The log, the versions and the missing objects. -/
structure Inv (pg : PG) : Prop where
  sorted : pg.log.Pairwise (·.version < ·.version)
  last : ∀ e ∈ pg.log.getLast?, e.version = pg.lastUpdate
  top : pg.top = pg.lastUpdate
  le : pg.lastComplete ≤ pg.lastUpdate
  missing : ∀ p ∈ pg.missing, Logged pg.log pg.lastComplete p
  pointed : pg.active = true → pg.pointed = true → ∃ i, pg.completeTo = some i ∧
    Pointed pg.log pg.lastComplete i ∧ (i < pg.log.length ↔ pg.lastComplete < pg.lastUpdate)
  whole : pg.active = true → pg.pointed = false → pg.lastComplete = pg.lastUpdate
  idle : pg.active = false → pg.pointed = false

/-- What the primary knows of the others. -/
structure Peers (pg : PG) : Prop where
  nodup : (pg.whoami :: pg.peers).Nodup
  own : pg.peerMissing pg.whoami = []
  pushing : ∀ p ∈ pg.pushing, p.2 ∈ pg.peers
  uptodate : ∀ p ∈ pg.uptodate, p ∈ pg.whoami :: pg.peers
  me : pg.whoami ∈ pg.uptodate → pg.lastComplete = pg.lastUpdate
  clean : pg.clean = true → pg.lastComplete = pg.lastUpdate

/-- What recovery does not change. -/
structure Kept (pg pg' : PG) : Prop where
  active : pg'.active = pg.active
  primary : pg'.primary = pg.primary
  lastUpdate : pg'.lastUpdate = pg.lastUpdate
  lastComplete : pg'.lastComplete = pg.lastComplete
  log : pg'.log = pg.log
  top : pg'.top = pg.top
  completeTo : pg'.completeTo = pg.completeTo
  missing : pg'.missing = pg.missing
  pointed : pg'.pointed = pg.pointed
  whoami : pg'.whoami = pg.whoami
  peers : pg'.peers = pg.peers

theorem Kept.refl (pg : PG) : Kept pg pg := ⟨rfl, rfl, rfl, rfl, rfl, rfl, rfl, rfl, rfl, rfl, rfl⟩

theorem Kept.trans {q : PG} (h : Kept pg pg') (h' : Kept pg' q) : Kept pg q where
  active := h'.active.trans h.active
  primary := h'.primary.trans h.primary
  lastUpdate := h'.lastUpdate.trans h.lastUpdate
  lastComplete := h'.lastComplete.trans h.lastComplete
  log := h'.log.trans h.log
  top := h'.top.trans h.top
  completeTo := h'.completeTo.trans h.completeTo
  missing := h'.missing.trans h.missing
  pointed := h'.pointed.trans h.pointed
  whoami := h'.whoami.trans h.whoami
  peers := h'.peers.trans h.peers

theorem Inv.kept (h : Inv pg) (hk : Kept pg pg') : Inv pg' := by
  obtain ⟨ha, -, hu, hc, hl, ht, hct, hm, hp, -, -⟩ := hk
  constructor
  · rw [hl]; exact h.sorted
  · rw [hl, hu]; exact h.last
  · rw [ht, hu]; exact h.top
  · rw [hc, hu]; exact h.le
  · rw [hm, hl, hc]; exact h.missing
  · rw [ha, hp, hct, hl, hc, hu]; exact h.pointed
  · rw [ha, hp, hc, hu]; exact h.whole
  · rw [ha, hp]; exact h.idle

variable {e : Entry} {o : ℕ} {busy : Bool}

/-- No entry is above `last_update`. -/
theorem Inv.version_le (h : Inv pg) (he : e ∈ pg.log) : e.version ≤ pg.lastUpdate := by
  rcases eq_nil_or_concat' pg.log with hn | ⟨es, l, hl⟩
  · simp [hn] at he
  · have hlast := h.last l (by simp [hl])
    have hsort := h.sorted
    rw [hl] at he hsort
    rcases mem_append.mp he with he | he
    · exact hlast ▸ ((pairwise_append.mp hsort).2.2 e he l (by simp)).le
    · rw [mem_singleton.mp he, hlast]

theorem Inv.missing_nil (h : Inv pg) (heq : pg.lastComplete = pg.lastUpdate) : pg.missing = [] := by
  refine eq_nil_iff_forall_not_mem.mpr fun p hp => ?_
  obtain ⟨hlt, e, he, -, hv⟩ := h.missing p hp
  have hle := h.version_le he
  rw [hv, ← heq] at hle
  exact absurd hlt (not_lt.mpr hle)

/-! ### Recovery -/

theorem Peers.all_uptodate (h : Peers pg) (hall : pg.isAllUptodate = true) : ∀ p ∈ pg.whoami :: pg.peers, p ∈ pg.uptodate := by
  have hcard : pg.uptodate.card = (pg.whoami :: pg.peers).length := of_decide_eq_true hall
  have hsub : pg.uptodate ⊆ (pg.whoami :: pg.peers).toFinset := fun p hp =>
    List.mem_toFinset.mpr (h.uptodate p hp)
  have heq : pg.uptodate = (pg.whoami :: pg.peers).toFinset := by
    refine Finset.eq_of_subset_of_card_le hsub ?_
    rw [hcard]
    exact toFinset_card_le _
  intro p hp
  rw [heq, List.mem_toFinset]
  exact hp

theorem Peers.finish (h : Peers pg) (hall : pg.isAllUptodate = true) : Peers (finishRecovery pg) :=
  { h with clean := fun _ => h.me (h.all_uptodate hall _ mem_cons_self) }

theorem push_inv {o p : ℕ} (h : Peers pg) (hp : p ∈ pg.peers) (hs : push o p pg = some pg') :
    Peers pg' ∧ Kept pg pg' := by
  unfold push at hs
  split_ifs at hs
  · cases hs
    refine ⟨{ h with own := ?_, pushing := fun q hq => ?_ }, { Kept.refl pg with }⟩
    · have hne : pg.whoami ≠ p := fun heq => (nodup_cons.mp h.nodup).1 (heq ▸ hp)
      show Function.update pg.peerMissing p _ pg.whoami = []
      rw [Function.update_of_ne hne]
      exact h.own
    · rcases mem_cons.mp hq with rfl | hq
      · exact hp
      · exact h.pushing q hq
  · cases hs
    exact ⟨h, .refl pg⟩

theorem pushMissing_inv : ∀ (ps : List ℕ) {pg pg' : PG}, Peers pg → (∀ p ∈ ps, p ∈ pg.peers) →
    pushMissing o ps pg = some pg' → Peers pg' ∧ Kept pg pg'
  | [], pg, pg', h, _, hs => by cases hs; exact ⟨h, .refl pg⟩
  | p :: ps, pg, pg', h, hps, hs => by
    rw [pushMissing] at hs
    split_ifs at hs
    · obtain ⟨q, hq, hs⟩ := bind_eq_some_iff.mp hs
      obtain ⟨hqp, hqk⟩ := push_inv h (hps p mem_cons_self) hq
      have hsub : ∀ x ∈ ps, x ∈ q.peers := fun x hx => hqk.peers ▸ hps x (mem_cons_of_mem _ hx)
      obtain ⟨hi, hk⟩ := pushMissing_inv ps hqp hsub hs
      exact ⟨hi, hqk.trans hk⟩
    · exact pushMissing_inv ps h (fun x hx => hps x (mem_cons_of_mem _ hx)) hs

theorem doPeerRecovery_inv (h : Peers pg) (hs : doPeerRecovery pg = some pg') : Peers pg' ∧ Kept pg pg' := by
  unfold doPeerRecovery at hs
  rw [dropWhile_cons_of_pos (by simp [h.own])] at hs
  split at hs
  · cases hs
    split_ifs with hall
    · exact ⟨h.finish hall, { Kept.refl pg with }⟩
    · exact ⟨h, .refl pg⟩
  · next p ps hps =>
    have hsub : ∀ x ∈ p :: ps, x ∈ pg.peers := fun x hx =>
      (dropWhile_sublist _).subset (hps ▸ hx)
    obtain ⟨q, hq, hs⟩ := bind_eq_some_iff.mp hs
    obtain ⟨hqp, hqk⟩ := push_inv h (hsub p mem_cons_self) hq
    obtain ⟨hi, hk⟩ := pushMissing_inv ps hqp
      (fun x hx => hqk.peers ▸ hsub x (mem_cons_of_mem _ hx)) hs
    exact ⟨hi, hqk.trans hk⟩

/-- **`do_recovery`** changes neither the log nor the versions, and finishes only when the
PG is complete. -/
theorem doRecovery_inv (h : Peers pg) (hs : doRecovery busy pg = some pg') :
    Peers pg' ∧ Kept pg pg' := by
  unfold doRecovery at hs
  split_ifs at hs with hprim hup hall hbusy
  · cases hs
    exact ⟨h, .refl pg⟩
  · exact doPeerRecovery_inv h hs
  · cases hs
    exact ⟨h, .refl pg⟩
  · obtain ⟨r, -, hs⟩ := bind_eq_some_iff.mp hs
    dsimp only at hs
    have hr : Peers { pg with requestedTo := some (r + (pg.log.drop r).findIdx (wants pg)) } := { h with }
    split at hs
    · unfold pull at hs
      split_ifs at hs
      cases hs
      exact ⟨{ hr with }, { Kept.refl pg with }⟩
    · have hin (hdone : pg.lastComplete = pg.lastUpdate) : Peers { pg with
          requestedTo := some (r + (pg.log.drop r).findIdx (wants pg))
          uptodate := insert pg.whoami pg.uptodate } := by
        refine { h with uptodate := fun p hp => ?_, me := fun _ => hdone }
        rcases Finset.mem_insert.mp hp with rfl | hp
        · exact mem_cons_self
        · exact h.uptodate p hp
      split_ifs at hs with hpull hdone hall
      · cases hs
        exact ⟨hr, { Kept.refl pg with }⟩
      · cases hs
        exact ⟨(hin hdone.2).finish hall, { Kept.refl pg with }⟩
      · cases hs
        exact ⟨hin hdone.2, { Kept.refl pg with }⟩

/-! ### Activation -/

theorem pointed_of_first {log : List Entry} {lc : EVersion} {i : ℕ}
    (hsort : log.Pairwise (·.version < ·.version)) (hlt : i < log.length) (hat : ¬ log[i].version < lc)
    (hbelow : ∀ k (hk : k < i), log[k].version < lc) : Pointed log lc i := by
  refine ⟨hlt.le, fun e he => ?_, fun e he => ?_, fun e he => ?_⟩
  · obtain ⟨k, hk, rfl⟩ := mem_iff_getElem.mp he
    rw [length_take] at hk
    rw [getElem_take]
    exact (hbelow k (by omega)).le
  · rw [getElem?_eq_getElem hlt, mem_some_iff] at he
    rw [← he]
    exact not_lt.mp hat
  · obtain ⟨k, hk, rfl⟩ := mem_iff_getElem.mp he
    rw [length_drop] at hk
    rw [getElem_drop]
    have hlt' := pairwise_iff_getElem.mp hsort i (i + 1 + k) hlt (by omega) (by omega)
    exact lt_of_le_of_lt (not_lt.mp hat) hlt'

/-- Where the first entry that is not below `last_complete` is. -/
theorem firstNotBelow_spec (h : Inv pg) {i : ℕ} (hi : firstNotBelow pg = some i) :
    i < pg.log.length ∧ Pointed pg.log pg.lastComplete i := by
  obtain ⟨hlt, ⟨⟩⟩ := ite_none_right_eq_some.mp hi
  have hat := findIdx_getElem (w := hlt)
  refine ⟨hlt, pointed_of_first h.sorted hlt (of_decide_eq_true hat) fun k hk => ?_⟩
  have hnot := not_of_lt_findIdx hk
  simpa using hnot

theorem initPointers_inv (h : Inv pg) (hp : Peers pg) (ha : pg.active = false)
    (hs : initPointers busy { pg with active := true } = some pg') : Inv pg' ∧ Peers pg' := by
  have hidle := h.idle ha
  unfold initPointers at hs
  split_ifs at hs with heq
  · cases hs
    refine ⟨{ h with pointed := fun _ hpt => ?_, whole := fun _ _ => heq, idle := fun hf => by cases hf }, { hp with }⟩
    cases hidle.symm.trans hpt
  · obtain ⟨i, hi, hs⟩ := bind_eq_some_iff.mp hs
    obtain ⟨hlt, hpt⟩ := firstNotBelow_spec h (show firstNotBelow pg = some i from hi)
    have hlc : pg.lastComplete < pg.lastUpdate := lt_of_le_of_ne h.le heq
    have hset (r : Option ℕ) : Inv { pg with
        active := true, completeTo := some i, pointed := true, requestedTo := r } :=
      { h with
        pointed := fun _ _ => ⟨i, rfl, hpt, fun _ => hlc, fun _ => hlt⟩
        whole := fun _ hf => Bool.noConfusion hf, idle := fun hf => Bool.noConfusion hf }
    dsimp only at hs
    split_ifs at hs
    · have hstart : Peers { pg with
          active := true, completeTo := some i, pointed := true, requestedTo := some i } := { hp with }
      obtain ⟨hp', hk⟩ := doRecovery_inv hstart hs
      exact ⟨(hset _).kept hk, hp'⟩
    · cases hs
      exact ⟨hset _, { hp with }⟩

theorem startUp_inv (h : Inv pg) (hp : Peers pg) (hs : startUp busy pg = some pg') :
    Inv pg' ∧ Peers pg' := by
  unfold startUp at hs
  dsimp only at hs
  generalize hu : ((if pg.isUptodate = true then {pg.whoami} else ∅) ∪
    (pg.peers.filter fun p => pg.peerMissing p = []).toFinset : Finset ℕ) = u at hs
  have hme : pg.whoami ∈ u → pg.lastComplete = pg.lastUpdate := by
    rw [← hu]
    intro hin
    rcases Finset.mem_union.mp hin with hin | hin
    · split_ifs at hin with hup
      · exact (of_decide_eq_true hup).symm
      · simp at hin
    · have hmem := mem_of_mem_filter (List.mem_toFinset.mp hin)
      exact absurd hmem (nodup_cons.mp hp.nodup).1
  have hin : Peers { pg with uptodate := u } := by
    refine { hp with uptodate := fun p hp' => ?_, me := hme }
    rw [← hu] at hp'
    rcases Finset.mem_union.mp hp' with hp' | hp'
    · split_ifs at hp' with hup
      · rw [Finset.mem_singleton.mp hp']
        exact mem_cons_self
      · simp at hp'
    · exact mem_cons_of_mem _ (mem_of_mem_filter (List.mem_toFinset.mp hp'))
  have hi : Inv { pg with uptodate := u } := { h with }
  split_ifs at hs with hall
  · cases hs
    exact ⟨{ hi with }, hin.finish hall⟩
  · obtain ⟨hp', hk⟩ := doRecovery_inv hin hs
    exact ⟨hi.kept hk, hp'⟩

/-- **`activate`** starts with what peering left. -/
theorem activate_inv {hack busy : Bool} (h : Inv pg) (hp : Peers pg)
    (hs : activate hack busy pg = some pg') : Inv pg' ∧ Peers pg' := by
  obtain ⟨⟨ha, -⟩, hs⟩ := ite_none_right_eq_some.mp hs
  obtain ⟨q, hq, hs⟩ := bind_eq_some_iff.mp hs
  obtain ⟨hqi, hqp⟩ := initPointers_inv h hp ha hq
  split_ifs at hs
  · exact startUp_inv hqi hqp hs
  · cases hs
    exact ⟨hqi, hqp⟩

/-! ### Writes -/

/-- Trimming drops entries before `complete_to` only. -/
theorem pop_spec {s : EVersion} : ∀ {log log' : List Entry} {c c' r r' : Option ℕ},
    pop s log c r = some (log', c', r') → ∃ k ≤ log.length, log' = log.drop k ∧
      ∀ i, c = some i → k ≤ i ∧ c' = some (i - k)
  | [], _, c, _, r, _, h => by
    cases h
    exact ⟨0, le_rfl, rfl, fun i hi => ⟨Nat.zero_le _, hi⟩⟩
  | e :: es, log', c, c', r, r', h => by
    rw [pop] at h
    split_ifs at h with hgt hz
    · cases h
      exact ⟨0, Nat.zero_le _, rfl, fun i hi => ⟨Nat.zero_le _, hi⟩⟩
    · obtain ⟨k, hk, hlog, hc⟩ := pop_spec h
      refine ⟨k + 1, Nat.succ_le_succ hk, hlog, fun i hi => ?_⟩
      have hpos : i ≠ 0 := fun h0 => hz (.inl (by rw [hi, h0]))
      obtain ⟨h1, h2⟩ := hc (i - 1) (by rw [hi]; rfl)
      exact ⟨by omega, by rw [h2]; congr 1; omega⟩

theorem Pointed.drop {log : List Entry} {lc : EVersion} {i k : ℕ} (h : Pointed log lc i) (hk : k ≤ i) :
    Pointed (log.drop k) lc (i - k) := by
  refine ⟨?_, fun e he => ?_, fun e he => ?_, fun e he => ?_⟩
  · rw [length_drop]
    exact Nat.sub_le_sub_right h.le k
  · refine h.before e ?_
    rw [← drop_take] at he
    exact mem_of_mem_drop he
  · rw [getElem?_drop, Nat.add_sub_cancel' hk] at he
    exact h.there e he
  · rw [drop_drop, show k + (i - k + 1) = i + 1 by omega] at he
    exact h.behind e he

/-- The PG after an entry was added to the log, and maybe some trimmed. -/
structure Added (e : Entry) (pg q : PG) (k : ℕ) : Prop where
  log : q.log = (pg.log ++ [e]).drop k
  top : q.top = e.version
  completeTo : ∀ i, bump pg.log.length pg.completeTo = some i → k ≤ i ∧ q.completeTo = some (i - k)
  active : q.active = pg.active
  lastUpdate : q.lastUpdate = pg.lastUpdate
  lastComplete : q.lastComplete = pg.lastComplete
  missing : q.missing = pg.missing
  pointed : q.pointed = pg.pointed
  whoami : q.whoami = pg.whoami
  peers : q.peers = pg.peers
  clean : q.clean = pg.clean
  uptodate : q.uptodate = pg.uptodate
  peerMissing : q.peerMissing = pg.peerMissing
  pushing : q.pushing = pg.pushing

theorem prepareLogTransaction_spec {trimTo : EVersion}
    (hs : prepareLogTransaction e trimTo pg = some pg') : ∃ k, Added e pg pg' k := by
  unfold prepareLogTransaction at hs
  dsimp only at hs
  split_ifs at hs
  · unfold trim at hs
    obtain ⟨⟨log', c', r'⟩, hr, rfl⟩ := map_eq_some_iff.mp hs
    obtain ⟨k, -, hlog, hc⟩ := pop_spec hr
    exact ⟨k, hlog, rfl, hc, rfl, rfl, rfl, rfl, rfl, rfl, rfl, rfl, rfl, rfl, rfl⟩
  · cases hs
    exact ⟨0, rfl, rfl, fun i hi => ⟨Nat.zero_le _, hi⟩, rfl, rfl, rfl, rfl, rfl, rfl, rfl, rfl, rfl, rfl, rfl⟩

/-- The pointer after an entry above the others is added, and `last_complete` with it if
the PG is complete. -/
theorem Inv.pointed_add (h : Inv pg) (hlt : pg.lastUpdate < e.version) (ha : pg.active = true)
    (hpt : pg.pointed = true) : ∃ i, bump pg.log.length pg.completeTo = some i ∧
      Pointed (pg.log ++ [e]) (if pg.lastComplete = pg.lastUpdate then e.version else pg.lastComplete) i ∧
      (i < (pg.log ++ [e]).length ↔
        (if pg.lastComplete = pg.lastUpdate then e.version else pg.lastComplete) < e.version) := by
  obtain ⟨i, hi, hp, hiff⟩ := h.pointed ha hpt
  have hlen : (pg.log ++ [e]).length = pg.log.length + 1 := by simp
  by_cases heq : pg.lastComplete = pg.lastUpdate
  · have hend : i = pg.log.length := by
      have := hp.le
      have := hiff.not.mpr (by rw [heq]; exact lt_irrefl _)
      omega
    rw [if_pos heq]
    refine ⟨pg.log.length + 1, by rw [hi, bump, map_some, if_pos hend], ⟨hlen.ge, fun x hx => ?_,
      fun x hx => ?_, fun x hx => ?_⟩, fun hl => absurd hl (by omega), fun hl => absurd hl (lt_irrefl _)⟩
    · rcases mem_append.mp (mem_of_mem_take hx) with hx | hx
      · exact (lt_of_le_of_lt (h.version_le hx) hlt).le
      · exact (mem_singleton.mp hx ▸ le_rfl)
    · rw [getElem?_eq_none hlen.le] at hx
      cases hx
    · rw [drop_eq_nil_of_le (by omega)] at hx
      cases hx
  · have hlc : pg.lastComplete < pg.lastUpdate := lt_of_le_of_ne h.le heq
    have hil := hiff.mpr hlc
    rw [if_neg heq]
    refine ⟨i, by rw [hi, bump, map_some, if_neg hil.ne], ⟨by omega, fun x hx => ?_, fun x hx => ?_,
      fun x hx => ?_⟩, fun _ => hlc.trans hlt, fun _ => by omega⟩
    · rw [take_append_of_le_length hil.le] at hx
      exact hp.before x hx
    · rw [getElem?_append_left hil] at hx
      exact hp.there x hx
    · rw [drop_append_of_le_length hil] at hx
      rcases mem_append.mp hx with hx | hx
      · exact hp.behind x hx
      · rw [mem_singleton.mp hx]
        exact hlc.trans hlt

/-- **A write** raises `last_complete` only in a PG that is complete. -/
theorem modify_inv {trimTo : EVersion} (h : Inv pg) (hp : Peers pg) (ha : pg.active = true)
    (hs : modify e trimTo pg = some pg') : Inv pg' ∧ Peers pg' := by
  obtain ⟨q, hq, hs⟩ := bind_eq_some_iff.mp hs
  obtain ⟨k, had⟩ := prepareLogTransaction_spec hq
  unfold prepareOpTransaction at hs
  rw [had.lastComplete, had.lastUpdate] at hs
  obtain ⟨hlt, ⟨⟩⟩ := ite_none_right_eq_some.mp hs
  have habove : ∀ x ∈ pg.log, x.version < e.version := fun x hx => lt_of_le_of_lt (h.version_le hx) hlt
  have hsorted : (pg.log ++ [e]).Pairwise (·.version < ·.version) := by
    refine pairwise_append.mpr ⟨h.sorted, pairwise_singleton _ _, fun x hx y hy => ?_⟩
    rw [mem_singleton.mp hy]
    exact habove x hx
  refine ⟨{
    sorted := ?_, last := fun x hx => ?_, top := had.top, le := ?_, missing := fun p hpm => ?_
    pointed := fun _ hpt => ?_, whole := fun _ hpt => ?_, idle := fun hf => ?_ }, ?_⟩
  · show q.log.Pairwise _
    rw [had.log]
    exact hsorted.sublist (drop_sublist _ _)
  · change x ∈ q.log.getLast? at hx
    rw [had.log, getLast?_drop] at hx
    split_ifs at hx
    · cases hx
    · rw [getLast?_append] at hx
      simp only [getLast?_singleton, some_or, mem_some_iff] at hx
      rw [← hx]
  · show (if pg.lastComplete = pg.lastUpdate then e.version else pg.lastComplete) ≤ e.version
    split_ifs
    · exact le_rfl
    · exact (lt_of_le_of_lt h.le hlt).le
  · change p ∈ q.missing at hpm
    rw [had.missing] at hpm
    have hne : pg.lastComplete ≠ pg.lastUpdate := fun heq => by
      rw [h.missing_nil heq] at hpm
      cases hpm
    obtain ⟨hgt, x, hx, ho, hv⟩ := h.missing p hpm
    have hpt : pg.pointed = true := by
      by_contra hf
      exact hne (h.whole ha (by simpa using hf))
    obtain ⟨i, hi, hpd, -⟩ := h.pointed_add hlt ha hpt
    rw [if_neg hne] at hpd
    rw [if_neg hne, had.log]
    refine ⟨hgt, x, ?_, ho, hv⟩
    -- what is trimmed lies before complete_to
    have hmem : x ∈ (pg.log ++ [e]).take k ++ (pg.log ++ [e]).drop k := by
      rw [take_append_drop]
      exact mem_append_left _ hx
    rcases mem_append.mp hmem with hmem | hmem
    · have hle := hpd.before x ((take_subset_take_left _ (had.completeTo i hi).1) hmem)
      rw [hv] at hle
      exact absurd hgt (not_lt.mpr hle)
    · exact hmem
  · change q.pointed = true at hpt
    rw [had.pointed] at hpt
    obtain ⟨i, hi, hpd, hiff⟩ := h.pointed_add hlt ha hpt
    obtain ⟨hk, hct⟩ := had.completeTo i hi
    refine ⟨i - k, hct, ?_, ?_⟩
    · show Pointed q.log _ _
      rw [had.log]
      exact hpd.drop hk
    · show i - k < q.log.length ↔ _
      rw [had.log, length_drop, ← hiff]
      omega
  · change q.pointed = false at hpt
    rw [had.pointed] at hpt
    rw [if_pos (h.whole ha hpt)]
  · change q.active = false at hf
    rw [had.active, ha] at hf
    cases hf
  · have hcomplete (heq : pg.lastComplete = pg.lastUpdate) :
        (if pg.lastComplete = pg.lastUpdate then e.version else pg.lastComplete) = e.version := if_pos heq
    constructor
    · show (q.whoami :: q.peers).Nodup
      rw [had.whoami, had.peers]
      exact hp.nodup
    · show q.peerMissing q.whoami = []
      rw [had.peerMissing, had.whoami]
      exact hp.own
    · show ∀ x ∈ q.pushing, x.2 ∈ q.peers
      rw [had.pushing, had.peers]
      exact hp.pushing
    · show ∀ x ∈ q.uptodate, x ∈ q.whoami :: q.peers
      rw [had.uptodate, had.whoami, had.peers]
      exact hp.uptodate
    · intro hme
      rw [had.whoami, had.uptodate] at hme
      exact hcomplete (hp.me hme)
    · intro hclean
      rw [had.clean] at hclean
      exact hcomplete (hp.clean hclean)

/-! ### Pushes -/

theorem Missing.has_iff {m : Missing} : m.has o = true ↔ ∃ p ∈ m, p.1 = o := by
  simp [Missing.has]

theorem Missing.mem_got {m : Missing} {p : ℕ × EVersion} : p ∈ m.got o ↔ p ∈ m ∧ p.1 ≠ o := by
  simp [Missing.got]

/-- **The walk** passes entries whose objects are not missing, and stops before one whose
object is. -/
theorem walk_spec (m : Missing) : ∀ (es : List Entry) (lc : EVersion) (i : ℕ),
    es.Pairwise (·.version < ·.version) → (∀ e ∈ es.head?, lc ≤ e.version) →
    ∃ k ≤ es.length, (walk m es lc i).2 = i + k ∧ lc ≤ (walk m es lc i).1 ∧
      (∀ e ∈ es.take k, e.version ≤ (walk m es lc i).1 ∧ m.has e.oid = false) ∧
      (k = 0 ∧ (walk m es lc i).1 = lc ∨
        (∀ e ∈ es.drop k, (walk m es lc i).1 < e.version) ∧ ∃ e ∈ es, (walk m es lc i).1 = e.version)
  | [], lc, i, _, _ => ⟨0, le_rfl, rfl, le_rfl, by simp, .inl ⟨rfl, rfl⟩⟩
  | e :: es, lc, i, hs, hh => by
    rw [walk]
    by_cases hm : m.has e.oid = true
    · rw [if_pos hm]
      exact ⟨0, Nat.zero_le _, rfl, le_rfl, by simp, .inl ⟨rfl, rfl⟩⟩
    · rw [if_neg hm]
      obtain ⟨hbelow, hs'⟩ := pairwise_cons.mp hs
      have hle : lc ≤ e.version := hh e (by simp)
      have hmax : (if lc < e.version then e.version else lc) = e.version := by
        split_ifs with hlt
        · rfl
        · exact le_antisymm hle (not_lt.mp hlt)
      rw [hmax]
      have hhead : ∀ x ∈ es.head?, e.version ≤ x.version := fun x hx =>
        (hbelow x (mem_of_mem_head? hx)).le
      obtain ⟨k, hk, h1, h2, h3, h4⟩ := walk_spec m es e.version (i + 1) hs' hhead
      refine ⟨k + 1, Nat.succ_le_succ hk, by omega, hle.trans h2, fun x hx => ?_, .inr ?_⟩
      · rw [take_succ_cons] at hx
        rcases mem_cons.mp hx with rfl | hx
        · exact ⟨h2, by simpa using hm⟩
        · exact h3 x hx
      · rw [drop_succ_cons]
        rcases h4 with ⟨rfl, h4⟩ | ⟨h4, x, hx, hv⟩
        · rw [h4]
          exact ⟨hbelow, e, mem_cons_self, rfl⟩
        · exact ⟨h4, x, mem_cons_of_mem _ hx, hv⟩

/-- **The arrival of an object** raises `last_complete` up to the next missing one. -/
theorem received_inv (h : Inv pg) (hp : Peers pg) (ha : pg.active = true) (hm : pg.missing.has o = true)
    (hs : received o pg = some pg') : Inv pg' ∧ Peers pg' ∧ pg'.peers = pg.peers := by
  have hne : pg.lastComplete ≠ pg.lastUpdate := fun heq => by
    rw [h.missing_nil heq] at hm
    cases hm
  have hpt : pg.pointed = true := by
    by_contra hf
    exact hne (h.whole ha (by simpa using hf))
  obtain ⟨i, hi, hpd, hiff⟩ := h.pointed ha hpt
  have hlc : pg.lastComplete < pg.lastUpdate := lt_of_le_of_ne h.le hne
  have hil := hiff.mpr hlc
  unfold received at hs
  rw [hi, bind_some, if_neg hil.ne] at hs
  cases hs
  have hsort : (pg.log.drop i).Pairwise (·.version < ·.version) := h.sorted.sublist (drop_sublist _ _)
  obtain ⟨k, hk, hj, hge, hpass, hstop⟩ := walk_spec (pg.missing.got o) (pg.log.drop i) pg.lastComplete i hsort
    (fun e he => hpd.there e (by rwa [head?_drop] at he))
  generalize walk (pg.missing.got o) (pg.log.drop i) pg.lastComplete i = r at *
  have htake : pg.log.take (i + k) = pg.log.take i ++ (pg.log.drop i).take k := take_add
  have hdrop : pg.log.drop (i + k) = (pg.log.drop i).drop k := drop_drop.symm
  have hbefore : ∀ e ∈ pg.log.take (i + k), e.version ≤ r.1 := fun e he => by
    rw [htake] at he
    rcases mem_append.mp he with he | he
    · exact (hpd.before e he).trans hge
    · exact (hpass e he).1
  have hle : r.1 ≤ pg.lastUpdate := by
    rcases hstop with ⟨-, heq⟩ | ⟨-, e, he, heq⟩
    · rw [heq]
      exact h.le
    · rw [heq]
      exact h.version_le (mem_of_mem_drop he)
  have hiff' : i + k < pg.log.length ↔ r.1 < pg.lastUpdate := by
    constructor
    · intro hlt
      rcases hstop with ⟨-, heq⟩ | ⟨habove, -⟩
      · rw [heq]
        exact hlc
      · have hin : pg.log[i + k] ∈ (pg.log.drop i).drop k := by
          rw [← hdrop, drop_eq_getElem_cons hlt]
          exact mem_cons_self
        exact lt_of_lt_of_le (habove _ hin) (h.version_le (getElem_mem hlt))
    · intro hlt
      by_contra hend
      obtain ⟨l, hl⟩ := isSome_iff_exists.mp (getLast?_isSome.mpr (ne_nil_of_length_pos (by omega) : pg.log ≠ []))
      have hlast := hbefore l (by
        rw [take_of_length_le (not_lt.mp hend)]
        exact mem_of_getLast? hl)
      rw [h.last l hl] at hlast
      exact absurd hlt (not_lt.mpr hlast)
  have hpointed : Pointed pg.log r.1 (i + k) := by
    refine ⟨?_, hbefore, fun e he => ?_, fun e he => ?_⟩
    · rw [length_drop] at hk
      omega
    · rcases hstop with ⟨rfl, heq⟩ | ⟨habove, -⟩
      · rw [heq]
        exact hpd.there e he
      · refine (habove e ?_).le
        rw [← hdrop]
        exact mem_of_mem_head? (by rw [head?_drop]; exact he)
    · rcases hstop with ⟨rfl, heq⟩ | ⟨habove, -⟩
      · rw [heq]
        exact hpd.behind e he
      · refine habove e ?_
        rw [← hdrop]
        exact (drop_subset_drop_left _ (Nat.le_succ _)) he
  refine ⟨{ h with
    le := hle, missing := fun p hpm => ?_, pointed := fun _ _ => ⟨i + k, by rw [hj], hpointed, hiff'⟩
    whole := fun _ hf => ?_ }, { hp with me := fun hme => ?_, clean := fun hclean => ?_ }, rfl⟩
  · obtain ⟨hpm', -⟩ := Missing.mem_got.mp hpm
    obtain ⟨hgt, e, he, ho, hv⟩ := h.missing p hpm'
    refine ⟨?_, e, he, ho, hv⟩
    by_contra hnot
    have hpr : p.2 ≤ r.1 := not_lt.mp hnot
    rcases hstop with ⟨-, heq⟩ | ⟨habove, -⟩
    · rw [heq] at hpr
      exact absurd hgt (not_lt.mpr hpr)
    · have hmem : e ∈ pg.log.take i ++ ((pg.log.drop i).take k ++ (pg.log.drop i).drop k) := by
        rw [take_append_drop, take_append_drop]
        exact he
      rcases mem_append.mp hmem with he | he
      · have := hpd.before e he
        rw [hv] at this
        exact absurd hgt (not_lt.mpr this)
      · rcases mem_append.mp he with he | he
        · have hno := (hpass e he).2
          rw [Missing.has_iff.mpr ⟨p, hpm, ho.symm⟩] at hno
          cases hno
        · have := habove e he
          rw [hv] at this
          exact hnot this
  · cases hpt.symm.trans hf
  · exact absurd (hp.me hme) hne
  · exact absurd (hp.clean hclean) hne

/-- **`sub_op_push`.** -/
theorem subOpPush_inv {v : EVersion} (h : Inv pg) (hp : Peers pg) (ha : pg.active = true)
    (hs : subOpPush o v busy pg = some pg') : Inv pg' ∧ Peers pg' := by
  unfold subOpPush at hs
  split at hs
  · cases hs
    exact ⟨h, hp⟩
  · next need hneed =>
    obtain ⟨-, hs⟩ := ite_none_right_eq_some.mp hs
    obtain ⟨q, hq, hs⟩ := bind_eq_some_iff.mp hs
    have hm : pg.missing.has o = true := by
      obtain ⟨l1, l2, hl, -⟩ := lookup_eq_some_iff.mp hneed
      exact Missing.has_iff.mpr ⟨(o, need), by rw [hl]; simp, rfl⟩
    obtain ⟨hqi, hqp, hpeers⟩ := received_inv h hp ha hm hq
    split_ifs at hs
    · obtain ⟨u, hu, hs⟩ := bind_eq_some_iff.mp hs
      obtain ⟨hup, huk⟩ := pushMissing_inv q.peers hqp (fun x hx => hx) hu
      obtain ⟨hp', hk⟩ := doRecovery_inv hup hs
      exact ⟨(hqi.kept huk).kept hk, hp'⟩
    · cases hs
      exact ⟨hqi, hqp⟩

theorem subOpPushReply_inv {o peer : ℕ} (h : Inv pg) (hp : Peers pg)
    (hs : subOpPushReply o peer pg = some pg') : Inv pg' ∧ Peers pg' := by
  unfold subOpPushReply at hs
  by_cases hin : pg.pushing.contains (o, peer) = true
  · rw [if_pos hin] at hs
    have hmem : peer ∈ pg.peers := hp.pushing (o, peer) (contains_iff_mem.mp hin)
    have hnot : pg.whoami ≠ peer := fun heq => (nodup_cons.mp hp.nodup).1 (heq ▸ hmem)
    generalize hu : (if pg.peerMissing peer = [] then insert peer pg.uptodate else pg.uptodate) = u at hs
    have hsub : ∀ p ∈ u, p = peer ∨ p ∈ pg.uptodate := by
      intro p hpu
      rw [← hu] at hpu
      split_ifs at hpu
      · exact Finset.mem_insert.mp hpu
      · exact .inr hpu
    have hin' : Peers { pg with pushing := pg.pushing.filter (· ≠ (o, peer)), uptodate := u } := by
      refine { hp with
        pushing := fun p hpp => hp.pushing p (mem_of_mem_filter hpp), uptodate := fun p hpu => ?_
        me := fun hme => hp.me ((hsub _ hme).resolve_left hnot) }
      rcases hsub p hpu with rfl | hpu
      · exact mem_cons_of_mem _ hmem
      · exact hp.uptodate p hpu
    have hi : Inv { pg with pushing := pg.pushing.filter (· ≠ (o, peer)), uptodate := u } := { h with }
    dsimp only at hs
    split_ifs at hs
    · cases hs
      exact ⟨hi, hin'⟩
    · obtain ⟨hp', hk⟩ := doPeerRecovery_inv hin' hs
      exact ⟨hi.kept hk, hp'⟩
  · rw [if_neg hin] at hs
    cases hs
    exact ⟨h, hp⟩

/-! ### Runs -/

theorem peered_inv (p : Peered) : Inv p.toPG ∧ Peers p.toPG where
  left :=
    { sorted := p.sorted
      last := p.top
      top := rfl
      le := p.le
      missing := p.logged
      pointed := fun ha => Bool.noConfusion ha
      whole := fun ha => Bool.noConfusion ha
      idle := fun _ => rfl }
  right :=
    { nodup := p.nodup
      own := p.own
      pushing := by simp [Peered.toPG]
      uptodate := by simp [Peered.toPG]
      me := by simp [Peered.toPG]
      clean := by simp [Peered.toPG] }

theorem after_inv (h : Inv pg) (hp : Peers pg) {r : Option PG}
    (hr : ∀ q, r = some q → Inv q ∧ Peers q) : Inv (pg.after r) ∧ Peers (pg.after r) := by
  cases hq : r with
  | none => exact ⟨{ h with }, { hp with }⟩
  | some q => exact hr q hq

/-- **One step** keeps the invariant. -/
theorem step_inv {a : Act} (h : Inv pg) (hp : Peers pg) (hs : step pg a = some pg') : Inv pg' ∧ Peers pg' := by
  obtain ⟨-, hs⟩ := ite_none_left_eq_some.mp hs
  cases a with
  | peer p =>
    cases hs
    exact peered_inv p
  | activate hack busy =>
    cases hs
    exact after_inv h hp fun q hq => activate_inv h hp hq
  | opModify e trimTo =>
    obtain ⟨⟨ha, -, -⟩, ⟨⟩⟩ := ite_none_right_eq_some.mp hs
    refine after_inv h hp fun q hq => ?_
    obtain ⟨u, hu, hq⟩ := bind_eq_some_iff.mp hq
    obtain ⟨hup, huk⟩ := pushMissing_inv pg.peers hp (fun x hx => hx) hu
    exact modify_inv (h.kept huk) hup (huk.active.trans ha) hq
  | subOpModify e trimTo =>
    obtain ⟨⟨ha, -⟩, ⟨⟩⟩ := ite_none_right_eq_some.mp hs
    refine after_inv h hp fun q hq => ?_
    obtain ⟨-, hq⟩ := ite_none_left_eq_some.mp hq
    exact modify_inv h hp ha hq
  | subOpPush o v busy =>
    obtain ⟨ha, ⟨⟩⟩ := ite_none_right_eq_some.mp hs
    exact after_inv h hp fun q hq => subOpPush_inv h hp ha hq
  | subOpPushReply o peer =>
    obtain ⟨-, ⟨⟩⟩ := ite_none_right_eq_some.mp hs
    exact after_inv h hp fun q hq => subOpPushReply_inv h hp hq
  | subOpPull o peer =>
    obtain ⟨⟨-, hin⟩, ⟨⟩⟩ := ite_none_right_eq_some.mp hs
    refine after_inv h hp fun q hq => ?_
    unfold subOpPull at hq
    split_ifs at hq
    · obtain ⟨hqp, hqk⟩ := push_inv hp (contains_iff_mem.mp hin) hq
      exact ⟨h.kept hqk, hqp⟩
    · cases hq
      exact ⟨h, hp⟩
  | doRecovery busy =>
    obtain ⟨-, ⟨⟩⟩ := ite_none_right_eq_some.mp hs
    refine after_inv h hp fun q hq => ?_
    obtain ⟨hqp, hqk⟩ := doRecovery_inv hp hq
    exact ⟨h.kept hqk, hqp⟩

/-- What `last_complete` says of a PG. -/
structure Truthful (pg : PG) : Prop where
  missing : ∀ p ∈ pg.missing, pg.lastComplete < p.2
  completeTo : pg.pointed = true → ∃ i, pg.completeTo = some i ∧ Pointed pg.log pg.lastComplete i
  finished : pg.clean = true → pg.missing = [] ∧ pg.lastComplete = pg.lastUpdate

/-- A replica with four entries in its log: object 0 was modified twice, and it has the
first version of it. -/
def behind : Peered :=
  readLog (toLex (1, 4)) (toLex (1, 2))
    [⟨.modify, 0, toLex (1, 1)⟩, ⟨.modify, 1, toLex (1, 2)⟩, ⟨.modify, 0, toLex (1, 3)⟩,
      ⟨.delete, 1, toLex (1, 4)⟩]
    EVersion.zero false (fun o => if o = 0 then some (toLex (1, 1)) else none) [] 1
    (by decide) (by decide) (by decide)

/-- A PG with one entry in its log, which it has. -/
def complete : Peered :=
  readLog (toLex (1, 1)) (toLex (1, 1)) [⟨.modify, 0, toLex (1, 1)⟩] EVersion.zero false
    (fun _ => some (toLex (1, 1))) [] 1 (by decide) (by decide) (by decide)

end Recovery
end Osd
end Ceph
