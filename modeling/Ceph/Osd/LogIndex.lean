/-
# The index mirrors the log

`objects` has for each object its newest entry in the log, and `caller_ops`
the requests of its entries. `index` of one entry keeps this whatever its
place, for entries are compared; `unindex` erases what the entry put there
without asking who else did: the id of a request goes with its first entry
(a clone and the change after it share one), and an object's newest entry
goes with nothing in its place when the log is cut from the top. Divergent
entries that `merge_log` removes stay indexed.

A run is one of calls whose arguments are as their callers promise (`Fair`);
`Covered` says that nothing of what is taken away is still needed.
-/
import Ceph.Osd.IndexedLog
import Mathlib.Data.List.TakeWhile

namespace Ceph
namespace Osd
namespace PGLog

open List Option Function

/-! ### Indexes and sets of entries -/

/-- The index is that of the entries `es`. -/
structure Indexed (ix : Index) (es : List Entry) : Prop where
  newest : ∀ o e, ix.objects o = some e → e ∈ es ∧ e.oid = o ∧ ∀ x ∈ es, x.oid = o → x.version ≤ e.version
  every : ∀ e ∈ es, (ix.objects e.oid).isSome = true
  ops : ∀ r, ix.callerOps r = true ↔ ∃ e ∈ es, e.reqid = r

/-- In order, each version once. -/
abbrev Sorted (es : List Entry) : Prop := es.Pairwise fun a b => a.version < b.version

theorem Sorted.inj : ∀ {es : List Entry}, Sorted es → ∀ {a b : Entry}, a ∈ es → b ∈ es → a.version = b.version → a = b
  | e :: es, h, a, b, ha, hb, hv => by
    obtain ⟨he, hes⟩ := pairwise_cons.mp h
    obtain heq | ha' := mem_cons.mp ha
    · obtain heq' | hb' := mem_cons.mp hb
      · rw [heq, heq']
      · exact absurd hv (ne_of_lt (heq ▸ he b hb'))
    · obtain heq | hb' := mem_cons.mp hb
      · exact absurd hv.symm (ne_of_lt (heq ▸ he a ha'))
      · exact Sorted.inj hes ha' hb' hv

theorem indexed_empty : Indexed .empty [] := ⟨nofun, nofun, fun _ => ⟨nofun, nofun⟩⟩

theorem Indexed.congr {ix : Index} {es es' : List Entry} (h : Indexed ix es) (heq : ∀ e, e ∈ es' ↔ e ∈ es) :
    Indexed ix es' where
  newest o e he := by
    obtain ⟨hmem, hoid, hmax⟩ := h.newest o e he
    exact ⟨(heq e).mpr hmem, hoid, fun x hx => hmax x ((heq x).mp hx)⟩
  every e he := h.every e ((heq e).mp he)
  ops r := by
    rw [h.ops]
    exact exists_congr fun e => and_congr_left fun _ => (heq e).symm

section index

variable {ix : Index} {es : List Entry} {e : Entry}

theorem ops_set {f : ℕ → Bool} (hf : ∀ r, f r = true ↔ ∃ x ∈ es, x.reqid = r) (r : ℕ) :
    Function.update f e.reqid true r = true ↔ ∃ x ∈ e :: es, x.reqid = r := by
  rw [exists_mem_cons_iff]
  by_cases hr : r = e.reqid
  · rw [hr, update_self]
    exact ⟨fun _ => .inl rfl, fun _ => rfl⟩
  · rw [update_of_ne hr, hf]
    exact ⟨.inr, fun h => h.resolve_left fun heq => hr heq.symm⟩

/-- An entry at least as new as the object's others becomes the object's. -/
theorem Indexed.set (h : Indexed ix es) (hnew : ∀ x ∈ es, x.oid = e.oid → x.version ≤ e.version) :
    Indexed (ix.set e) (e :: es) where
  newest o x hx := by
    by_cases ho : o = e.oid
    · rw [Index.set_objects, ho, update_self] at hx
      cases hx
      refine ⟨mem_cons_self, ho.symm, fun y hy hyo => ?_⟩
      obtain rfl | hy := mem_cons.mp hy
      · exact le_rfl
      · exact hnew y hy (hyo.trans ho)
    · rw [Index.set_objects, update_of_ne ho] at hx
      obtain ⟨hmem, hoid, hmax⟩ := h.newest o x hx
      refine ⟨mem_cons_of_mem _ hmem, hoid, fun y hy hyo => ?_⟩
      obtain rfl | hy := mem_cons.mp hy
      · exact absurd hyo.symm ho
      · exact hmax y hy hyo
  every x hx := by
    by_cases ho : x.oid = e.oid
    · rw [Index.set_objects, ho, update_self]
      rfl
    · rw [Index.set_objects, update_of_ne ho]
      obtain rfl | hx := mem_cons.mp hx
      · exact absurd rfl ho
      · exact h.every x hx
  ops := ops_set h.ops

/-- `index(e)` indexes one more entry. -/
theorem Indexed.index (h : Indexed ix es) (e : Entry) : Indexed (ix.index e) (e :: es) := by
  rw [Index.index]
  by_cases hnew : ((ix.objects e.oid).all fun o => o.version < e.version) = true
  · rw [if_pos hnew]
    refine h.set fun x hx hxo => ?_
    obtain ⟨o, ho⟩ := isSome_iff_exists.mp (h.every x hx)
    have hle := (h.newest _ o ho).2.2 x hx rfl
    rw [hxo] at ho
    rw [ho, all_some, decide_eq_true_iff] at hnew
    exact hle.trans hnew.le
  · rw [if_neg hnew]
    obtain ⟨o, ho, hle⟩ : ∃ o, ix.objects e.oid = some o ∧ e.version ≤ o.version := by
      cases ho : ix.objects e.oid with
      | none =>
        rw [ho] at hnew
        exact absurd rfl hnew
      | some o =>
        rw [ho, all_some, decide_eq_true_iff] at hnew
        exact ⟨o, rfl, not_lt.mp hnew⟩
    refine ⟨fun o' x hx => ?_, fun x hx => ?_, ops_set h.ops⟩
    · obtain ⟨hmem, hoid, hmax⟩ := h.newest o' x hx
      refine ⟨mem_cons_of_mem _ hmem, hoid, fun y hy hyo => ?_⟩
      obtain rfl | hy := mem_cons.mp hy
      · have hx : ix.objects y.oid = some x := hyo ▸ hx
        rw [ho] at hx
        exact some.inj hx ▸ hle
      · exact hmax y hy hyo
    · obtain rfl | hx := mem_cons.mp hx
      · rw [ho]
        rfl
      · exact h.every x hx

theorem Indexed.foldl_index : ∀ (new : List Entry) {ix : Index} {es : List Entry}, Indexed ix es →
    Indexed (new.foldl Index.index ix) (new ++ es)
  | [], _, _, h => h
  | e :: new, _, _, h => (foldl_index new (h.index e)).congr fun x => by
    simp only [cons_append, mem_cons, mem_append]
    tauto

/-- `index()` of a log in order. -/
theorem indexed_foldl_set : ∀ (new : List Entry) {ix : Index} {es : List Entry}, Indexed ix es → Sorted (es ++ new) →
    Indexed (new.foldl Index.set ix) (es ++ new)
  | [], _, es, h, _ => h.congr fun e => by rw [append_nil]
  | e :: new, ix, es, h, hs => by
    rw [append_cons] at hs ⊢
    refine indexed_foldl_set new ((h.set fun x hx _ => ?_).congr fun x => ?_) hs
    · have hes := (pairwise_append.mp (pairwise_append.mp hs).1).2.2
      exact (hes x hx e (mem_singleton_self e)).le
    · rw [mem_append, mem_singleton, mem_cons, or_comm]

theorem indexed_all {log : List Entry} (h : Sorted log) : Indexed (Index.all log) log :=
  indexed_foldl_set log indexed_empty h

end index

/-! ### Taking entries away -/

section unindex

variable {ix : Index} {e : Entry} {es : List Entry}

/-- `objects` and `every` of an index, where `caller_ops` may have lost something. -/
structure Listed (ix : Index) (es : List Entry) : Prop where
  newest : ∀ o e, ix.objects o = some e → e ∈ es ∧ e.oid = o ∧ ∀ x ∈ es, x.oid = o → x.version ≤ e.version
  every : ∀ e ∈ es, (ix.objects e.oid).isSome = true

/-- `unindex` of an entry `e` that, if it is its object's newest, is its only one. -/
theorem Listed.unindex (h : Listed ix (e :: es))
    (honly : (∀ x ∈ es, x.oid = e.oid → x.version ≤ e.version) → ∀ x ∈ es, x.oid ≠ e.oid) :
    ∃ ix', ix.unindex e = some ix' ∧ Listed ix' es ∧ ix'.callerOps = Function.update ix.callerOps e.reqid false := by
  obtain ⟨o, ho⟩ := isSome_iff_exists.mp (h.every e mem_cons_self)
  obtain ⟨hmem, hoid, hmax⟩ := h.newest _ o ho
  rw [Index.unindex, ho]
  refine ⟨_, rfl, ?_, rfl⟩
  by_cases hv : o.version = e.version
  · -- `e` is its object's newest entry, so the object has no other
    have hnone := honly fun x hx hxo => hv ▸ hmax x (mem_cons_of_mem _ hx) hxo
    simp only [if_pos hv]
    refine ⟨fun o' x hx => ?_, fun x hx => ?_⟩
    · change Function.update ix.objects e.oid none o' = some x at hx
      by_cases ho' : o' = e.oid
      · rw [ho', update_self] at hx
        cases hx
      · rw [update_of_ne ho'] at hx
        obtain ⟨hxm, hxo, hxmax⟩ := h.newest o' x hx
        refine ⟨(mem_cons.mp hxm).resolve_left fun heq => ho' ?_, hxo,
          fun y hy => hxmax y (mem_cons_of_mem _ hy)⟩
        rw [← hxo, heq]
    · change (Function.update ix.objects e.oid none x.oid).isSome = true
      rw [update_of_ne (hnone x hx)]
      exact h.every x (mem_cons_of_mem _ hx)
  · simp only [if_neg hv]
    refine ⟨fun o' x hx => ?_, fun x hx => h.every x (mem_cons_of_mem _ hx)⟩
    obtain ⟨hxm, hxo, hxmax⟩ := h.newest o' x hx
    refine ⟨(mem_cons.mp hxm).resolve_left fun heq => hv ?_, hxo, fun y hy => hxmax y (mem_cons_of_mem _ hy)⟩
    have ho' : o' = e.oid := by rw [← hxo, heq]
    rw [ho', ho] at hx
    rw [some.inj hx, heq]

/-- The entries that a loop takes away: those before the first it stops at. -/
def taken (stop : Entry → Bool) (es : List Entry) : List Entry := es.takeWhile fun e => ! stop e

/-- What is left. -/
def left (stop : Entry → Bool) (es : List Entry) : List Entry := es.dropWhile fun e => ! stop e

theorem taken_append_left (stop : Entry → Bool) (es : List Entry) : taken stop es ++ left stop es = es :=
  takeWhile_append_dropWhile

/-- What a loop takes away goes from the index, with its requests. The entries
are taken from the end where `honly` holds of each. -/
theorem unindexWhile_spec (stop check : Entry → Bool) : ∀ {es : List Entry} {ix : Index}, Listed ix es →
    (es.Pairwise fun a b => a.version ≠ b.version) →
    (∀ e rest, (e :: rest) <:+ es → stop e = false →
      (∀ x ∈ rest, x.oid = e.oid → x.version ≤ e.version) → ∀ x ∈ rest, x.oid ≠ e.oid) →
    (∃ p, unindexWhile stop check es ix = .ok p ∧ p.1 = left stop es ∧ Listed p.2 (left stop es) ∧
      ∀ r, p.2.callerOps r = true ↔ ix.callerOps r = true ∧ ∀ e ∈ taken stop es, e.reqid ≠ r) ∨
      unindexWhile stop check es ix = .error .other
  | [], ix, h, _, _ => .inl ⟨_, rfl, rfl, h, fun r => ⟨fun hr => ⟨hr, nofun⟩, And.left⟩⟩
  | e :: es, ix, h, hs, honly => by
    obtain ⟨-, hs⟩ := pairwise_cons.mp hs
    rw [unindexWhile, left, taken]
    by_cases hstop : stop e = true
    · have hn : ¬ (!stop e) = true := by simp [hstop]
      rw [if_pos hstop, dropWhile_cons_of_neg (p := fun e => !stop e) hn,
        takeWhile_cons_of_neg (p := fun e => !stop e) hn]
      exact .inl ⟨_, rfl, rfl, h, fun r => ⟨fun hr => ⟨hr, nofun⟩, And.left⟩⟩
    · have hp : (!stop e) = true := by simp [hstop]
      rw [if_neg hstop, dropWhile_cons_of_pos (p := fun e => !stop e) hp,
        takeWhile_cons_of_pos (p := fun e => !stop e) hp]
      by_cases hcheck : check e = true
      · rw [if_pos hcheck]
        obtain ⟨ix', hix, hl, hops⟩ := h.unindex (honly e es (suffix_refl _) (by simpa using hstop))
        rw [hix]
        obtain ⟨p, hp, hlog, hlp, hpops⟩ | herr := unindexWhile_spec stop check hl hs
          fun x rest hx => honly x rest (hx.trans (suffix_cons e es))
        · refine .inl ⟨p, hp, hlog, hlp, fun r => ?_⟩
          rw [hpops, hops, forall_mem_cons]
          by_cases hr : r = e.reqid
          · rw [hr, update_self]
            simp
          · rw [update_of_ne hr]
            exact ⟨fun hr' => ⟨hr'.1, fun heq => hr heq.symm, hr'.2⟩, fun hr' => ⟨hr'.1, hr'.2.2⟩⟩
        · exact .inr herr
      · rw [if_neg hcheck]
        exact .inr rfl

end unindex

/-! ### Logs -/

/-- A log in order, within its bounds. -/
structure Valid (l : Log) : Prop where
  sorted : Sorted l.log
  top : ∀ e ∈ l.log, e.version ≤ l.top
  bottom : l.backlog = false → ∀ e ∈ l.log, l.bottom < e.version
  le : l.bottom ≤ l.top

/-- A log in order and its index. -/
structure Inv (l : IndexedLog) : Prop where
  valid : Valid l.toLog
  indexed : Indexed l.ix l.log

/-- **The mirror.** An object's entry is its newest in the log, and `is_dup`
knows the requests of the log. -/
structure Mirrors (l : IndexedLog) : Prop where
  objects : ∀ o e, l.ix.objects o = some e ↔
    e ∈ l.log ∧ e.oid = o ∧ ∀ x ∈ l.log, x.oid = o → x.version ≤ e.version
  isDup : ∀ r, l.isDup r = true ↔ ∃ e ∈ l.log, e.reqid = r

theorem Inv.mirrors {l : IndexedLog} (h : Inv l) : Mirrors l where
  objects o e := by
    refine ⟨h.indexed.newest o e, ?_⟩
    rintro ⟨he, rfl, hmax⟩
    obtain ⟨x, hx⟩ := isSome_iff_exists.mp (h.indexed.every e he)
    obtain ⟨hxm, hxo, hxmax⟩ := h.indexed.newest _ x hx
    rw [hx, h.valid.sorted.inj hxm he (le_antisymm (hmax x hxm hxo) (hxmax e he rfl))]
  isDup := h.indexed.ops

/-! ### Trims -/

section trim

variable {l l' : IndexedLog} {stop check : Entry → Bool}

theorem stop_of_left (stop : Entry → Bool) : ∀ {es : List Entry}, (es.Pairwise fun a b => stop a = true → stop b = true) →
    ∀ x ∈ left stop es, stop x = true
  | [], _, x, hx => nomatch hx
  | e :: es, h, x, hx => by
    obtain ⟨he, hes⟩ := pairwise_cons.mp h
    rw [left] at hx
    by_cases hstop : stop e = true
    · rw [dropWhile_cons_of_neg (by simp [hstop])] at hx
      obtain rfl | hx := mem_cons.mp hx
      · exact hstop
      · exact he x hx hstop
    · rw [dropWhile_cons_of_pos (by simp [hstop])] at hx
      exact stop_of_left stop hes x hx

theorem not_stop_of_taken {es : List Entry} {x : Entry} (hx : x ∈ taken stop es) : stop x = false := by
  have := mem_takeWhile_imp hx
  simpa using this

theorem indexed_left {es : List Entry} {ix ix' : Index} (h : Indexed ix es) (hl : Listed ix' (left stop es))
    (hops : ∀ r, ix'.callerOps r = true ↔ ix.callerOps r = true ∧ ∀ e ∈ taken stop es, e.reqid ≠ r)
    (hreq : ∀ e ∈ taken stop es, ∀ x ∈ left stop es, x.reqid ≠ e.reqid) : Indexed ix' (left stop es) where
  newest := hl.newest
  every := hl.every
  ops r := by
    rw [hops, h.ops]
    constructor
    · rintro ⟨⟨e, he, her⟩, hnone⟩
      rw [← taken_append_left stop es, mem_append] at he
      exact ⟨e, he.resolve_left fun ht => hnone e ht her, her⟩
    · rintro ⟨e, he, rfl⟩
      exact ⟨⟨e, (dropWhile_sublist _).subset he, rfl⟩, fun x hx heq => hreq x hx e he heq.symm⟩

/-- A log cut from the bottom: the entries up to `s` go. -/
theorem cut_bottom (check : Entry → Bool) {s : EVersion} (h : Inv l) (hreq : ∀ e ∈ l.log, e.version ≤ s → ∀ x ∈ l.log, s < x.version →
      x.reqid ≠ e.reqid) {r : Except Assert (List Entry × Index)}
    (hr : unindexWhile (fun e => s < e.version) check l.log l.ix = r) :
    (∃ p, r = .ok p ∧ Sorted p.1 ∧ Indexed p.2 p.1 ∧ ∀ e ∈ p.1, e ∈ l.log ∧ s < e.version) ∨ r = .error .other := by
  subst hr
  have hsorted := h.valid.sorted
  have hcut := unindexWhile_spec (fun e => s < e.version) check ⟨h.indexed.newest, h.indexed.every⟩
    (hsorted.imp ne_of_lt) (fun e rest hsuf _ hmax x hx hxo => by
      have := rel_of_pairwise_cons (hsorted.sublist hsuf.sublist) hx
      exact absurd (hmax x hx hxo) (not_le.mpr this))
  refine hcut.imp_left ?_
  rintro ⟨p, hp, hlog, hl, hops⟩
  have hleft : ∀ e ∈ left (fun e => s < e.version) l.log, s < e.version := fun e he =>
    of_decide_eq_true (stop_of_left (fun e => s < e.version)
      (hsorted.imp fun hlt hs => decide_eq_true ((of_decide_eq_true hs).trans hlt)) e he)
  have hsub : (left (fun e => s < e.version) l.log).Sublist l.log := dropWhile_sublist _
  refine ⟨p, hp, hlog ▸ hsorted.sublist hsub, ?_, fun e he => ?_⟩
  · rw [hlog]
    refine indexed_left h.indexed hl hops fun e he x hx => ?_
    have hle : e.version ≤ s := not_lt.mp (of_decide_eq_false (not_stop_of_taken he))
    exact hreq e ((takeWhile_sublist _).subset he) hle x (hsub.subset hx) (hleft x hx)
  · rw [hlog] at he
    exact ⟨hsub.subset he, hleft e he⟩

/-- `trim` up to where the log has got. -/
theorem trim_spec {s : EVersion} (h : Inv l) (hle : s ≤ l.top)
    (hreq : ∀ e ∈ l.log, e.version ≤ (if l.backlog ∧ s < l.bottom then l.bottom else s) →
      ∀ x ∈ l.log, (if l.backlog ∧ s < l.bottom then l.bottom else s) < x.version → x.reqid ≠ e.reqid) :
    (∃ l', l.trim s = .ok l' ∧ Inv l') ∨ l.trim s = .error .other := by
  rw [IndexedLog.trim]
  generalize hs : (if l.backlog = true ∧ s < l.bottom then l.bottom else s) = s' at *
  have hs' : s' ≤ l.top := by
    rw [← hs]
    split
    · exact h.valid.le
    · exact hle
  obtain ⟨p, hp, hsorted, hix, hmem⟩ | herr := cut_bottom (fun e => l.completeTo ≠ some e.version ∧
    l.requestedTo ≠ some e.version) h hreq rfl
  · simp only [hp]
    refine .inl ⟨_, rfl, ⟨hsorted, fun e he => h.valid.top e (hmem e he).1, fun _ e he => ?_, ?_⟩, hix⟩
    · show (if l.bottom < s' then s' else l.bottom) < e.version
      split
      · exact (hmem e he).2
      · cases hb : l.backlog with
        | false => exact h.valid.bottom hb e (hmem e he).1
        | true =>
          -- a backlog goes whole: the cut is not below the bottom
          have hge : l.bottom ≤ s' := by
            rw [← hs]
            split
            · exact le_rfl
            · rename_i hn
              exact not_lt.mp fun hlt => hn ⟨hb, hlt⟩
          exact lt_of_le_of_lt hge (hmem e he).2
    · show (if l.bottom < s' then s' else l.bottom) ≤ l.top
      split
      · exact hs'
      · exact h.valid.le
  · simp only [herr]
    exact .inr rfl

/-- `drop_backlog`: the entries up to the bottom go. -/
theorem dropBacklog_spec (h : Inv l) (hreq : ∀ e ∈ l.log, e.version ≤ l.bottom → ∀ x ∈ l.log, l.bottom < x.version →
      x.reqid ≠ e.reqid) : (∃ l', dropBacklog l = .ok l' ∧ Inv l') ∨ dropBacklog l = .error .other := by
  rw [dropBacklog]
  by_cases hb : l.backlog = true
  · rw [if_pos hb]
    obtain ⟨p, hp, hsorted, hix, hmem⟩ | herr := cut_bottom (fun _ => true) h hreq rfl
    · simp only [hp]
      exact .inl ⟨_, rfl, ⟨hsorted, fun e he => h.valid.top e (hmem e he).1, fun _ e he => (hmem e he).2, h.valid.le⟩, hix⟩
    · simp only [herr]
      exact .inr rfl
  · rw [if_neg hb]
    exact .inr rfl

/-- `trim_write_ahead`: the entries above `lastUpdate` go, each the only one of its object. -/
theorem trimWriteAhead_spec {lu : EVersion} (h : Inv l)
    (hcov : ∀ e ∈ l.log, lu < e.version → (∀ x ∈ l.log, x.oid = e.oid → x = e) ∧
      ∀ x ∈ l.log, x.version ≤ lu → x.reqid ≠ e.reqid) :
    (∃ l', l.trimWriteAhead lu = .ok l' ∧ Inv l') ∨ l.trimWriteAhead lu = .error .other := by
  have hsorted := h.valid.sorted
  have hrev : l.log.reverse.Pairwise fun a b => b.version < a.version := pairwise_reverse.mpr hsorted
  have hixrev : Indexed l.ix l.log.reverse := h.indexed.congr fun _ => mem_reverse
  have hcut := unindexWhile_spec (fun e => e.version ≤ lu) (fun _ => true)
    ⟨hixrev.newest, hixrev.every⟩ (hrev.imp fun hlt => (ne_of_lt hlt).symm) (fun e rest hsuf hstop _ x hx hxo => by
      have he : e ∈ l.log := mem_reverse.mp (hsuf.subset mem_cons_self)
      have hx' : x ∈ l.log := mem_reverse.mp (hsuf.subset (mem_cons_of_mem _ hx))
      have hlt := rel_of_pairwise_cons (hrev.sublist hsuf.sublist) hx
      rw [(hcov e he (not_le.mp (of_decide_eq_false hstop))).1 x hx' hxo] at hlt
      exact lt_irrefl _ hlt)
  rw [IndexedLog.trimWriteAhead]
  obtain ⟨p, hp, hlog, hl, hops⟩ | herr := hcut
  · simp only [hp]
    have hsub : (left (fun e => e.version ≤ lu) l.log.reverse).Sublist l.log.reverse := dropWhile_sublist _
    have hleft : ∀ e ∈ left (fun e => e.version ≤ lu) l.log.reverse, e.version ≤ lu := fun e he =>
      of_decide_eq_true (stop_of_left (fun e => e.version ≤ lu)
        (hrev.imp fun hlt hs => decide_eq_true (hlt.le.trans (of_decide_eq_true hs))) e he)
    have hix : Indexed p.2 (left (fun e => e.version ≤ lu) l.log.reverse) := by
      refine indexed_left hixrev hl hops fun e he x hx => ?_
      have hlt : lu < e.version := not_le.mp (of_decide_eq_false (not_stop_of_taken he))
      exact (hcov e (mem_reverse.mp ((takeWhile_sublist _).subset he)) hlt).2 x
        (mem_reverse.mp (hsub.subset hx)) (hleft x hx)
    have hmem : ∀ e ∈ p.1.reverse, e ∈ l.log := fun e he => by
      rw [mem_reverse, hlog] at he
      exact mem_reverse.mp (hsub.subset he)
    refine .inl ⟨_, rfl, ⟨?_, fun e he => h.valid.top e (hmem e he), fun hb e he => h.valid.bottom hb e (hmem e he),
      h.valid.le⟩, hix.congr fun e => by rw [mem_reverse, hlog]⟩
    show Sorted p.1.reverse
    rw [hlog]
    exact pairwise_reverse.mpr (hrev.sublist hsub)
  · simp only [herr]
    exact .inr rfl

end trim

/-! ### `add` and backlogs -/

section add

variable {l l' : IndexedLog}

theorem add_spec {e : Entry} (h : Inv l) (hadd : l.add e = .ok l') : Inv l' := by
  rw [IndexedLog.add] at hadd
  split at hadd
  · rename_i hlt
    cases hadd
    have hnew : ∀ x ∈ l.log, x.version < e.version := fun x hx => lt_of_le_of_lt (h.valid.top x hx) hlt.1
    have hle : ∀ x ∈ l.log ++ [e], x.version ≤ e.version := fun x hx => by
      obtain hx | hx := mem_append.mp hx
      · exact (hnew x hx).le
      · rw [mem_singleton.mp hx]
    refine ⟨⟨?_, hle, fun hb x hx => ?_, h.valid.le.trans hlt.1.le⟩, ?_⟩
    · refine pairwise_append.mpr ⟨h.valid.sorted, pairwise_singleton _ _, fun x hx y hy => ?_⟩
      rw [mem_singleton.mp hy]
      exact hnew x hx
    · obtain hx | hx := mem_append.mp hx
      · exact h.valid.bottom hb x hx
      · rw [mem_singleton.mp hx]
        exact lt_of_le_of_lt h.valid.le hlt.1
    · refine (h.indexed.set fun x hx _ => (hnew x hx).le).congr fun x => ?_
      rw [mem_append, mem_singleton, mem_cons, or_comm]
  · cases hadd

theorem index_spec (h : Valid l.toLog) : Inv l.index := ⟨h, indexed_all h.sorted⟩

theorem putEntry_spec {es : List Entry} {e : Entry} (h : Sorted es) :
    Sorted (putEntry es e) ∧ ∀ x ∈ putEntry es e, x = e ∨ x ∈ es ∧ x.version ≠ e.version := by
  have hlow : ∀ x ∈ es.takeWhile (fun x => x.version < e.version), x.version < e.version := fun x hx =>
    of_decide_eq_true (mem_takeWhile_imp hx :)
  have hhigh : ∀ x ∈ es.dropWhile (fun x => x.version ≤ e.version), e.version < x.version := fun x hx => by
    have hx : x ∈ left (fun x => ! decide (x.version ≤ e.version)) es := by
      simpa [left] using hx
    have := stop_of_left _ (h.imp fun {a b} hlt hs => by
      simp only [Bool.not_eq_true', decide_eq_false_iff_not, not_le] at hs ⊢
      exact hs.trans hlt) x hx
    simpa using this
  have hpw : Sorted (putEntry es e) := by
    refine pairwise_append.mpr ⟨h.sublist (takeWhile_sublist _), pairwise_cons.mpr ⟨hhigh,
      h.sublist (dropWhile_sublist _)⟩, fun x hx y hy => ?_⟩
    obtain rfl | hy := mem_cons.mp hy
    · exact hlow x hx
    · exact (hlow x hx).trans (hhigh y hy)
  refine ⟨hpw, fun x hx => ?_⟩
  obtain hx | hx := mem_append.mp hx
  · exact .inr ⟨(takeWhile_sublist _).subset hx, ne_of_lt (hlow x hx)⟩
  · obtain rfl | hx := mem_cons.mp hx
    · exact .inl rfl
    · exact .inr ⟨(dropWhile_sublist _).subset hx, (ne_of_lt (hhigh x hx)).symm⟩

theorem foldl_putEntry (stored : ℕ → EVersion) : ∀ (os : List ℕ) (es : List Entry), Sorted es →
    Sorted (os.foldl (fun add oid => putEntry add ⟨⟨.modify, oid, stored oid⟩, noReqid⟩) es) ∧
      ∀ x ∈ os.foldl (fun add oid => putEntry add ⟨⟨.modify, oid, stored oid⟩, noReqid⟩) es,
        x ∈ es ∨ x.oid ∈ os ∧ x.version = stored x.oid
  | [], _, h => ⟨h, fun _ hx => .inl hx⟩
  | o :: os, es, h => by
    obtain ⟨hs, hmem⟩ := putEntry_spec (e := ⟨⟨.modify, o, stored o⟩, noReqid⟩) h
    obtain ⟨hs', hmem'⟩ := foldl_putEntry stored os _ hs
    refine ⟨hs', fun x hx => ?_⟩
    obtain hx | ⟨ho, hv⟩ := hmem' x hx
    · obtain rfl | ⟨hx, -⟩ := hmem x hx
      · exact .inr ⟨mem_cons_self, rfl⟩
      · exact .inl hx
    · exact .inr ⟨mem_cons_of_mem _ ho, hv⟩

/-- `generate_backlog`, where objects that are not logged are no newer than the bottom. -/
theorem generateBacklog_spec {stored : ℕ → EVersion} {olist : List ℕ} (h : Inv l)
    (hold : ∀ o ∈ olist, l.ix.objects o = none → stored o ≤ l.bottom) (hgen : generateBacklog stored olist l = .ok l') :
    Inv l' := by
  rw [generateBacklog] at hgen
  split at hgen
  · cases hgen
  · rename_i hb
    cases hgen
    have hb : l.backlog = false := by simpa using hb
    obtain ⟨hs, hmem⟩ := foldl_putEntry stored (olist.filter fun oid => (l.ix.objects oid).isNone) [] .nil
    have hlow : ∀ x ∈ backlogEntries l.ix stored olist, x.version ≤ l.bottom := fun x hx => by
      obtain ⟨ho, hv⟩ := (hmem x hx).resolve_left not_mem_nil
      obtain ⟨ho, hnone⟩ := mem_filter.mp ho
      rw [hv]
      exact hold _ ho (by simpa using hnone)
    refine ⟨⟨?_, fun e he => ?_, nofun, h.valid.le⟩, ?_⟩
    · exact pairwise_append.mpr ⟨hs, h.valid.sorted, fun x hx y hy =>
        lt_of_le_of_lt (hlow x hx) (h.valid.bottom hb y hy)⟩
    · obtain he | he := mem_append.mp he
      · exact (hlow e he).trans h.valid.le
      · exact h.valid.top e he
    · refine (h.indexed.foldl_index (backlogEntries l.ix stored olist).reverse).congr fun x => ?_
      rw [mem_append, mem_append, mem_reverse]

end add

/-! ### `merge_log` -/

section merge

variable {pg pg' : PG} {olog : Log}

theorem swapLog_spec (ho : Valid olog) : Inv (swapLog pg olog).log := ⟨ho, indexed_all ho.sorted⟩

/-- Our log with the part of the other one below it. -/
def lower (pg : PG) (olog : Log) : List Entry :=
  (if extendsBottom pg olog then below pg.log.bottom olog.log else []) ++ pg.log.log

/-- What that leaves of the other log. -/
def upper (pg : PG) (olog : Log) : List Entry :=
  if extendsBottom pg olog then olog.log.dropWhile fun e => e.version ≤ pg.log.bottom else olog.log

/-- Extended on the bottom: the log goes on down, and what is left of the other one is above. -/
theorem extendBottom_spec {rest : List Entry} (h : Inv pg.log) (ho : Valid olog)
    (hext : extendBottom pg olog = .ok (pg', rest)) :
    Inv pg'.log ∧ pg'.log.top = pg.log.top ∧ rest <:+ olog.log ∧ pg'.log.log = lower pg olog ∧ rest = upper pg olog := by
  rw [extendBottom] at hext
  rw [lower, upper]
  by_cases hb : extendsBottom pg olog
  · rw [if_pos hb] at hext
    rw [if_pos hb, if_pos hb]
    by_cases hrest : olog.log.dropWhile (fun e => e.version ≤ pg.log.bottom) = []
    · rw [if_pos hrest] at hext
      cases hext
    · rw [if_neg hrest] at hext
      cases hext
      have hlow : ∀ x ∈ below pg.log.bottom olog.log, x.version ≤ pg.log.bottom := fun x hx =>
        of_decide_eq_true (mem_takeWhile_imp hx :)
      have hsub : (below pg.log.bottom olog.log).Sublist olog.log := takeWhile_sublist _
      refine ⟨⟨⟨?_, fun e he => ?_, fun hbk e he => ?_, hb.1.le.trans h.valid.le⟩, ?_⟩, rfl, dropWhile_suffix _, rfl, rfl⟩
      · exact pairwise_append.mpr ⟨ho.sorted.sublist hsub, h.valid.sorted, fun x hx y hy =>
          lt_of_le_of_lt (hlow x hx) (h.valid.bottom hb.2.2 y hy)⟩
      · obtain he | he := mem_append.mp he
        · exact (hlow e he).trans h.valid.le
        · exact h.valid.top e he
      · obtain he | he := mem_append.mp he
        · exact ho.bottom hbk e (hsub.subset he)
        · exact hb.1.trans (h.valid.bottom hb.2.2 e he)
      · exact h.indexed.foldl_index _
  · rw [if_neg hb] at hext
    rw [if_neg hb, if_neg hb]
    cases hext
    exact ⟨h, rfl, suffix_refl _, rfl, rfl⟩

/-- What `merge_log` removes from the end of a log (newest first) it removes
as far as the entry before the first new one, and none of it is its object's newest. -/
theorem removeDivergent_spec {v : EVersion} {ix : Index} {m : Missing} : ∀ {es kept : List Entry},
    removeDivergent v ix m es = .ok kept →
      kept = left (fun e => number e.version + 1 = number v) es ∧
      (∃ e rest, kept = e :: rest ∧ number e.version + 1 = number v) ∧
      ∀ e ∈ taken (fun e => number e.version + 1 = number v) es, ∃ o, ix.objects e.oid = some o ∧ o.version ≠ e.version
  | [], _, h => nomatch h
  | e :: es, kept, h => by
    rw [removeDivergent] at h
    rw [left, taken]
    by_cases hn : number e.version + 1 = number v
    · rw [if_pos hn] at h
      cases h
      rw [dropWhile_cons_of_neg (by simp [hn]), takeWhile_cons_of_neg (by simp [hn])]
      exact ⟨rfl, ⟨e, es, rfl, hn⟩, nofun⟩
    · rw [if_neg hn] at h
      rw [dropWhile_cons_of_pos (by simp [hn]), takeWhile_cons_of_pos (by simp [hn])]
      split at h
      · cases h
      · split at h
        · cases h
        · rename_i o ho
          split at h
          · rename_i hcheck
            obtain ⟨hkept, hlast, hall⟩ := removeDivergent_spec h
            exact ⟨hkept, hlast, forall_mem_cons.mpr ⟨⟨o, ho, hcheck.1⟩, hall⟩⟩
          · cases h

theorem above_spec (top : EVersion) (es : List Entry) :
    (above top es).reverse <:+ es ∧ ∀ x ∈ above top es, top ≤ x.version := by
  refine ⟨?_, fun x hx => ?_⟩
  · rw [← List.reverse_prefix, reverse_reverse]
    exact List.takeWhile_prefix _
  · have := mem_takeWhile_imp hx
    simpa using this

/-- **What `extendTop` returns.** -/
theorem extendTop_cases {es : List Entry} (hext : extendTop pg olog es = .ok pg') :
    (¬ extendsTop pg olog ∧ pg' = pg) ∨ extendsTop pg olog ∧ ∃ first kept,
      (above pg.log.top es).getLast? = some first ∧
      removeDivergent first.version ((above pg.log.top es).foldl Index.index pg.log.ix)
        ((above pg.log.top es).foldl mergeEntry pg.missing) pg.log.log.reverse = .ok kept ∧
      pg' = { pg with
        log := { pg.log with
          log := kept.reverse ++ (above pg.log.top es).reverse, top := olog.top
          ix := (above pg.log.top es).foldl Index.index pg.log.ix }
        missing := (above pg.log.top es).foldl mergeEntry pg.missing, lastUpdate := olog.top } := by
  unfold extendTop at hext
  split_ifs at hext with hx
  · cases hlast : (above pg.log.top es).getLast? with
    | none =>
      simp only [hlast] at hext
      cases hext
    | some first =>
      simp only [hlast] at hext
      cases hr : removeDivergent first.version ((above pg.log.top es).foldl Index.index pg.log.ix)
        ((above pg.log.top es).foldl mergeEntry pg.missing) pg.log.log.reverse with
      | error a =>
        rw [hr] at hext
        cases hext
      | ok kept =>
        rw [hr] at hext
        cases hext
        exact .inr ⟨hx, first, kept, rfl, hr, rfl⟩
  · cases hext
    exact .inl ⟨hx, rfl⟩

/-- Extended on top, where each request removed is logged again. -/
theorem extendTop_spec {es : List Entry} (h : Inv pg.log) (ho : Valid olog) (hes : es <:+ olog.log)
    (hreq : extendsTop pg olog → ∀ first ∈ (above pg.log.top es).getLast?,
      ∀ e ∈ taken (fun e => number e.version + 1 = number first.version) pg.log.log.reverse,
        ∃ x ∈ left (fun e => number e.version + 1 = number first.version) pg.log.log.reverse ++ above pg.log.top es,
          x.reqid = e.reqid)
    (hext : extendTop pg olog es = .ok pg') : Inv pg'.log := by
  obtain ⟨-, rfl⟩ | ⟨hx, first, kept, hlast, hkept, heq⟩ := extendTop_cases hext
  · exact h
  have hsub : es.Sublist olog.log := hes.sublist
  obtain ⟨hfresh, hlow⟩ := above_spec pg.log.top es
  have hreq := hreq hx first hlast
  have hfirst : first ∈ above pg.log.top es := mem_of_getLast? hlast
  -- the first of the new entries is the lowest
  have hmin : ∀ x ∈ above pg.log.top es, first.version ≤ x.version := fun x hxm => by
    obtain ⟨l, hl⟩ := getLast?_eq_some_iff.mp hlast
    have hs : Sorted (above pg.log.top es).reverse := (ho.sorted.sublist hsub).sublist hfresh.sublist
    rw [hl, reverse_append, reverse_singleton, singleton_append] at hs
    rw [hl, mem_append, mem_singleton] at hxm
    obtain hxm | rfl := hxm
    · exact (rel_of_pairwise_cons hs (mem_reverse.mpr hxm)).le
    · exact le_rfl
  obtain ⟨hleft, ⟨e, rest, hcons, hnum⟩, hgone⟩ := removeDivergent_spec hkept
  subst heq
  have hksub : kept.Sublist pg.log.log.reverse := hleft ▸ dropWhile_sublist _
  have hkmem : ∀ x ∈ kept, x ∈ pg.log.log := fun x hxm => mem_reverse.mp (hksub.subset hxm)
  have hkrev : kept.Pairwise fun a b => b.version < a.version :=
    (pairwise_reverse.mpr h.valid.sorted).sublist hksub
  have hkeptlt : ∀ x ∈ kept, x.version < first.version := fun x hxm => by
    have hle : x.version ≤ e.version := by
      rw [hcons] at hxm hkrev
      obtain rfl | hxm := mem_cons.mp hxm
      · exact le_rfl
      · exact (rel_of_pairwise_cons hkrev hxm).le
    have he : e.version ≤ first.version :=
      (h.valid.top e (hkmem e (hcons ▸ mem_cons_self))).trans (hlow first hfirst)
    refine lt_of_le_of_ne (hle.trans he) fun heq => ?_
    have : e.version = first.version := le_antisymm he (heq ▸ hle)
    rw [this] at hnum
    omega
  have hmemes : ∀ x ∈ above pg.log.top es, x ∈ olog.log := fun x hxm =>
    hsub.subset (hfresh.subset (mem_reverse.mpr hxm))
  refine ⟨⟨?_, fun x hxm => ?_, fun hb x hxm => ?_, h.valid.le.trans hx.1.le⟩, ?_⟩
  · refine pairwise_append.mpr ⟨pairwise_reverse.mpr hkrev,
      (ho.sorted.sublist hsub).sublist hfresh.sublist, fun x hxm y hym => ?_⟩
    exact lt_of_lt_of_le (hkeptlt x (mem_reverse.mp hxm)) (hmin y (mem_reverse.mp hym))
  · obtain hxm | hxm := mem_append.mp hxm
    · exact (h.valid.top x (hkmem x (mem_reverse.mp hxm))).trans hx.1.le
    · exact ho.top x (hmemes x (mem_reverse.mp hxm))
  · obtain hxm | hxm := mem_append.mp hxm
    · exact h.valid.bottom hb x (hkmem x (mem_reverse.mp hxm))
    · have hem : e ∈ pg.log.log := hkmem e (hcons ▸ mem_cons_self)
      exact lt_of_lt_of_le (lt_of_lt_of_le (h.valid.bottom hb e hem) (h.valid.top e hem))
        (hlow x (mem_reverse.mp hxm))
  · have hall := h.indexed.foldl_index (above pg.log.top es)
    have hmem : ∀ x, x ∈ kept.reverse ++ (above pg.log.top es).reverse ↔ x ∈ kept ∨ x ∈ above pg.log.top es :=
      fun x => by rw [mem_append, mem_reverse, mem_reverse]
    have hback : ∀ x, x ∈ kept.reverse ++ (above pg.log.top es).reverse → x ∈ above pg.log.top es ++ pg.log.log :=
      fun x hxm => mem_append.mpr (((hmem x).mp hxm).elim (fun hk => .inr (hkmem x hk)) .inl)
    refine ⟨fun o x hxo => ?_, fun x hxm => hall.every x (hback x hxm), fun r => ?_⟩
    · obtain ⟨hxm, hoid, hmax⟩ := hall.newest o x hxo
      refine ⟨(hmem x).mpr ?_, hoid, fun y hy => hmax y (hback y hy)⟩
      obtain hxm | hxm := mem_append.mp hxm
      · exact .inr hxm
      · left
        rw [← mem_reverse, ← taken_append_left (fun e => number e.version + 1 = number first.version)
          pg.log.log.reverse, ← hleft, mem_append] at hxm
        refine hxm.resolve_left fun ht => ?_
        obtain ⟨o', ho', hne⟩ := hgone x ht
        rw [hoid, hxo] at ho'
        exact hne (some.inj ho' ▸ rfl)
    · rw [hall.ops]
      constructor
      · rintro ⟨x, hxm, rfl⟩
        obtain hxm | hxm := mem_append.mp hxm
        · exact ⟨x, (hmem x).mpr (.inr hxm), rfl⟩
        · rw [← mem_reverse, ← taken_append_left (fun e => number e.version + 1 = number first.version)
            pg.log.log.reverse, ← hleft, mem_append] at hxm
          obtain ht | hk := hxm
          · obtain ⟨y, hy, hyr⟩ := hreq x ht
            rw [← hleft, mem_append] at hy
            exact ⟨y, (hmem y).mpr hy, hyr⟩
          · exact ⟨x, (hmem x).mpr (.inl hk), rfl⟩
      · rintro ⟨x, hxm, rfl⟩
        exact ⟨x, hback x hxm, rfl⟩

/-- `merge_log` does not call `unindex`. -/
theorem mergeLog_ne (pg : PG) (olog : Log) : mergeLog pg olog ≠ .error .unindex := by
  have hdiv : ∀ (v : EVersion) (ix : Index) (m : Missing) (es : List Entry),
      removeDivergent v ix m es ≠ .error .unindex := fun v ix m es => by
    induction es with
    | nil => nofun
    | cons e es ih =>
      rw [removeDivergent]
      split
      · nofun
      · split
        · nofun
        · split
          · nofun
          · split
            · exact ih
            · nofun
  have htop : ∀ (pg : PG) (es : List Entry), extendTop pg olog es ≠ .error .unindex := fun pg es h => by
    rw [extendTop] at h
    split at h
    · cases hlast : (above pg.log.top es).getLast? with
      | none =>
        simp only [hlast] at h
        cases h
      | some first =>
        simp only [hlast] at h
        cases hr : removeDivergent first.version ((above pg.log.top es).foldl Index.index pg.log.ix)
          ((above pg.log.top es).foldl mergeEntry pg.missing) pg.log.log.reverse with
        | ok kept =>
          rw [hr] at h
          cases h
        | error b =>
          rw [hr] at h
          cases h
          exact hdiv _ _ _ _ hr
    · cases h
  intro h
  rw [mergeLog] at h
  split at h
  · cases hb : extendBottom pg olog with
    | ok p =>
      rw [hb] at h
      exact htop p.1 p.2 h
    | error b =>
      rw [hb] at h
      cases h
      rw [extendBottom] at hb
      split at hb
      · by_cases hrest : olog.log.dropWhile (fun e => e.version ≤ pg.log.bottom) = []
        · rw [if_pos hrest] at hb
          cases hb
        · rw [if_neg hrest] at hb
          cases hb
      · cases hb
  · cases h

/-- **`merge_log`**, where each request removed is logged again. -/
theorem mergeLog_spec (h : Inv pg.log) (ho : Valid olog)
    (hreq : mergeable pg olog → extendsTop pg olog → ∀ first ∈ (above pg.log.top (upper pg olog)).getLast?,
      ∀ e ∈ taken (fun e => number e.version + 1 = number first.version) (lower pg olog).reverse,
        ∃ x ∈ left (fun e => number e.version + 1 = number first.version) (lower pg olog).reverse ++
          above pg.log.top (upper pg olog), x.reqid = e.reqid)
    (hm : mergeLog pg olog = .ok pg') : Inv pg'.log := by
  rw [mergeLog] at hm
  by_cases hmerge : mergeable pg olog
  · rw [if_pos hmerge] at hm
    cases hb : extendBottom pg olog with
    | error a =>
      rw [hb] at hm
      cases hm
    | ok p =>
      rw [hb] at hm
      obtain ⟨hinv, htop, hsuf, hlower, hupper⟩ := extendBottom_spec h ho hb
      refine extendTop_spec hinv ho hsuf (fun hx => ?_) hm
      rw [htop, hlower, hupper]
      rw [extendsTop, htop] at hx
      exact hreq hmerge hx
  · rw [if_neg hmerge] at hm
    cases hm
    exact swapLog_spec ho

end merge

/-! ### Runs -/

/-- A call of the log, or `others`: what other code does to the rest of the PG. -/
inductive Act
  | add (e : Entry)
  | index
  | trim (s : EVersion)
  | trimWriteAhead (lastUpdate : EVersion)
  | mergeLog (olog : Log)
  | generateBacklog (stored : ℕ → EVersion) (olist : List ℕ)
  | dropBacklog
  | others (missing : Missing) (lastComplete : EVersion) (completeTo requestedTo : Option EVersion)

def act (pg : PG) : Act → Except Assert PG
  | .add e => (pg.log.add e).map fun l => { pg with log := l }
  | .index => .ok { pg with log := pg.log.index }
  | .trim s => (pg.log.trim s).map fun l => { pg with log := l }
  | .trimWriteAhead lu => (pg.log.trimWriteAhead lu).map fun l => { pg with log := l }
  | .mergeLog olog => PGLog.mergeLog pg olog
  | .generateBacklog stored olist => (PGLog.generateBacklog stored olist pg.log).map fun l => { pg with log := l }
  | .dropBacklog => (PGLog.dropBacklog pg.log).map fun l => { pg with log := l }
  | .others m lc c r => .ok { pg with
      missing := m, lastComplete := lc, log := { pg.log with completeTo := c, requestedTo := r } }

/-- A PG, and whether the assertion of `unindex` has failed. -/
structure State where
  pg : PG
  failed : Bool

/-- One call. After the assertion of `unindex` nothing else happens; where
another assertion fails there is no next state. -/
def step (s : State) (a : Act) : Option State :=
  if s.failed then none else
  match act s.pg a with
  | .ok pg => some ⟨pg, false⟩
  | .error .unindex => some ⟨s.pg, true⟩
  | .error .other => none

/-- A PG with a log just read and indexed. -/
def start (l : Log) : State where
  failed := false
  pg := {
    log := { l with ix := Index.all l.log, completeTo := none, requestedTo := none }
    missing := .empty, lastUpdate := l.top, lastComplete := EVersion.zero
    logBottom := l.bottom, logBacklog := l.backlog, oldestUpdate := EVersion.zero }

/-- What callers promise: a log is trimmed to where it has got, other logs are
in order, and objects that are not logged are no newer than the log's bottom. -/
def Fair (s : State) : Act → Prop
  | .trim v => v ≤ s.pg.log.top
  | .mergeLog olog => Valid olog
  | .generateBacklog stored olist => ∀ o ∈ olist, s.pg.log.ix.objects o = none → stored o ≤ s.pg.log.bottom
  | _ => True

/-- No entry above `v` has the request of one up to `v`. -/
def Apart (log : List Entry) (v : EVersion) : Prop :=
  ∀ e ∈ log, e.version ≤ v → ∀ x ∈ log, v < x.version → x.reqid ≠ e.reqid

/-- `Fair`, and what is taken away is not needed: the entries cut from the
bottom share no request with those kept, nor do those cut from the top, which
are the only ones of their objects; the request of each entry that `merge_log`
removes is logged again. -/
def Covered (s : State) (a : Act) : Prop :=
  Fair s a ∧
  match a with
  | .trim v => Apart s.pg.log.log (if s.pg.log.backlog ∧ v < s.pg.log.bottom then s.pg.log.bottom else v)
  | .dropBacklog => Apart s.pg.log.log s.pg.log.bottom
  | .trimWriteAhead lu => ∀ e ∈ s.pg.log.log, lu < e.version →
      (∀ x ∈ s.pg.log.log, x.oid = e.oid → x = e) ∧ ∀ x ∈ s.pg.log.log, x.version ≤ lu → x.reqid ≠ e.reqid
  | .mergeLog olog => mergeable s.pg olog → extendsTop s.pg olog →
      ∀ first ∈ (above s.pg.log.top (upper s.pg olog)).getLast?,
        ∀ e ∈ taken (fun e => number e.version + 1 = number first.version) (lower s.pg olog).reverse,
          ∃ x ∈ left (fun e => number e.version + 1 = number first.version) (lower s.pg olog).reverse ++
            above s.pg.log.top (upper s.pg olog), x.reqid = e.reqid
  | _ => True

instance (l : Log) : Decidable (Valid l) :=
  decidable_of_iff (Sorted l.log ∧ (∀ e ∈ l.log, e.version ≤ l.top) ∧
    (l.backlog = false → ∀ e ∈ l.log, l.bottom < e.version) ∧ l.bottom ≤ l.top)
    ⟨fun h => ⟨h.1, h.2.1, h.2.2.1, h.2.2.2⟩, fun h => ⟨h.sorted, h.top, h.bottom, h.le⟩⟩

instance (s : State) : ∀ a, Decidable (Fair s a)
  | .trim _ => inferInstanceAs (Decidable (_ ≤ _))
  | .mergeLog olog => inferInstanceAs (Decidable (Valid olog))
  | .generateBacklog _ _ => inferInstanceAs (Decidable (∀ _ ∈ _, _))
  | .add _ | .index | .trimWriteAhead _ | .dropBacklog | .others .. => instDecidableTrue

instance (log : List Entry) (v : EVersion) : Decidable (Apart log v) := by
  unfold Apart
  infer_instance

instance (s : State) (a : Act) : Decidable (Covered s a) := by
  unfold Covered
  cases a <;> infer_instance

/-- A call that ends well, or with an assertion that is not that of `unindex`. -/
theorem map_spec {r : Except Assert IndexedLog} {pg : PG} (h : (∃ l, r = .ok l ∧ Inv l) ∨ r = .error .other) :
    (∃ pg', r.map (fun l => { pg with log := l }) = .ok pg' ∧ Inv pg'.log) ∨
      r.map (fun l => { pg with log := l }) = .error .other := by
  obtain ⟨l, rfl, hl⟩ | rfl := h
  · exact .inl ⟨_, rfl, hl⟩
  · exact .inr rfl

/-- **One call.** It keeps the log in order and indexed, and the assertion of
`unindex` holds. -/
theorem act_spec {s : State} {a : Act} (h : Inv s.pg.log) (hok : Covered s a) :
    (∃ pg, act s.pg a = .ok pg ∧ Inv pg.log) ∨ act s.pg a = .error .other := by
  cases a with
  | add e =>
    refine map_spec ?_
    cases hadd : s.pg.log.add e with
    | ok l => exact .inl ⟨l, rfl, add_spec h hadd⟩
    | error b =>
      rw [IndexedLog.add] at hadd
      split at hadd
      · cases hadd
      · cases hadd
        exact .inr rfl
  | index => exact .inl ⟨_, rfl, index_spec h.valid⟩
  | trim v => exact map_spec (trim_spec h hok.1 hok.2)
  | trimWriteAhead lu => exact map_spec (trimWriteAhead_spec h hok.2)
  | dropBacklog => exact map_spec (dropBacklog_spec h hok.2)
  | generateBacklog stored olist =>
    refine map_spec ?_
    cases hgen : generateBacklog stored olist s.pg.log with
    | ok l => exact .inl ⟨l, rfl, generateBacklog_spec h hok.1 hgen⟩
    | error b =>
      rw [generateBacklog] at hgen
      split at hgen
      · cases hgen
        exact .inr rfl
      · cases hgen
  | mergeLog olog =>
    cases hm : mergeLog s.pg olog with
    | ok pg => exact .inl ⟨pg, hm, mergeLog_spec h hok.1 hok.2 hm⟩
    | error b =>
      cases b with
      | other => exact .inr hm
      | unindex => exact absurd hm (mergeLog_ne s.pg olog)
  | others m lc c r => exact .inl ⟨_, rfl, h.valid, h.indexed⟩

theorem step_inv {s s' : State} {a : Act} (h : Inv s.pg.log ∧ s.failed = false) (hok : Covered s a)
    (hs : step s a = some s') : Inv s'.pg.log ∧ s'.failed = false := by
  rw [step, h.2, if_neg Bool.false_ne_true] at hs
  obtain ⟨pg, hpg, hinv⟩ | herr := act_spec h.1 hok
  · rw [hpg] at hs
    cases hs
    exact ⟨hinv, rfl⟩
  · rw [herr] at hs
    cases hs

/-- **The index mirrors the log**, and the assertion of `unindex` holds, in a
run where nothing needed is taken away. -/
theorem mirrors_log (l : Log) (hl : Valid l) (s : State) (h : Run.Reach step Covered (start l) s) :
    Mirrors s.pg.log ∧ s.failed = false := by
  have h0 : Inv (start l).pg.log := ⟨hl, indexed_all hl.sorted⟩
  have hinv := h.inv (fun s => Inv s.pg.log ∧ s.failed = false) ⟨h0, rfl⟩ fun _ _ _ hi hok hs => step_inv hi hok hs
  exact ⟨hinv.1.mirrors, hinv.2⟩

/-- A log that grows, is trimmed, gets a backlog, loses it, and is extended by another. -/
theorem mirrors_log_run : ∃ l, Valid l ∧ ∃ s, Run.Reach step Covered (start l) s ∧
    s.pg.log.log.map (·.oid) = [6, 5, 7] ∧ Mirrors s.pg.log ∧ s.failed = false := by
  let l : Log := ⟨[⟨⟨.modify, 5, toLex (1, 1)⟩, 21⟩, ⟨⟨.modify, 6, toLex (1, 2)⟩, 22⟩], toLex (1, 2), toLex (0, 0), false⟩
  have hl : Valid l := by decide +kernel
  have hrun : ((Run.exec step Covered [.add ⟨⟨.delete, 5, toLex (1, 3)⟩, 23⟩, .trim (toLex (1, 1)),
      .generateBacklog (fun _ => toLex (1, 1)) [6, 8], .dropBacklog,
      .mergeLog ⟨[⟨⟨.modify, 7, toLex (2, 4)⟩, 24⟩], toLex (2, 4), toLex (1, 3), false⟩] (start l)).map
        fun s => s.pg.log.log.map (·.oid)) = some [6, 5, 7] := by decide +kernel
  obtain ⟨s, hs, heq⟩ := map_eq_some_iff.mp hrun
  have hreach := Run.reach_of_exec hs
  exact ⟨l, hl, s, hreach, heq, mirrors_log l hl s hreach⟩

/-- A log trimmed between a clone and the change it was made for forgets the
request; and cut from the top, with two changes of an object to go, `unindex`
finds the object gone. -/
theorem mirrors_lost :
    (¬ ∀ s, Run.Reach step Fair (start ⟨[], toLex (0, 0), toLex (0, 0), false⟩) s → Mirrors s.pg.log) ∧
      ¬ ∀ s, Run.Reach step Fair (start ⟨[], toLex (0, 0), toLex (0, 0), false⟩) s → s.failed = false := by
  constructor
  · intro h
    have hrun : ((Run.exec step Fair [.add ⟨⟨.clone, 5, toLex (1, 1)⟩, 21⟩, .add ⟨⟨.modify, 5, toLex (1, 2)⟩, 21⟩,
        .trim (toLex (1, 1))] (start ⟨[], toLex (0, 0), toLex (0, 0), false⟩)).map
          fun s => (s.pg.log.log, s.pg.log.isDup 21)) = some ([⟨⟨.modify, 5, toLex (1, 2)⟩, 21⟩], false) := by
      decide +kernel
    obtain ⟨s, hs, heq⟩ := map_eq_some_iff.mp hrun
    obtain ⟨hlog, hdup⟩ := Prod.mk.inj heq
    have hmem := ((h s (Run.reach_of_exec hs)).isDup 21).mpr ⟨_, hlog ▸ mem_singleton_self _, rfl⟩
    rw [hdup] at hmem
    cases hmem
  · intro h
    have hrun : ((Run.exec step Fair [.add ⟨⟨.modify, 5, toLex (1, 1)⟩, 21⟩, .add ⟨⟨.modify, 5, toLex (1, 2)⟩, 22⟩,
        .trimWriteAhead (toLex (0, 0))] (start ⟨[], toLex (0, 0), toLex (0, 0), false⟩)).map
          fun s => s.failed) = some true := by decide +kernel
    obtain ⟨s, hs, heq⟩ := map_eq_some_iff.mp hrun
    rw [h s (Run.reach_of_exec hs)] at heq
    cases heq

end PGLog
end Osd
end Ceph
