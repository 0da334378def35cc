/-
# `merge_log` on top

A received log that goes further up is joined to ours at our top. The walk
down the received list passes only entries that are older than our top, so an
entry at the top that is repeated counts among the new ones, and ours is then
taken for divergent: that is harmless where its object is changed again, and
a failed assertion everywhere else. The other end must be the very entry
before the first new one, by its number; a version that the history has left
out looks divergent, too.

What is new is replayed newest first (`ReplayOrder`).
-/
import Ceph.Osd.ReplayOrder

namespace Ceph
namespace Osd
namespace PGLog

open List Option

/-! ### Logs of one history -/

/-- A log of the history `H`: above its bottom it has all changes up to its
top, and below at most a backlog. -/
structure LogOf (H : List Entry) (l : Log) : Prop where
  sorted : Sorted l.log
  le : l.bottom ≤ l.top
  top : ∃ e ∈ H, e.version = l.top
  above : ∀ e, l.bottom < e.version → (e ∈ l.log ↔ e ∈ H ∧ e.version ≤ l.top)
  backlog : ∀ e ∈ l.log, e.version ≤ l.bottom → l.backlog = true ∧ Known H e

/-- A PG whose log is of the history, with its index, what it misses and its info. -/
structure Consistent (H : List Entry) (pg : PG) : Prop where
  log : LogOf H pg.log.toLog
  indexed : Indexed pg.log.ix pg.log.log
  missing : Sound H pg.missing
  missing_le : ∀ o v, pg.missing.missing o = some v → v ≤ pg.log.top
  lastUpdate : pg.lastUpdate = pg.log.top
  logBottom : pg.logBottom = pg.log.bottom
  logBacklog : pg.logBacklog = pg.log.backlog

section logOf

variable {H : List Entry} {l : Log} {e : Entry}

theorem LogOf.known (h : LogOf H l) (he : e ∈ l.log) : Known H e := by
  rcases le_or_gt e.version l.bottom with hle | hgt
  · exact (h.backlog e he hle).2
  · exact ⟨e, ((h.above e hgt).mp he).1, rfl, rfl⟩

theorem LogOf.le_top (h : LogOf H l) (he : e ∈ l.log) : e.version ≤ l.top := by
  rcases le_or_gt e.version l.bottom with hle | hgt
  · exact hle.trans h.le
  · exact ((h.above e hgt).mp he).2

theorem LogOf.bottom_lt (h : LogOf H l) (hb : l.backlog = false) (he : e ∈ l.log) : l.bottom < e.version :=
  lt_of_not_ge fun hle => Bool.false_ne_true (hb ▸ (h.backlog e he hle).1)

theorem LogOf.newer_ne_nil (h : LogOf H l) {v : EVersion} (hb : l.bottom ≤ v) (ht : v < l.top) : newer l.log v ≠ [] := by
  obtain ⟨e, he, htop⟩ := h.top
  have hmem : e ∈ l.log := (h.above e (by rw [htop]; exact lt_of_le_of_lt hb ht)).mpr ⟨he, htop.le⟩
  exact ne_nil_of_mem (mem_filter.mpr ⟨hmem, decide_eq_true (htop ▸ ht)⟩)

/-- The log of the history from `b` to `t`. -/
def cut (H : List Entry) (b t : EVersion) : Log := ⟨H.filter fun e => b < e.version ∧ e.version ≤ t, t, b, false⟩

theorem logOf_cut (hH : Sorted H) {b t : EVersion} (hb : b ≤ t) (ht : ∃ e ∈ H, e.version = t) : LogOf H (cut H b t) where
  sorted := hH.filter _
  le := hb
  top := ht
  above e he := by
    change e ∈ H.filter _ ↔ e ∈ H ∧ e.version ≤ t
    rw [mem_filter, decide_eq_true_eq]
    exact and_congr_right fun _ => and_iff_right he
  backlog e he hle := absurd (of_decide_eq_true (mem_filter.mp he).2).1 hle.not_gt

/-- The PG with a log of its own that misses nothing. -/
def PG.whole (l : Log) : PG :=
  ⟨⟨l, Index.all l.log, none, none⟩, .empty, l.top, l.top, l.bottom, l.backlog, l.top⟩

theorem consistent_whole (h : LogOf H l) : Consistent H (PG.whole l) :=
  ⟨h, indexed_all h.sorted, ⟨fun _ _ => ⟨nofun, nofun⟩, nofun, fun _ _ => rfl⟩, nofun, rfl, rfl, rfl⟩

end logOf

/-! ### After the bottom -/

/-- The received entries up to our bottom that change what is missing. -/
def lowerReplayed (pg : PG) (olog : Log) : List Entry :=
  (below pg.log.bottom olog.log).filter fun e => pg.lastComplete < e.version

/-- What is missing once the log is extended on the bottom. -/
def lowerMissing (pg : PG) (olog : Log) : Missing :=
  if extendsBottom pg olog then (lowerReplayed pg olog).foldl mergeEntry pg.missing else pg.missing

/-- The PG once the log is extended on the bottom. -/
def lowered (pg : PG) (olog : Log) : PG :=
  if extendsBottom pg olog then
    { pg with
      log := { pg.log with
        log := lower pg olog, bottom := olog.bottom, backlog := olog.backlog
        ix := (below pg.log.bottom olog.log).foldl Index.index pg.log.ix }
      missing := lowerMissing pg olog, logBottom := olog.bottom, logBacklog := olog.backlog }
  else pg

section lowered

variable {H : List Entry} {pg : PG} {olog : Log}

theorem extendBottom_eq (pg : PG) (olog : Log) : extendBottom pg olog =
    if extendsBottom pg olog ∧ upper pg olog = [] then .error .other else .ok (lowered pg olog, upper pg olog) := by
  unfold extendBottom lowered upper lower lowerMissing lowerReplayed
  by_cases hb : extendsBottom pg olog
  · simp only [hb, if_true, true_and, foldl_filter, decide_eq_true_eq]
  · simp only [hb, false_and, if_false]

theorem lowered_log (pg : PG) (olog : Log) : (lowered pg olog).log.log = lower pg olog := by
  unfold lowered lower
  split
  · rfl
  · rfl

theorem lowered_top (pg : PG) (olog : Log) : (lowered pg olog).log.top = pg.log.top := by
  unfold lowered
  split <;> rfl

theorem lowered_missing (pg : PG) (olog : Log) : (lowered pg olog).missing = lowerMissing pg olog := by
  unfold lowered lowerMissing
  split <;> rfl

variable {e : Entry} {b : EVersion} {es : List Entry}

theorem below_le (he : e ∈ below b es) : e.version ≤ b := of_decide_eq_true (mem_takeWhile_imp he :)

theorem mem_of_below (he : e ∈ below b es) : e ∈ es := (takeWhile_sublist _).subset he

theorem mem_lowerReplayed :
    e ∈ lowerReplayed pg olog ↔ e ∈ below pg.log.bottom olog.log ∧ pg.lastComplete < e.version := by
  rw [lowerReplayed, mem_filter, decide_eq_true_eq]

theorem lowerReplayed_sorted (pg : PG) (ho : LogOf H olog) : Sorted (lowerReplayed pg olog) :=
  (ho.sorted.sublist (takeWhile_sublist _)).filter _

theorem lowered_indexed (h : Consistent H pg) : Indexed (lowered pg olog).log.ix (lower pg olog) := by
  unfold lowered lower
  by_cases hb : extendsBottom pg olog
  · rw [if_pos hb, if_pos hb]
    exact h.indexed.foldl_index _
  · rw [if_neg hb, if_neg hb]
    exact h.indexed

theorem lower_le (h : Consistent H pg) (he : e ∈ lower pg olog) : e.version ≤ pg.log.top := by
  obtain he | he := mem_append.mp he
  · by_cases hb : extendsBottom pg olog
    · rw [if_pos hb] at he
      exact (below_le he).trans h.log.le
    · rw [if_neg hb] at he
      cases he
  · exact h.log.le_top he

theorem lower_sorted (h : Consistent H pg) (ho : LogOf H olog) : Sorted (lower pg olog) := by
  unfold lower
  by_cases hb : extendsBottom pg olog
  · rw [if_pos hb]
    exact pairwise_append.mpr ⟨ho.sorted.sublist (takeWhile_sublist _), h.log.sorted, fun x hx y hy =>
      lt_of_le_of_lt (below_le hx) (h.log.bottom_lt hb.2.2 hy)⟩
  · rw [if_neg hb]
    exact h.log.sorted

variable {v : EVersion}

theorem missing_mergeEntry {m : Missing} {o : ℕ} (h : (mergeEntry m e).missing o = some v) :
    m.missing o = some v ∨ v = e.version := by
  unfold mergeEntry at h
  by_cases hup : e.isUpdate = true
  · rw [if_pos hup, missing_add] at h
    by_cases ho : o = e.oid
    · rw [if_pos ho] at h
      cases hm : m.missing e.oid with
      | none =>
        rw [hm] at h
        exact .inr (some.inj h).symm
      | some u =>
        rw [hm, raise] at h
        have heq := some.inj h
        rcases max_choice u e.version with hmax | hmax
        · exact .inl (by rw [ho, hm, ← heq, hmax])
        · exact .inr (by rw [← heq, hmax])
    · rw [if_neg ho] at h
      exact .inl h
  · rw [if_neg hup, missing_rm] at h
    exact .inl (ite_none_left_eq_some.mp h).2

theorem missing_foldl_le {t : EVersion} : ∀ {es : List Entry} {m : Missing}, (∀ e ∈ es, e.version ≤ t) →
    (∀ o v, m.missing o = some v → v ≤ t) → ∀ o v, (es.foldl mergeEntry m).missing o = some v → v ≤ t
  | [], _, _, hm => hm
  | e :: es, m, hes, hm => by
    obtain ⟨he, hes⟩ := forall_mem_cons.mp hes
    rw [foldl_cons]
    refine missing_foldl_le hes fun o v hv => ?_
    obtain hv | rfl := missing_mergeEntry hv
    · exact hm o v hv
    · exact he

theorem lowerMissing_sound (hH : Sorted H) (h : Consistent H pg) (ho : LogOf H olog) :
    Sound H (lowerMissing pg olog) ∧ ∀ o v, (lowerMissing pg olog).missing o = some v → v ≤ pg.log.top := by
  unfold lowerMissing
  by_cases hb : extendsBottom pg olog
  · rw [if_pos hb]
    refine ⟨h.missing.foldl hH fun e he => ho.known (mem_of_below (mem_lowerReplayed.mp he).1), ?_⟩
    exact missing_foldl_le (fun e he => (below_le (mem_lowerReplayed.mp he).1).trans h.log.le) h.missing_le
  · rw [if_neg hb]
    exact ⟨h.missing, h.missing_le⟩

theorem lt_of_newer (he : e ∈ newer es v) : v < e.version := of_decide_eq_true (mem_filter.mp he).2

theorem lowerMissing_lt (hH : Sorted H) (h : Consistent H pg) (ho : LogOf H olog) (o : ℕ) (w : EVersion)
    (hw : (lowerMissing pg olog).missing o = some w) : ∀ e ∈ newer olog.log pg.log.top, w < e.version := fun _ he =>
  lt_of_le_of_lt ((lowerMissing_sound hH h ho).2 o w hw) (lt_of_newer he)

theorem newer_upper (h : Consistent H pg) : newer (upper pg olog) pg.log.top = newer olog.log pg.log.top := by
  unfold upper
  by_cases hb : extendsBottom pg olog
  · rw [if_pos hb]
    have hsplit := takeWhile_append_dropWhile (p := fun e : Entry => e.version ≤ pg.log.bottom) (l := olog.log)
    conv_rhs => rw [newer, ← hsplit, filter_append]
    rw [filter_eq_nil_iff.mpr fun e he => ?_, nil_append]
    · rfl
    · have := (below_le he).trans h.log.le
      simpa using this
  · rw [if_neg hb]

end lowered

/-! ### The top -/

/-- The entries of the walk down to our top: those that are newer, and the one at the top if it is there. -/
theorem above_cases {t : EVersion} {es : List Entry} (hs : Sorted es) :
    ((∀ a ∈ es, a.version ≠ t) ∧ above t es = (newer es t).reverse) ∨
      ∃ a ∈ es, a.version = t ∧ above t es = (newer es t).reverse ++ [a] := by
  have hwalk : ∀ {l : List Entry}, Descending l →
      ((∀ a ∈ l, a.version ≠ t) ∧ l.takeWhile (fun e => ¬ e.version < t) = l.filter fun e => t < e.version) ∨
        ∃ a ∈ l, a.version = t ∧ l.takeWhile (fun e => ¬ e.version < t) = (l.filter fun e => t < e.version) ++ [a] := by
    intro l
    induction l with
    | nil => exact fun _ => .inl ⟨nofun, rfl⟩
    | cons e l ih =>
      intro hl
      obtain ⟨he, hl⟩ := pairwise_cons.mp hl
      rcases lt_trichotomy e.version t with hlt | heq | hgt
      · have hold : ∀ a ∈ e :: l, a.version < t := forall_mem_cons.mpr ⟨hlt, fun a ha => (he a ha).trans hlt⟩
        refine .inl ⟨fun a ha => (hold a ha).ne, ?_⟩
        rw [takeWhile_cons_of_neg (by simpa using hlt), eq_comm, filter_eq_nil_iff]
        intro a ha
        simpa using (hold a ha).le
      · refine .inr ⟨e, mem_cons_self, heq, ?_⟩
        have hrest : l.takeWhile (fun e => ¬ e.version < t) = [] := by
          cases l with
          | nil => rfl
          | cons x l => exact takeWhile_cons_of_neg (by simpa [heq] using he x mem_cons_self)
        have hnone : (e :: l).filter (fun e => t < e.version) = [] := by
          rw [filter_eq_nil_iff, forall_mem_cons]
          exact ⟨by simp [heq], fun a ha => by simpa [heq] using (he a ha).le⟩
        rw [takeWhile_cons_of_pos (by simp [heq]), hrest, hnone]
        rfl
      · rw [takeWhile_cons_of_pos (by simpa using hgt.le), filter_cons_of_pos (by simpa using hgt)]
        obtain ⟨hne, heq⟩ | ⟨a, ha, hat, heq⟩ := ih hl
        · exact .inl ⟨forall_mem_cons.mpr ⟨hgt.ne', hne⟩, by rw [heq]⟩
        · exact .inr ⟨a, mem_cons_of_mem e ha, hat, by rw [heq]; rfl⟩
  have hrev : (newer es t).reverse = es.reverse.filter fun e => t < e.version := by
    rw [filter_reverse, newer]
  rw [above, hrev]
  obtain ⟨hne, heq⟩ | ⟨a, ha, hat, heq⟩ := hwalk (descending_reverse hs)
  · exact .inl ⟨fun a ha => hne a (mem_reverse.mpr ha), heq⟩
  · exact .inr ⟨a, mem_reverse.mp ha, hat, heq⟩

section divergent

variable {v : EVersion} {ix : Index} {m : Missing} {a : Entry} {l kept : List Entry}

theorem removeDivergent_all :
    removeDivergent v ix m l = .ok l ↔ ∃ e rest, l = e :: rest ∧ number e.version + 1 = number v := by
  constructor
  · intro h
    exact (removeDivergent_spec h).2.1
  · rintro ⟨e, rest, rfl, hn⟩
    rw [removeDivergent, if_pos hn]

theorem removeDivergent_one (hv : number a.version = number v) : removeDivergent v ix m (a :: l) = .ok l ↔
    (∃ o, ix.objects a.oid = some o ∧ o.version ≠ a.version) ∧ m.isMissing a.oid = true ∧
      ∃ e rest, l = e :: rest ∧ number e.version + 1 = number v := by
  rw [removeDivergent, if_neg (by omega), if_neg (by omega)]
  cases ho : ix.objects a.oid with
  | none =>
    refine iff_of_false (fun h => by cases h) fun h => ?_
    obtain ⟨⟨o, ho, -⟩, -⟩ := h
    cases ho
  | some o =>
    simp only [some.injEq, exists_eq_left']
    by_cases hcheck : o.version ≠ a.version ∧ m.isMissing a.oid = true
    · rw [if_pos hcheck, removeDivergent_all]
      exact ⟨fun h => ⟨hcheck.1, hcheck.2, h⟩, fun h => h.2.2⟩
    · rw [if_neg hcheck]
      exact iff_of_false (fun h => by cases h) fun h => hcheck ⟨h.1, h.2.1⟩

end divergent

/-- The first of the new entries comes right after the last of the log. -/
def Joins (log new : List Entry) : Prop :=
  ∃ last first, log.getLast? = some last ∧ new.head? = some first ∧ number last.version + 1 = number first.version

/-- The log ends with `a`, right after the entry before it. -/
def EndsWith (log : List Entry) (a : Entry) : Prop :=
  ∃ init prev, log = init ++ [prev, a] ∧ number prev.version + 1 = number a.version

/-- The PG with what is new in `es` on top. -/
def topped (pg : PG) (olog : Log) (es : List Entry) : PG :=
  { pg with
    log := { pg.log with
      log := pg.log.log ++ newer es pg.log.top, top := olog.top
      ix := (above pg.log.top es).foldl Index.index pg.log.ix }
    missing := (above pg.log.top es).foldl mergeEntry pg.missing, lastUpdate := olog.top }

/-- The new entries of `es` join the log: they do not repeat its top, or they
repeat its last entry, and change its object again and leave it missing. -/
def Joined (pg : PG) (es : List Entry) : Prop :=
  (∀ a ∈ es, a.version ≠ pg.log.top) ∧ Joins pg.log.log (newer es pg.log.top) ∨
    ∃ a ∈ es, a.version = pg.log.top ∧ EndsWith pg.log.log a ∧ (∃ e ∈ newer es pg.log.top, e.oid = a.oid) ∧
      ((above pg.log.top es).foldl mergeEntry pg.missing).isMissing a.oid = true

section top

variable {pg pg' : PG} {olog : Log} {es : List Entry}

variable {first : Entry}

theorem extendTop_ok (hx : extendsTop pg olog) (hf : (above pg.log.top es).getLast? = some first) :
    extendTop pg olog es = .ok pg' ↔ ∃ kept, removeDivergent first.version
        ((above pg.log.top es).foldl Index.index pg.log.ix) ((above pg.log.top es).foldl mergeEntry pg.missing)
        pg.log.log.reverse = .ok kept ∧ pg' = { topped pg olog es with
          log := { (topped pg olog es).log with log := kept.reverse ++ (above pg.log.top es).reverse } } := by
  rw [extendTop, if_pos hx]
  simp only [hf]
  cases removeDivergent first.version ((above pg.log.top es).foldl Index.index pg.log.ix)
      ((above pg.log.top es).foldl mergeEntry pg.missing) pg.log.log.reverse with
  | error a =>
    refine iff_of_false (fun h => by cases h) fun h => ?_
    obtain ⟨kept, hkept, -⟩ := h
    cases hkept
  | ok kept =>
    constructor
    · intro h
      exact ⟨kept, rfl, (Except.ok.inj h).symm⟩
    · rintro ⟨_, h, rfl⟩
      rw [← Except.ok.inj h]
      rfl

theorem topped_eq {kept : List Entry} (h : kept.reverse ++ (above pg.log.top es).reverse =
    pg.log.log ++ newer es pg.log.top) : ({ topped pg olog es with
      log := { (topped pg olog es).log with log := kept.reverse ++ (above pg.log.top es).reverse } } : PG) =
        topped pg olog es := by
  rw [h]
  rfl

theorem extendTop_kept (hx : extendsTop pg olog) (hf : (above pg.log.top es).getLast? = some first) :
    (extendTop pg olog es = .ok pg' ∧ pg'.log.log = pg.log.log ++ newer es pg.log.top) ↔
      pg' = topped pg olog es ∧ ∃ kept, removeDivergent first.version
        ((above pg.log.top es).foldl Index.index pg.log.ix) ((above pg.log.top es).foldl mergeEntry pg.missing)
        pg.log.log.reverse = .ok kept ∧ kept.reverse ++ (above pg.log.top es).reverse =
          pg.log.log ++ newer es pg.log.top := by
  rw [extendTop_ok hx hf]
  constructor
  · rintro ⟨⟨kept, hk, rfl⟩, heq⟩
    exact ⟨topped_eq heq, kept, hk, heq⟩
  · rintro ⟨rfl, kept, hk, heq⟩
    exact ⟨⟨kept, hk, (topped_eq heq).symm⟩, rfl⟩

variable {ix : Index} {m : Missing}

theorem kept_all_iff {v : EVersion} {log new : List Entry}
    (hf : new.head? = some first) (hv : v = first.version) :
    (∃ kept, removeDivergent v ix m log.reverse = .ok kept ∧ kept.reverse ++ new = log ++ new) ↔ Joins log new := by
  have hkept : ∀ kept : List Entry, kept.reverse ++ new = log ++ new ↔ kept = log.reverse := fun kept => by
    rw [append_left_inj, reverse_eq_iff]
  simp only [hkept, exists_eq_right, removeDivergent_all]
  constructor
  · rintro ⟨e, rest, hlog, hn⟩
    exact ⟨e, first, by rw [← head?_reverse, hlog, head?_cons], hf, hv ▸ hn⟩
  · rintro ⟨last, first', hlast, hf', hn⟩
    obtain rfl := some.inj (hf.symm.trans hf')
    obtain ⟨init, rfl⟩ := getLast?_eq_some_iff.mp hlast
    exact ⟨last, init.reverse, by rw [reverse_append]; rfl, hv ▸ hn⟩

variable {a : Entry}

theorem kept_one_iff {log new : List Entry} :
    (∃ kept, removeDivergent a.version ix m log.reverse = .ok kept ∧ kept.reverse ++ a :: new = log ++ new) ↔
      EndsWith log a ∧ (∃ o, ix.objects a.oid = some o ∧ o.version ≠ a.version) ∧ m.isMissing a.oid = true := by
  have hkept : ∀ kept : List Entry, kept.reverse ++ a :: new = log ++ new ↔ log = kept.reverse ++ [a] := fun kept => by
    rw [append_cons, append_left_inj, eq_comm]
  simp only [hkept]
  constructor
  · rintro ⟨kept, hk, rfl⟩
    rw [reverse_append, reverse_reverse, reverse_singleton, singleton_append,
      removeDivergent_one rfl] at hk
    obtain ⟨ho, hm, prev, rest, rfl, hn⟩ := hk
    exact ⟨⟨rest.reverse, prev, by rw [reverse_cons, List.append_assoc]; rfl, hn⟩, ho, hm⟩
  · rintro ⟨⟨init, prev, rfl, hn⟩, ho, hm⟩
    refine ⟨prev :: init.reverse, ?_, by rw [reverse_cons, reverse_reverse, List.append_assoc]; rfl⟩
    rw [reverse_append, reverse_cons, reverse_singleton, singleton_append, cons_append,
      singleton_append, removeDivergent_one rfl]
    exact ⟨ho, hm, prev, init.reverse, rfl, hn⟩

/-- An entry at the top is no longer its object's newest if a newer one changes the object again. -/
theorem indexed_above_iff {es log : List Entry} {t : EVersion} (hat : a.version = t)
    (hle : ∀ e ∈ log, e.version ≤ t) (hix : Indexed ix (above t es ++ log)) (habove : above t es = (newer es t).reverse ++ [a]) :
    (∃ o, ix.objects a.oid = some o ∧ o.version ≠ a.version) ↔ ∃ e ∈ newer es t, e.oid = a.oid := by
  have hmem : ∀ x, x ∈ above t es ++ log → x ∈ newer es t ∨ x.version ≤ t := fun x hx => by
    rw [habove] at hx
    obtain hx | hx := mem_append.mp hx
    · obtain hx | hx := mem_append.mp hx
      · exact .inl (mem_reverse.mp hx)
      · exact .inr (by rw [mem_singleton.mp hx, hat])
    · exact .inr (hle x hx)
  have hmema : a ∈ above t es ++ log := by
    rw [habove]
    exact mem_append_left _ (mem_append_right _ (mem_singleton_self a))
  constructor
  · rintro ⟨o, ho, hne⟩
    obtain ⟨hin, hoid, hmax⟩ := hix.newest _ o ho
    obtain hin | hlow := hmem o hin
    · exact ⟨o, hin, hoid⟩
    · exact absurd (le_antisymm (hlow.trans hat.ge) (hmax a hmema rfl)) hne
  · rintro ⟨e, he, heo⟩
    have hmeme : e ∈ above t es ++ log := by
      rw [habove]
      exact mem_append_left _ (mem_append_left _ (mem_reverse.mpr he))
    obtain ⟨o, ho⟩ := isSome_iff_exists.mp (heo ▸ hix.every e hmeme)
    have hlt : t < e.version := lt_of_newer he
    have hle := (hix.newest _ o ho).2.2 e hmeme heo
    exact ⟨o, ho, hat ▸ (lt_of_lt_of_le hlt hle).ne'⟩

/-- **Extended on top**: our entries and the newer ones, if they join. -/
theorem extendTop_iff (hx : extendsTop pg olog) (hs : Sorted es) (hnew : newer es pg.log.top ≠ [])
    (hle : ∀ e ∈ pg.log.log, e.version ≤ pg.log.top) (hix : Indexed pg.log.ix pg.log.log) :
    (extendTop pg olog es = .ok pg' ∧ pg'.log.log = pg.log.log ++ newer es pg.log.top) ↔
      pg' = topped pg olog es ∧ Joined pg es := by
  obtain ⟨hno, habove⟩ | ⟨a, ha, hat, habove⟩ := above_cases hs
  · obtain ⟨first, rest, hcons⟩ := exists_cons_of_ne_nil hnew
    have hf : (above pg.log.top es).getLast? = some first := by
      rw [habove, getLast?_reverse, hcons, head?_cons]
    have hrev : (above pg.log.top es).reverse = newer es pg.log.top := by rw [habove, reverse_reverse]
    rw [extendTop_kept hx hf, hrev, kept_all_iff (by rw [hcons, head?_cons]) rfl]
    refine and_congr_right fun _ => ⟨fun h => .inl ⟨hno, h⟩, ?_⟩
    rintro (⟨-, h⟩ | ⟨a, ha, hat, -⟩)
    · exact h
    · exact absurd hat (hno a ha)
  · have hf : (above pg.log.top es).getLast? = some a := by rw [habove, getLast?_append, getLast?_singleton]; rfl
    have hrev : (above pg.log.top es).reverse = a :: newer es pg.log.top := by
      rw [habove, reverse_append, reverse_reverse, reverse_singleton, singleton_append]
    have hobj := indexed_above_iff hat hle (hix.foldl_index (above pg.log.top es)) habove
    rw [extendTop_kept hx hf, hrev, kept_one_iff, hobj]
    refine and_congr_right fun _ => ⟨fun h => .inr ⟨a, ha, hat, h⟩, ?_⟩
    rintro (⟨hno, -⟩ | ⟨a', ha', hat', h⟩)
    · exact absurd hat (hno a ha)
    · exact hs.inj ha' ha (hat'.trans hat.symm) ▸ h

end top

/-! ### What is missing afterwards -/

/-- The newest of the object's entries is an update. -/
def LeavesMissing (new : List Entry) (o : ℕ) : Prop :=
  ∃ e ∈ new, e.oid = o ∧ e.isUpdate = true ∧ ∀ x ∈ new, x.oid = o → x.version ≤ e.version

section replay

variable {m : Missing} {new : List Entry} {a e : Entry} {t : EVersion}

theorem getLast_of_newest (hs : Sorted new) (he : e ∈ new) (hmax : ∀ x ∈ new, x.version ≤ e.version) :
    new.getLast? = some e := by
  cases hl : new.getLast? with
  | none =>
    rw [getLast?_eq_none_iff] at hl
    rw [hl] at he
    cases he
  | some y => rw [eq_getLast hs hl he hmax]

theorem mergeEntry_older {v : EVersion} (hm : m.missing a.oid = some v) (hv : a.version < v) : mergeEntry m a = m := by
  have hadd : m.add a.oid a.version = m := by rw [Missing.add, if_pos (by simpa [hm] using hv)]
  have hrm : m.rm a.oid a.version = m := by rw [Missing.rm, if_neg (by simpa [hm] using hv.le)]
  rw [mergeEntry, hadd, hrm, ite_self]

theorem reverse_foldl_newest (hs : Sorted new) (hlow : ∀ o w, m.missing o = some w → ∀ e ∈ new, w < e.version)
    (he : e ∈ new) (hup : e.isUpdate = true) (hmax : ∀ x ∈ new, x.oid = e.oid → x.version ≤ e.version) :
    (new.reverse.foldl mergeEntry m).missing e.oid = some e.version := by
  have hmem : e ∈ new.filter fun x => x.oid = e.oid := mem_filter_oid.mpr ⟨he, rfl⟩
  have hsort : Sorted (new.filter fun x => x.oid = e.oid) := hs.filter _
  have hlast := getLast_of_newest hsort hmem fun x hx =>
    hmax x (mem_filter_oid.mp hx).1 (mem_filter_oid.mp hx).2
  obtain ⟨init, hinit⟩ := getLast?_eq_some_iff.mp hlast
  have hdesc := descending_reverse hsort
  have hspot : spot (new.reverse.foldl mergeEntry m) e.oid = (some e.version, m.loc e.oid) := by
    rw [spot_foldl, filter_reverse]
    rw [hinit, reverse_append, reverse_singleton, singleton_append] at hdesc ⊢
    rw [foldl_cons, enterSpot_update hup fun w hw => hlow _ w hw e he,
      foldl_enterSpot_some _ (pairwise_cons.mp hdesc).1]
    rfl
  exact congrArg Prod.fst hspot

/-- Oldest first, an object with new entries is missing if the newest is an update. -/
theorem foldl_isMissing_iff (hs : Sorted new) (hlow : ∀ o w, m.missing o = some w → ∀ e ∈ new, w < e.version)
    (hloc : ∀ o, m.missing o = none → m.loc o = none) {o : ℕ} (hch : ∃ e ∈ new, e.oid = o) :
    (new.foldl mergeEntry m).isMissing o = true ↔ LeavesMissing new o := by
  have hsort : Sorted (new.filter fun x => x.oid = o) := hs.filter _
  cases hlast : (new.filter fun x => x.oid = o).getLast? with
  | none =>
    obtain ⟨e, he, heo⟩ := hch
    rw [getLast?_eq_none_iff] at hlast
    nomatch hlast ▸ mem_filter_oid.mpr ⟨he, heo⟩
  | some e =>
    have hspot := foldl_oldest_first (s := spot m o) hsort
      (fun w hw x hx => hlow o w hw x (mem_filter_oid.mp hx).1) (hloc o) hlast
    rw [← spot_foldl] at hspot
    have hmiss := congrArg Prod.fst hspot
    have hin := mem_filter_oid.mp (mem_of_getLast? hlast)
    have hmax : ∀ x ∈ new, x.oid = o → x.version ≤ e.version := fun x hx hxo =>
      le_getLast hsort hlast x (mem_filter_oid.mpr ⟨hx, hxo⟩)
    rw [Missing.isMissing, show (new.foldl mergeEntry m).missing o = _ from hmiss]
    by_cases hup : e.isUpdate = true
    · rw [if_pos hup]
      exact ⟨fun _ => ⟨e, hin.1, hin.2, hup, hmax⟩, fun _ => rfl⟩
    · rw [if_neg hup]
      refine ⟨nofun, fun ⟨x, hx, hxo, hxup, hxmax⟩ => absurd ?_ hup⟩
      obtain rfl : x = e := hs.inj hx hin.1 (le_antisymm (hmax x hx hxo) (hxmax e hin.1 hin.2))
      exact hxup

/-- **With the top repeated**: the object of the entry there is changed again
and missing, as oldest first, if its newest entry is an update and without the repetition. -/
theorem repeated_iff (hs : Sorted new) (hlow : ∀ o w, m.missing o = some w → ∀ e ∈ new, w < e.version)
    (hloc : ∀ o, m.missing o = none → m.loc o = none) (ha : ∀ e ∈ new, a.version < e.version) :
    ((∃ e ∈ new, e.oid = a.oid) ∧ ((new.reverse ++ [a]).foldl mergeEntry m).isMissing a.oid = true ∧
        (new.reverse ++ [a]).foldl mergeEntry m = new.foldl mergeEntry m) ↔
      LeavesMissing new a.oid ∧ new.reverse.foldl mergeEntry m = new.foldl mergeEntry m := by
  -- the entry at the top is older than the newest update
  have hone : LeavesMissing new a.oid → (new.reverse ++ [a]).foldl mergeEntry m = new.reverse.foldl mergeEntry m := by
    rintro ⟨e, he, heo, hup, hmax⟩
    have hmiss := reverse_foldl_newest hs hlow he hup (heo ▸ hmax)
    rw [foldl_append, foldl_cons, foldl_nil]
    exact mergeEntry_older (heo ▸ hmiss) (ha e he)
  constructor
  · rintro ⟨hch, hm, heq⟩
    rw [heq] at hm
    have hleaves := (foldl_isMissing_iff hs hlow hloc hch).mp hm
    exact ⟨hleaves, (hone hleaves).symm.trans heq⟩
  · rintro ⟨hleaves, heq⟩
    have hch : ∃ e ∈ new, e.oid = a.oid := by
      obtain ⟨e, he, heo, -⟩ := hleaves
      exact ⟨e, he, heo⟩
    rw [hone hleaves, heq]
    exact ⟨hch, (foldl_isMissing_iff hs hlow hloc hch).mpr hleaves, rfl⟩

end replay

/-! ### The merge -/

/-- The log list is ours, extended on the bottom if the received log goes
further down, and then the received entries newer than our top; they are
replayed oldest first on what is missing. -/
def ExtendsTop (pg : PG) (olog : Log) : Prop :=
  ∃ pg', mergeLog pg olog = .ok pg' ∧ Sorted pg'.log.log ∧
    pg'.log.log = lower pg olog ++ newer olog.log pg.log.top ∧ pg'.log.top = olog.top ∧ pg'.lastUpdate = olog.top ∧
    pg'.missing = (newer olog.log pg.log.top).foldl mergeEntry (lowerMissing pg olog)

/-- What is new joins our log: our top is not repeated, and the first new entry
has the next number; or our last entry is repeated, which has the next number
to the one before it, and its object is changed again and left missing. -/
def TopJoins (pg : PG) (olog : Log) : Prop :=
  (∀ a ∈ upper pg olog, a.version ≠ pg.log.top) ∧ Joins (lower pg olog) (newer olog.log pg.log.top) ∨
    ∃ a ∈ upper pg olog, a.version = pg.log.top ∧ EndsWith (lower pg olog) a ∧
      LeavesMissing (newer olog.log pg.log.top) a.oid

/-- It is not known where the object may be, or forgotten on the bottom: there an entry takes it off. -/
def Unlocated (pg : PG) (olog : Log) (o : ℕ) : Prop :=
  pg.missing.loc o = none ∨ extendsBottom pg olog ∧ ∃ e ∈ lowerReplayed pg olog,
    e.oid = o ∧ e.isUpdate = false ∧ ∀ w ∈ pg.missing.missing o, w < e.version

section merge

variable {H : List Entry} {pg pg' : PG} {olog : Log}

theorem mergeLog_eq (hm : mergeable pg olog) (hu : extendsBottom pg olog → upper pg olog ≠ []) :
    mergeLog pg olog = extendTop (lowered pg olog) olog (upper pg olog) := by
  rw [mergeLog, if_pos hm, extendBottom_eq, if_neg fun h => hu h.1 h.2]
  rfl

theorem lowerMissing_loc (h : Consistent H pg) (ho : LogOf H olog) (o : ℕ) :
    (lowerMissing pg olog).loc o = none ↔ Unlocated pg olog o := by
  unfold lowerMissing Unlocated
  by_cases hb : extendsBottom pg olog
  · have hfold := foldl_loc_iff (s := spot pg.missing o) ((lowerReplayed_sorted pg ho).filter fun e => e.oid = o)
      (h.missing.loc o)
    rw [← spot_foldl] at hfold
    rw [if_pos hb]
    refine hfold.trans (or_congr_right ?_)
    simp only [mem_filter, decide_eq_true_eq, hb, true_and, and_assoc]
    rfl
  · simp only [hb, if_false, false_and, or_false]

theorem upper_sorted (pg : PG) (ho : LogOf H olog) : Sorted (upper pg olog) := by
  unfold upper
  split
  · exact ho.sorted.sublist (dropWhile_sublist _)
  · exact ho.sorted

theorem mergeLog_topped (hpg : Consistent H pg) (ho : LogOf H olog) (hm : mergeable pg olog) (hb : olog.bottom ≤ pg.log.top)
    (ht : pg.log.top < olog.top) : (mergeLog pg olog = .ok pg' ∧ pg'.log.log = lower pg olog ++ newer olog.log pg.log.top) ↔
      pg' = topped (lowered pg olog) olog (upper pg olog) ∧ Joined (lowered pg olog) (upper pg olog) := by
  have hnew : newer (upper pg olog) pg.log.top = newer olog.log pg.log.top := newer_upper hpg
  have hnil : newer (upper pg olog) pg.log.top ≠ [] := hnew ▸ ho.newer_ne_nil hb ht
  have hupper : upper pg olog ≠ [] := fun hcon => hnil (by rw [hcon]; rfl)
  have hx : extendsTop (lowered pg olog) olog := by
    rw [extendsTop, lowered_top]
    exact ⟨ht, hb⟩
  have hle : ∀ e ∈ (lowered pg olog).log.log, e.version ≤ (lowered pg olog).log.top := fun e he => by
    rw [lowered_log] at he
    rw [lowered_top]
    exact lower_le hpg he
  have hix : Indexed (lowered pg olog).log.ix (lowered pg olog).log.log := by
    rw [lowered_log]
    exact lowered_indexed hpg
  have hiff : (extendTop (lowered pg olog) olog (upper pg olog) = .ok pg' ∧ _) ↔ _ :=
    extendTop_iff hx (upper_sorted pg ho) (by rwa [lowered_top]) hle hix
  rwa [← mergeLog_eq hm fun _ => hupper, lowered_top, lowered_log, hnew] at hiff

theorem extendsTop_iff (hpg : Consistent H pg) (ho : LogOf H olog) (hne : pg.log.top ≠ .zero)
    (hb : olog.bottom ≤ pg.log.top) (ht : pg.log.top < olog.top) : ExtendsTop pg olog ↔
      Joined (lowered pg olog) (upper pg olog) ∧ (above pg.log.top (upper pg olog)).foldl mergeEntry (lowerMissing pg olog) =
        (newer olog.log pg.log.top).foldl mergeEntry (lowerMissing pg olog) := by
  have hm : mergeable pg olog := fun hcon => hcon.elim hne fun h => absurd h.1 hb.not_gt
  have hmiss : (topped (lowered pg olog) olog (upper pg olog)).missing =
      (above pg.log.top (upper pg olog)).foldl mergeEntry (lowerMissing pg olog) := by
    rw [topped, lowered_top, lowered_missing]
  have hsort : Sorted (lower pg olog ++ newer olog.log pg.log.top) :=
    pairwise_append.mpr ⟨lower_sorted hpg ho, ho.sorted.filter _, fun x hx y hy =>
      lt_of_le_of_lt (lower_le hpg hx) (lt_of_newer hy)⟩
  constructor
  · rintro ⟨pg', hok, -, hlog, -, -, hreplay⟩
    obtain ⟨rfl, hj⟩ := (mergeLog_topped hpg ho hm hb ht).mp ⟨hok, hlog⟩
    exact ⟨hj, hmiss.symm.trans hreplay⟩
  · rintro ⟨hj, hreplay⟩
    obtain ⟨hok, hlog⟩ := (mergeLog_topped hpg ho hm hb ht).mpr ⟨rfl, hj⟩
    exact ⟨_, hok, hlog ▸ hsort, hlog, rfl, rfl, hmiss.trans hreplay⟩

/-- **Extended on top**, exactly where what is new joins our log and may be replayed newest first. -/
theorem merge_extends_top (hH : Sorted H) (hpg : Consistent H pg) (ho : LogOf H olog) (hne : pg.log.top ≠ EVersion.zero)
    (hb : olog.bottom ≤ pg.log.top) (ht : pg.log.top < olog.top) : ExtendsTop pg olog ↔
      TopJoins pg olog ∧ ∀ o, InOrder (Unlocated pg olog o) ((newer olog.log pg.log.top).filter fun e => e.oid = o) := by
  have hnew : newer (upper pg olog) pg.log.top = newer olog.log pg.log.top := newer_upper hpg
  have hsound := (lowerMissing_sound hH hpg ho).1
  have hlow := lowerMissing_lt hH hpg ho
  have hsort : Sorted (newer olog.log pg.log.top) := ho.sorted.filter _
  have horder := replay_reverse_iff hH hsound hsort (fun e he => ho.known (mem_filter.mp he).1) hlow
  simp only [lowerMissing_loc hpg ho] at horder
  rw [extendsTop_iff hpg ho hne hb ht, Joined, lowered_top, lowered_log, lowered_missing, hnew, ← horder, TopJoins]
  obtain ⟨hno, habove⟩ | ⟨a, ha, hat, habove⟩ := above_cases (upper_sorted pg ho) (t := pg.log.top)
  · rw [habove, hnew]
    refine and_congr_left fun _ => ⟨?_, ?_⟩
    · rintro (h | ⟨a, ha, hat, -⟩)
      · exact .inl h
      · exact absurd hat (hno a ha)
    · rintro (h | ⟨a, ha, hat, -⟩)
      · exact .inl h
      · exact absurd hat (hno a ha)
  · have hiff := repeated_iff hsort hlow hsound.loc (a := a) (fun e he => hat ▸ lt_of_newer he)
    have hone : ∀ {b : Entry}, b ∈ upper pg olog → b.version = pg.log.top → b = a := fun hb hbt =>
      (upper_sorted _ ho).inj hb ha (hbt.trans hat.symm)
    rw [habove, hnew]
    constructor
    · rintro ⟨⟨hno, -⟩ | ⟨b, hb, hbt, hend, hch, hm⟩, heq⟩
      · exact absurd hat (hno a ha)
      · obtain rfl := hone hb hbt
        obtain ⟨hleaves, hrev⟩ := hiff.mp ⟨hch, hm, heq⟩
        exact ⟨.inr ⟨b, hb, hbt, hend, hleaves⟩, hrev⟩
    · rintro ⟨⟨hno, -⟩ | ⟨b, hb, hbt, hend, hleaves⟩, hrev⟩
      · exact absurd hat (hno a ha)
      · obtain rfl := hone hb hbt
        obtain ⟨hch, hm, heq⟩ := hiff.mpr ⟨hleaves, hrev⟩
        exact ⟨.inr ⟨b, hb, hbt, hend, hch, hm⟩, heq⟩

/-- One entry on top of one. -/
theorem merge_extends_top_one : ExtendsTop
    (PG.whole (cut [⟨⟨.modify, 5, toLex (1, 1)⟩, 21⟩, ⟨⟨.modify, 6, toLex (1, 2)⟩, 22⟩] EVersion.zero (toLex (1, 1))))
    (cut [⟨⟨.modify, 5, toLex (1, 1)⟩, 21⟩, ⟨⟨.modify, 6, toLex (1, 2)⟩, 22⟩] (toLex (1, 1)) (toLex (1, 2))) := by
  have hH : Sorted [⟨⟨.modify, 5, toLex (1, 1)⟩, 21⟩, ⟨⟨.modify, 6, toLex (1, 2)⟩, 22⟩] := by decide +kernel
  have hpg := consistent_whole (logOf_cut hH (b := .zero) (by decide +kernel) ⟨_, mem_cons_self, rfl⟩)
  have ho := logOf_cut hH (b := toLex (1, 1)) (by decide +kernel) ⟨_, mem_cons_of_mem _ mem_cons_self, rfl⟩
  refine (merge_extends_top hH hpg ho (by decide +kernel) le_rfl (by decide +kernel)).mpr ⟨.inl ⟨by decide +kernel, ?_⟩, fun o => ?_⟩
  · exact ⟨⟨⟨.modify, 5, toLex (1, 1)⟩, 21⟩, ⟨⟨.modify, 6, toLex (1, 2)⟩, 22⟩, by decide +kernel, by decide +kernel, rfl⟩
  · have hall : ∀ e ∈ newer (cut [⟨⟨.modify, 5, toLex (1, 1)⟩, 21⟩, ⟨⟨.modify, 6, toLex (1, 2)⟩, 22⟩] (toLex (1, 1))
        (toLex (1, 2))).log (toLex (1, 1)), e.isUpdate = true := by decide +kernel
    exact .inl fun e he => hall e (mem_filter.mp he).1

/-- The received log repeats the entry at our top: object 5 is not changed
again, so the entry counts as divergent and significant. -/
theorem merge_top_repeated : ¬ ∀ (H : List Entry) (pg : PG) (olog : Log), Sorted H → Consistent H pg → LogOf H olog →
    pg.log.top ≠ EVersion.zero → olog.bottom ≤ pg.log.top → pg.log.top < olog.top → ExtendsTop pg olog := by
  intro hall
  have hH : Sorted [⟨⟨.modify, 5, toLex (1, 1)⟩, 21⟩, ⟨⟨.modify, 6, toLex (1, 2)⟩, 22⟩] := by decide +kernel
  have hpg := consistent_whole (logOf_cut hH (b := .zero) (by decide +kernel) ⟨_, mem_cons_self, rfl⟩)
  have ho := logOf_cut hH (b := .zero) (by decide +kernel) ⟨_, mem_cons_of_mem _ mem_cons_self, rfl⟩
  obtain ⟨pg', hok, -⟩ := hall _ _ _ hH hpg ho (by decide +kernel) (by decide +kernel) (by decide +kernel)
  have hfail : (mergeLog (PG.whole (cut [⟨⟨.modify, 5, toLex (1, 1)⟩, 21⟩, ⟨⟨.modify, 6, toLex (1, 2)⟩, 22⟩]
      .zero (toLex (1, 1)))) (cut [⟨⟨.modify, 5, toLex (1, 1)⟩, 21⟩, ⟨⟨.modify, 6, toLex (1, 2)⟩, 22⟩]
      .zero (toLex (1, 2)))).toOption.isNone = true := by decide +kernel
  rw [hok] at hfail
  cases hfail

end merge

end PGLog
end Osd
end Ceph
