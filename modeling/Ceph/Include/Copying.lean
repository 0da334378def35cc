/-
# What a copy reads and writes

A copy of `len` bytes at `off` returns exactly if no empty segment is at an offset
from `off` to before `off + len` (`Clear`): at an empty segment the loop takes no
byte and does not move. It then reads, or writes, the bytes that are there.
-/
import Ceph.Include.Cells
import Ceph.Include.Encoding

namespace Ceph
namespace Buffer

open List Option
open Wire (Bytes)
open State

variable {n : ℕ}

/-! ### Holes on the way -/

/-- No empty segment at an offset from `a` to before `b`. -/
def Clear (xs : List Node) (a b : ℕ) : Prop := ∀ q ∈ holes 0 (xs.map (·.ptr)), ¬ (a ≤ q ∧ q < b)

theorem clear_empty (xs : List Node) (a : ℕ) : Clear xs a a := fun _ _ h => absurd h.1 (Nat.not_le.mpr h.2)

theorem clear_split {xs : List Node} {a b c : ℕ} (hab : a ≤ b) (hbc : b ≤ c) :
    Clear xs a c ↔ Clear xs a b ∧ Clear xs b c := by
  constructor
  · intro h
    exact ⟨fun q hq hr => h q hq ⟨hr.1, lt_of_lt_of_le hr.2 hbc⟩, fun q hq hr => h q hq ⟨hab.trans hr.1, hr.2⟩⟩
  · rintro ⟨h1, h2⟩ q hq ⟨hge, hlt⟩
    rcases lt_or_ge q b with hqb | hqb
    · exact h1 q hq ⟨hge, hqb⟩
    · exact h2 q hq ⟨hqb, hlt⟩

/-- The holes that a walk has passed are before where it ends. -/
theorem holes_before : ∀ {xs : List Node} {o b q : ℕ} {pre rest : List Node} {r : ℕ},
    skip xs o = some (pre, rest, r) → q ∈ holes b (pre.map (·.ptr)) → q < b + o
  | xs, 0, b, q, pre, rest, r, h, hq => by
    rw [skip_zero] at h
    cases h
    cases hq
  | [], o + 1, b, q, pre, rest, r, h, hq => by cases h
  | x :: xs, o + 1, b, q, pre, rest, r, h, hq => by
    rw [skip] at h
    by_cases hle : x.ptr.len ≤ o + 1
    · rw [if_pos hle] at h
      obtain ⟨⟨pre', rest', r'⟩, h', heq⟩ := map_eq_some_iff.mp h
      cases heq
      rw [map_cons, holes] at hq
      rcases mem_append.mp hq with hq | hq
      · by_cases hz : x.ptr.len = 0
        · rw [if_pos hz] at hq
          have := mem_singleton.mp hq
          omega
        · rw [if_neg hz] at hq
          cases hq
      · have := holes_before h' hq
        omega
    · rw [if_neg hle] at h
      cases h
      cases hq

section walk

variable {xs pre ys : List Node} {x : Node} {o r : ℕ}

theorem holes_split (h : skip xs o = some (pre, x :: ys, r)) : holes 0 (xs.map (·.ptr)) =
    holes 0 (pre.map (·.ptr)) ++ ((if x.ptr.len = 0 then [total pre] else []) ++
      holes (total pre + x.ptr.len) (ys.map (·.ptr))) := by
  have hsum : ((pre.map (·.ptr)).map (·.len)).sum = total pre := by
    rw [List.map_map, total]
    rfl
  rw [(skip_stop h).split, map_append, holes_append, hsum, zero_add, map_cons, holes]

theorem not_clear_of_empty (h : skip xs o = some (pre, x :: ys, r)) (hz : x.ptr.len = 0) {b : ℕ} (hb : o < b) :
    ¬ Clear xs o b := by
  have hstop := skip_stop h
  have hr : r = 0 := by
    rcases hstop.inside with hr | ⟨y, zs, hy, hlt⟩
    · exact hr
    · cases hy
      omega
  have hoff := hstop.off
  intro hc
  refine hc o ?_ ⟨le_refl o, hb⟩
  rw [holes_split h, if_pos hz]
  refine mem_append_right _ (mem_append_left _ ?_)
  rw [mem_singleton]
  omega

theorem clear_step (h : skip xs o = some (pre, x :: ys, r)) {k b : ℕ} (hz : x.ptr.len ≠ 0) (hk : r + k ≤ x.ptr.len)
    (hb : o + k ≤ b) : Clear xs o b ↔ Clear xs (o + k) b := by
  have hstop := skip_stop h
  have hoff := hstop.off
  rw [clear_split (Nat.le_add_right o k) hb]
  refine and_iff_right fun q hq hr => ?_
  rw [holes_split h, if_neg hz] at hq
  rcases mem_append.mp hq with hq | hq
  · have := holes_before h hq
    omega
  · rw [nil_append] at hq
    have := (holes_ge hq).1
    omega

end walk

/-! ### Copy loops -/

/-- The cached position of list `i` is where a walk to `o` ends. -/
def At (s : State n) (i : Fin n) (o : ℕ) : Prop :=
  ∃ w, skip (s.nodes i) o = some w ∧ (s.lists i).lastP = ⟨o, position i w.2.1, w.2.2⟩

section loop

variable {α : Type}

/-- What a loop of copies does with each part, up to `lim`: `R o t a` says what has been
done when the position is at `o`. -/
structure Loop (i : Fin n) (xs : List Node) (lim : ℕ)
    (put : State n → α → Ptr → ℕ → ℕ → Option (State n × α)) (R : ℕ → State n → α → Prop) : Prop where
  sound : ∀ {o t a}, R o t a → Sound t ∧ t.nodes i = xs
  move : ∀ {o t a it}, R o t a → Cached i xs it → R o (setLastP t i it) a
  put : ∀ {o t a pre x ys r k}, R o t a → skip xs o = some (pre, x :: ys, r) → r + k ≤ x.ptr.len → o + k ≤ lim →
    ∃ t' a', put t a x.ptr r k = some (t', a') ∧ R (o + k) t' a' ∧ (t'.lists i).lastP = (t.lists i).lastP

variable {i : Fin n} {xs : List Node} {lim : ℕ} {put : State n → α → Ptr → ℕ → ℕ → Option (State n × α)}
  {R : ℕ → State n → α → Prop}

theorem lastP_setLastP (s : State n) (i : Fin n) (it : Iter n) : ((setLastP s i it).lists i).lastP = it := by
  rw [setLastP_lists, if_pos rfl]

variable {len o r : ℕ} {x : Node}

/-- One round at a segment `x`, up to the copies that are left. -/
theorem copyLoop_round (hl : Loop i xs lim put R) {t : State n} {a : α} (hR : R o t a) (hat : At t i o)
    (hsmall : total xs < 2 ^ 32) {pre ys : List Node} (hw : skip xs o = some (pre, x :: ys, r))
    (hlen : len ≠ 0) (hle : o + len ≤ total xs) (hlim : o + len ≤ lim) (fuel : ℕ) :
    ∃ t' a', copyLoop put i (fuel + 1) t a len =
        copyLoop put i fuel t' a' (len - min len (x.ptr.len - r)) ∧
      R (o + min len (x.ptr.len - r)) t' a' ∧ At t' i (o + min len (x.ptr.len - r)) := by
  obtain ⟨hs, hnodes⟩ := hl.sound hR
  have hstop := skip_stop hw
  have hlast : (t.lists i).lastP = ⟨o, .node x.id, r⟩ := by
    obtain ⟨w, hw', hpos⟩ := hat
    rw [hnodes, hw] at hw'
    cases hw'
    exact hpos
  have htotal : total xs = total pre + (x.ptr.len + total ys) := by rw [hstop.split, total_append, total_cons]
  have hin : r ≤ x.ptr.len := by
    rcases hstop.inside with hz | ⟨y, zs, hy, hlt⟩
    · omega
    · cases hy
      exact le_of_lt hlt
  have husub : usub x.ptr.len r = x.ptr.len - r := usub_eq hin (by omega)
  have hderef : deref t (.node x.id) = some x.ptr := deref_eq hs.tracked.ids (hnodes.trans hstop.split)
  obtain ⟨k, hk⟩ : ∃ k, k = min len (x.ptr.len - r) := ⟨_, rfl⟩
  obtain ⟨t', a', hput, hR', hlast'⟩ := hl.put (k := k) hR hw (by omega) (by omega)
  obtain ⟨hs', hnodes'⟩ := hl.sound hR'
  -- the walk that `advance` makes
  obtain ⟨pre', rest', r', hskip, -⟩ := skip_spec xs (o + k) (by omega)
  have hadd := skip_add k hw
  rw [hskip] at hadd
  obtain ⟨w, hw', heq⟩ := map_eq_some_iff.mp hadd.symm
  simp only [Prod.mk.injEq] at heq
  obtain ⟨hpre, hrest⟩ := heq
  have hadv : advanceLast t' i k = some (setLastP t' i ⟨o + k, position i rest', r'⟩) := by
    rw [advanceLast, hlast', hlast, advance_eq hs'.tracked.ids (hnodes'.trans hstop.split), u32_eq (by omega),
      u32_eq (by omega), hw', map_some, map_some, hrest]
  rw [← hk]
  refine ⟨_, a', ?_, hl.move hR' (cached_position_of_skip (by omega) hskip), ?_⟩
  · rw [copyLoop, if_neg hlen, hlast, hderef, bind_some]
    simp only [husub, ← hk, hput, bind_some, hadv]
  · refine ⟨(pre', rest', r'), ?_, lastP_setLastP t' i _⟩
    rw [nodes_setLastP, hnodes', hskip]

theorem copyLoop_stuck (hl : Loop i xs lim put R) (hsmall : total xs < 2 ^ 32) {pre ys : List Node}
    (hw : skip xs o = some (pre, x :: ys, r)) (hz : x.ptr.len = 0) (hlen : len ≠ 0)
    (hle : o + len ≤ total xs) (hlim : o + len ≤ lim) : ∀ (fuel : ℕ) {t : State n} {a : α}, R o t a → At t i o →
    copyLoop put i fuel t a len = none
  | 0, t, a, hR, hat => by rw [copyLoop, if_neg hlen]
  | fuel + 1, t, a, hR, hat => by
    obtain ⟨t', a', hround, hR', hat'⟩ := copyLoop_round hl hR hat hsmall hw hlen hle hlim fuel
    have hk : min len (x.ptr.len - r) = 0 := by omega
    rw [hk] at hround hR' hat'
    rw [hround]
    exact copyLoop_stuck hl hsmall hw hz hlen hle hlim fuel hR' hat'

theorem copyLoop_spec (hl : Loop i xs lim put R) (hsmall : total xs < 2 ^ 32) : ∀ (fuel len o : ℕ) {t : State n} {a : α},
    len ≤ fuel → o + len ≤ total xs → o + len ≤ lim → R o t a → At t i o →
    (Clear xs o (o + len) → ∃ t' a', copyLoop put i fuel t a len = some (t', a') ∧ R (o + len) t' a') ∧
      (¬ Clear xs o (o + len) → copyLoop put i fuel t a len = none)
  | fuel, 0, o, t, a, _, _, _, hR, _ => by
    have hloop : copyLoop put i fuel t a 0 = some (t, a) := by
      cases fuel <;> rfl
    exact ⟨fun _ => ⟨t, a, hloop, hR⟩, fun h => absurd (clear_empty xs o) h⟩
  | 0, len + 1, o, t, a, hfuel, _, _, _, _ => absurd hfuel (Nat.not_succ_le_zero len)
  | fuel + 1, len + 1, o, t, a, hfuel, hle, hlim, hR, hat => by
    obtain ⟨pre, rest, r, hw, hstop⟩ := skip_spec xs o (by omega)
    have hoff := hstop.off
    cases rest with
    | nil =>
      -- the walk to `o` has passed everything
      have htotal : total xs = total pre := by rw [hstop.split, append_nil]
      rcases hstop.inside with hz | ⟨y, ys, hy, -⟩
      · omega
      · cases hy
    | cons x ys =>
      by_cases hz : x.ptr.len = 0
      · refine ⟨fun hc => absurd hc (not_clear_of_empty hw hz (by omega)), fun _ => ?_⟩
        exact copyLoop_stuck hl hsmall hw hz (Nat.succ_ne_zero len) hle hlim _ hR hat
      · obtain ⟨t', a', hround, hR', hat'⟩ := copyLoop_round hl hR hat hsmall hw (Nat.succ_ne_zero len) hle hlim
          fuel
        have hin : r < x.ptr.len := by
          rcases hstop.inside with hz' | ⟨y, zs, hy, hlt⟩
          · omega
          · cases hy
            exact hlt
        obtain ⟨k, hk⟩ : ∃ k, k = min (len + 1) (x.ptr.len - r) := ⟨_, rfl⟩
        rw [← hk] at hround hR' hat'
        have hsum : o + k + (len + 1 - k) = o + (len + 1) := by omega
        have hrec := copyLoop_spec hl hsmall fuel (len + 1 - k) (o + k) (by omega) (by omega) (by omega) hR' hat'
        rw [hsum] at hrec
        rw [clear_step hw hz (show r + k ≤ x.ptr.len by omega) (show o + k ≤ o + (len + 1) by omega), hround]
        exact hrec

/-- A copy at `off` is the loop from where a walk to `off` ends. -/
theorem iterCopy_eq (put : State n → α → Ptr → ℕ → ℕ → Option (State n × α)) {s : State n} (h : Sound s) (a : α) {off : ℕ} (hoff : off ≤ total (s.nodes i)) :
    ∃ it, Cached i (s.nodes i) it ∧ At (setLastP s i it) i off ∧
      ((toOffset s i off).bind fun t => iterCopy put t i a len) = copyLoop put i len (setLastP s i it) a len := by
  have hsmall := h.small i
  obtain ⟨pre, rest, r, hw, -⟩ := skip_spec (s.nodes i) off hoff
  have hseek : seekLast s i off = some (setLastP s i ⟨off, position i rest, r⟩) := by
    rw [seekLast, seek_eq h.tracked.ids, u32_eq (by omega), hw]
    rfl
  refine ⟨_, cached_position_of_skip (by omega) hw, ⟨(pre, rest, r), ?_, lastP_setLastP s i _⟩, ?_⟩
  · rw [nodes_setLastP, hw]
  · refine (bind_toOffset h.tracked off fun t => copyLoop put i len t a len).trans ?_
    have hself := seekLast_seekLast h.tracked.ids hseek
    rw [hseek, bind_some, hself, bind_some]
    exact ite_self _

end loop

/-! ### Reading -/

/-- List `i` is as it was, and so are all bytes in use. -/
structure Kept (i : Fin n) (s t : State n) : Prop where
  sound : Sound t
  nodes : t.nodes i = s.nodes i
  later : Later s t

variable {i : Fin n} {s : State n}

theorem Kept.refl (h : Sound s) : Kept i s s := ⟨h, rfl, .refl s⟩

variable {t : State n}

theorem Kept.trans {u : State n} (h1 : Kept i s t) (h2 : Kept i t u) : Kept i s u :=
  ⟨h2.sound, h2.nodes.trans h1.nodes, h1.later.trans h2.later⟩

theorem Kept.setLastP (h : Kept i s t) {it : Iter n} (hc : Cached i (s.nodes i) it) :
    Kept i s (setLastP t i it) := by
  refine ⟨h.sound.setLastP (by rwa [h.nodes]), by rw [nodes_setLastP, h.nodes], h.later.trans ?_⟩
  exact .of_same rfl (appendBuffer_setLastP t i it)

theorem Kept.content (hs : Sound s) (h : Kept i s t) : t.content i = s.content i := by
  rw [h.sound.wf.content_cells i, hs.wf.content_cells i, State.ptrs, h.nodes]
  refine map_congr_left fun c hc => h.later.keep c ?_
  obtain ⟨p, hp, hcp⟩ := mem_flatMap.mp hc
  exact (hs.wf.good_ptrs i p hp).used_cells hcp

theorem good_setLastP (i : Fin n) (it : Iter n) {p : Ptr} (h : s.Good p) : (setLastP s i it).Good p := by
  have hlater : Later s (setLastP s i it) := .of_same rfl (appendBuffer_setLastP s i it)
  exact hlater.good p h

section read

variable {s : State n} {i : Fin n}

theorem slice_segment (h : WF s) {o : ℕ} {pre ys : List Node} {x : Node} {r k : ℕ}
    (hw : skip (s.nodes i) o = some (pre, x :: ys, r)) (hk : r + k ≤ x.ptr.len) :
    ((s.content i).drop o).take k = ((x.ptr.bytes s.raws).drop r).take k := by
  have hstop := skip_stop hw
  obtain ⟨hgood, hgoods⟩ := h.split hstop.split
  have hpre := length_bytesOf pre hgood
  have hx := (hgoods x mem_cons_self).length_bytes
  rw [content_eq, hstop.split, bytesOf_append, bytesOf_cons, ← hstop.off, ← hpre, ← drop_drop,
    drop_left]
  exact slice_append_left (by omega)

theorem slice_add {β : Type} (b : List β) {off o k : ℕ} (h : off ≤ o) :
    (b.drop off).take (o + k - off) = (b.drop off).take (o - off) ++ (b.drop o).take k := by
  rw [show o + k - off = o - off + k by omega, take_add, drop_drop, show off + (o - off) = o by omega]

variable {α : Type}

section

variable (put : State n → α → Ptr → ℕ → ℕ → Option (State n × α)) (Q : State n → α → Bytes → Prop) (h : Sound s)
  (hQ : ∀ {t a b it}, Q t a b → Q (setLastP t i it) a b)
  (hput : ∀ {t a b p r k}, Sound t → Q t a b → t.Good p → r + k ≤ p.len →
    ∃ a', put t a p r k = some (t, a') ∧ Q t a' (b ++ ((p.bytes t.raws).drop r).take k))
include put Q h hQ hput

/-- The loop of a copy that appends what it reads to something: `Q t a b` says that `a`
holds the bytes `b`. -/
theorem loop_reads (off : ℕ) :
    Loop i (s.nodes i) (total (s.nodes i)) put fun o t a => off ≤ o ∧ Kept i s t ∧ Q t a (((s.content i).drop off).take (o - off)) where
  sound := fun h => ⟨h.2.1.sound, h.2.1.nodes⟩
  move := fun h hc => ⟨h.1, h.2.1.setLastP hc, hQ h.2.2⟩
  put := by
    rintro o t a pre x ys r k ⟨hoff, hkept, hq⟩ hw hk -
    have hgood : s.Good x.ptr := (h.wf.split (skip_stop hw).split).2 x mem_cons_self
    obtain ⟨a', ha', hq'⟩ := hput hkept.sound hq (hkept.later.good _ hgood) hk
    refine ⟨t, a', ha', ⟨by omega, hkept, ?_⟩, rfl⟩
    rw [hkept.later.bytes_eq hgood, ← slice_segment h.wf hw hk, ← slice_add _ hoff] at hq'
    exact hq'

theorem reads_spec {off len : ℕ} (hle : off + len ≤ (s.content i).length) {a : α}
    (ha : ∀ it, Q (setLastP s i it) a []) :
    (Clear (s.nodes i) off (off + len) → ∃ t a', ((toOffset s i off).bind fun t => iterCopy put t i a len) =
        some (t, a') ∧ Kept i s t ∧ Q t a' (((s.content i).drop off).take len)) ∧
      (¬ Clear (s.nodes i) off (off + len) → ((toOffset s i off).bind fun t => iterCopy put t i a len) = none) := by
  rw [h.wf.length_content i] at hle
  obtain ⟨it, hc, hat, heq⟩ := iterCopy_eq put h a (show off ≤ total (s.nodes i) by omega)
  have hloop := loop_reads put Q h hQ hput off
  have hinit : off ≤ off ∧ Kept i s (setLastP s i it) ∧
      Q (setLastP s i it) a (((s.content i).drop off).take (off - off)) := by
    refine ⟨le_refl _, (Kept.refl h).setLastP hc, ?_⟩
    rw [Nat.sub_self, take_zero]
    exact ha it
  obtain ⟨hsome, hnone⟩ := copyLoop_spec hloop (h.small i) len len off (le_refl len) hle hle hinit hat
  rw [heq]
  refine ⟨fun hclear => ?_, hnone⟩
  obtain ⟨t, a', ht, -, hkept, hq⟩ := hsome hclear
  rw [Nat.add_sub_cancel_left] at hq
  exact ⟨t, a', ht, hkept, hq⟩

end

theorem copyOut_eq {t : State n} (ht : Sound t) {p : Ptr} (hp : t.Good p) {r k : ℕ} (hk : r + k ≤ p.len) :
    p.copyOut t.raws r k = some (((p.bytes t.raws).drop r).take k) := by
  have hlt := hp.lt ht.wf
  rw [Ptr.copyOut, u32_eq (by omega), if_pos ⟨hp.isSome, by omega, hk⟩]

/-- `copy(off, len, string)` -/
theorem copyString_spec (h : Sound s) {off len : ℕ} (hle : off + len ≤ (s.content i).length) :
    (Clear (s.nodes i) off (off + len) → ∃ t, copyString s i off len = some (t, ((s.content i).drop off).take len) ∧
        Kept i s t) ∧
      (¬ Clear (s.nodes i) off (off + len) → copyString s i off len = none) := by
  obtain ⟨hsome, hnone⟩ := reads_spec (i := i) putBytes (fun _ a b => a = b) (a := []) h (fun hq => hq) (by
    rintro t a b p r k ht rfl hp hk
    exact ⟨_, by rw [putBytes, copyOut_eq ht hp hk]; rfl, rfl⟩) hle fun _ => rfl
  refine ⟨fun hc => ?_, hnone⟩
  obtain ⟨t, a, ht, hkept, rfl⟩ := hsome hc
  exact ⟨t, ht, hkept⟩

/-- `copy(off, len, char *)` -/
theorem copy_spec (h : Sound s) {off len : ℕ} (hle : off + len ≤ (s.content i).length) :
    (Clear (s.nodes i) off (off + len) → ∃ t, copy s i off len = some (t, ((s.content i).drop off).take len) ∧
        Kept i s t) ∧
      (¬ Clear (s.nodes i) off (off + len) → copy s i off len = none) := by
  have hlt : (s.content i).length < 2 ^ 32 := h.abs_small i
  have heq : copy s i off len = copyString s i off len := by
    rw [copy, copyWith, h.wf.length_eq h.abs_small, u32_eq (by omega), if_pos hle]
    rfl
  rw [heq]
  exact copyString_spec h hle

/-- `copy(off, len, list)` to a list of the caller's. -/
theorem copySegments_spec (h : Sound s) {off len : ℕ} (hle : off + len ≤ (s.content i).length) :
    (Clear (s.nodes i) off (off + len) → ∃ t xs, copySegments i s off len = some (t, xs) ∧ Kept i s t ∧
        t.GoodNodes xs ∧ bytesOf t.raws xs = ((s.content i).drop off).take len) ∧
      (¬ Clear (s.nodes i) off (off + len) → copySegments i s off len = none) := by
  have hlt : (s.content i).length < 2 ^ 32 := h.abs_small i
  obtain ⟨hsome, hnone⟩ := reads_spec (i := i) putSegments
    (fun t xs b => t.GoodNodes xs ∧ bytesOf t.raws xs = b) (a := []) h
    (fun hq => ⟨fun x hx => good_setLastP i _ (hq.1 x hx), hq.2⟩) (by
      rintro t a b p r k ht ⟨hgood, rfl⟩ hp hk
      obtain ⟨ys, hys, hygood, hbytes, -⟩ := pushRange_spec ht.wf hgood hp hk 0
      exact ⟨ys, by rw [putSegments, hys]; rfl, hygood, hbytes⟩) hle fun _ => ⟨nofun, rfl⟩
  have heq : copySegments i s off len = (toOffset s i off).bind fun t => iterCopy putSegments t i [] len := by
    rw [copySegments, h.wf.length_eq h.abs_small, u32_eq (by omega), if_pos hle]
  rw [heq]
  refine ⟨fun hc => ?_, hnone⟩
  obtain ⟨t, xs, ht, hkept, hgood, hbytes⟩ := hsome hc
  exact ⟨t, xs, ht, hkept, hgood, hbytes⟩

end read

/-! ### Writing -/

/-- The cells `cs`, if they are different ones, now hold `data`; nothing else has
changed. -/
structure Patched (s t : State n) (cs : List Cell) (data : Bytes) : Prop where
  good : ∀ p, s.Good p → t.Good p
  used : ∀ c, s.Used c → t.Used c
  keep : ∀ c, c ∉ cs → read t.raws c = read s.raws c
  wrote : cs.Nodup → cs.map (read t.raws) = data

section write

variable {s : State n} {i : Fin n}

variable {x : Node}

theorem cells_segment (h : WF s) {o : ℕ} {pre ys : List Node} {r k : ℕ}
    (hw : skip (s.nodes i) o = some (pre, x :: ys, r)) (hk : r + k ≤ x.ptr.len) :
    ((cells (s.ptrs i)).drop o).take k = (x.ptr.cells.drop r).take k := by
  have hstop := skip_stop hw
  obtain ⟨hgood, hgoods⟩ := h.split hstop.split
  have hlen : ∀ zs : List Node, s.GoodNodes zs → (cells (zs.map (·.ptr))).length = total zs := by
    intro zs hzs
    have hgoods : ∀ p ∈ zs.map (·.ptr), s.Good p := by
      intro p hp
      obtain ⟨z, hz, rfl⟩ := List.mem_map.mp hp
      exact hzs z hz
    rw [← length_bytesOf zs hzs, ← length_map (read s.raws), ← bytes_of_cells hgoods, flatMap_map]
    rfl
  have hpre := hlen pre hgood
  have hx := (hgoods x mem_cons_self).length_cells
  rw [State.ptrs, hstop.split, map_append, cells_append, map_cons, cells_cons, ← hstop.off, ← hpre,
    ← drop_drop, drop_left, drop_append_of_le_length (by omega),
    take_append_of_le_length (by rw [length_drop]; omega)]

theorem putIn_spec {t : State n} (h : Sound t) (hx : x ∈ t.nodes i) {src : Bytes} {r k : ℕ}
    (hk : r + k ≤ x.ptr.len) (hsrc : k ≤ src.length) :
    ∃ t', putIn t src x.ptr r k = some (t', src.drop k) ∧ Sound t' ∧ t'.lists = t.lists ∧
      Patched t t' ((x.ptr.cells.drop r).take k) (src.take k) := by
  have hgood := h.wf.goodNodes i x hx
  have hlt := hgood.lt h.wf
  obtain ⟨q, b, hq, hb, hle⟩ := hgood.inside
  have hlen : (src.take k).length = k := by
    rw [length_take]
    omega
  have hfit : x.ptr.off + r + (src.take k).length ≤ b.length := by omega
  have hcells : (x.ptr.cells.drop r).take k = (List.range' (x.ptr.off + r) (src.take k).length).map fun a => (q, a) := by
    rw [← cells_sub hk, cells_eq (p := ⟨x.ptr.raw, x.ptr.off + r, k⟩) hq, hlen]
  have hput : putIn t src x.ptr r k =
      some ({ t with raws := t.raws.modify q (patch · (x.ptr.off + r) (src.take k)) }, src.drop k) := by
    rw [putIn, Ptr.copyIn, hq, bind_some, hlen, u32_eq (by omega), if_pos ⟨by omega, hk⟩]
    rfl
  refine ⟨_, hput, ⟨h.wf.patchRaw hb hfit, h.small, ?_⟩, rfl, ⟨?_, ?_, ?_, ?_⟩⟩
  · exact h.tracked.congr (fun _ => rfl) (fun _ => rfl) le_rfl
  · exact fun p hp => hp.patchRaw hb hfit
  · rintro c ⟨e, he, hel, hu⟩
    obtain ⟨e', he', hlen'⟩ := getElem?_patchRaw hb hfit he
    exact ⟨e', he', by omega, hu⟩
  · intro c hc
    rw [hcells] at hc
    refine (read_modify hb hfit c).trans (if_neg ?_)
    rintro ⟨hcq, hge, hlt'⟩
    exact hc (List.mem_map.mpr ⟨c.2, mem_range'_1.mpr ⟨hge, hlt'⟩, by rw [← hcq]⟩)
  · intro _
    rw [hcells]
    exact map_read_modify hb hfit

theorem Patched.append {t u : State n} {cs cs' : List Cell} {d d' : Bytes} (h : Patched s t cs d)
    (h' : Patched t u cs' d') : Patched s u (cs ++ cs') (d ++ d') where
  good p hp := h'.good p (h.good p hp)
  used c hc := h'.used c (h.used c hc)
  keep c hc := by
    rw [mem_append, not_or] at hc
    exact (h'.keep c hc.2).trans (h.keep c hc.1)
  wrote hnodup := by
    obtain ⟨h1, h2, h3⟩ := nodup_append.mp hnodup
    rw [map_append, h'.wrote h2, ← h.wrote h1]
    congr 1
    exact map_congr_left fun c hc => h'.keep c fun hc' => h3 c hc c hc' rfl

/-- What is kept while bytes are copied into list `i`, from `off` to `o`. -/
structure Writing (s : State n) (i : Fin n) (off : ℕ) (d : Bytes) (o : ℕ) (t : State n) (src : Bytes) : Prop where
  le : off ≤ o
  sound : Sound t
  nodes : ∀ j, t.nodes j = s.nodes j
  buffer : ∀ j, t.appendBuffer j = s.appendBuffer j
  src : src = d.drop (o - off)
  patched : Patched s t (((cells (s.ptrs i)).drop off).take (o - off)) (d.take (o - off))

theorem Writing.setLastP {off o : ℕ} {d src : Bytes} {t : State n} {it : Iter n} (h : Writing s i off d o t src)
    (hc : Cached i (s.nodes i) it) : Writing s i off d o (setLastP t i it) src where
  le := h.le
  sound := h.sound.setLastP (by rwa [h.nodes])
  nodes j := (nodes_setLastP t i it j).trans (h.nodes j)
  buffer j := (appendBuffer_setLastP t i it j).trans (h.buffer j)
  src := h.src
  patched := by
    have hlater : Later t (Buffer.setLastP t i it) := .of_same rfl (appendBuffer_setLastP t i it)
    exact ⟨fun p hp => hlater.good p (h.patched.good p hp), fun c hc => hlater.used c (h.patched.used c hc),
      h.patched.keep, h.patched.wrote⟩

/-- The loop of `copy_in`. -/
theorem loop_writes (h : Sound s) (off : ℕ) (d : Bytes) :
    Loop i (s.nodes i) (off + d.length) putIn fun o t src => Writing s i off d o t src where
  sound := fun h => ⟨h.sound, h.nodes i⟩
  move := fun h hc => h.setLastP hc
  put := by
    intro o t src pre x ys r k hR hw hk hlim
    have hoff := hR.le
    have hx : x ∈ t.nodes i := by
      rw [hR.nodes, (skip_stop hw).split]
      exact mem_append_right _ mem_cons_self
    have hsrc : src.length = d.length - (o - off) := by rw [hR.src, length_drop]
    obtain ⟨t', ht', hs', hlists, hpatch⟩ := putIn_spec hR.sound hx hk (show k ≤ src.length by omega)
    refine ⟨t', _, ht', ⟨by omega, hs', fun j => ?_, fun j => ?_, ?_, ?_⟩, by rw [hlists]⟩
    · rw [State.nodes, hlists]
      exact hR.nodes j
    · rw [State.appendBuffer, hlists]
      exact hR.buffer j
    · rw [hR.src, drop_drop]
      congr 1
      omega
    · have happ := hR.patched.append hpatch
      rw [← cells_segment h.wf hw hk, ← slice_add _ hoff, hR.src, ← take_add] at happ
      rwa [show o + k - off = o - off + k by omega] at happ ⊢

/-- `copy_in(off, len, char *)` -/
theorem copyIn_spec (h : Sound s) {off : ℕ} {d : Bytes} (hle : off + d.length ≤ (s.content i).length) :
    (Clear (s.nodes i) off (off + d.length) → ∃ t src, copyIn s i off d = some t ∧
        Writing s i off d (off + d.length) t src) ∧
      (¬ Clear (s.nodes i) off (off + d.length) → copyIn s i off d = none) := by
  have hlt : (s.content i).length < 2 ^ 32 := h.abs_small i
  have hform : copyIn s i off d = ((toOffset s i off).bind fun t => iterCopy putIn t i d d.length).map Prod.fst := by
    rw [copyIn, copyInWith, h.wf.length_eq h.abs_small, u32_eq (by omega), if_pos hle, Option.map_bind]
    rfl
  rw [h.wf.length_content i] at hle
  obtain ⟨it, hc, hat, heq⟩ := iterCopy_eq putIn h d (show off ≤ total (s.nodes i) by omega)
  have hinit : Writing s i off d off (setLastP s i it) d := by
    have hw0 : Writing s i off d off s d := by
      refine ⟨Nat.le_refl _, h, fun _ => rfl, fun _ => rfl, by rw [Nat.sub_self, drop_zero], ?_⟩
      rw [Nat.sub_self, take_zero, take_zero]
      exact ⟨fun _ hp => hp, fun _ hc => hc, fun _ _ => rfl, fun _ => rfl⟩
    exact hw0.setLastP hc
  obtain ⟨hsome, hnone⟩ := copyLoop_spec (loop_writes h off d) (h.small i) d.length d.length off le_rfl hle
    le_rfl hinit hat
  rw [hform, heq]
  refine ⟨fun hclear => ?_, fun hclear => ?_⟩
  · obtain ⟨t, src, ht, hR⟩ := hsome hclear
    exact ⟨t, src, by rw [ht]; rfl, hR⟩
  · rw [hnone hclear]
    rfl

end write

end Buffer
end Ceph
