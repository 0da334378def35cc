/-
# Probing for the end of a file

`Filer::probe_fwd` asks for the sizes of the objects of a range of the file, in
any order, and when all are known looks through them for one that is
shorter than the range would have it. If there is none the next range is probed,
and the objects of the earlier ones are asked for again.

The look is in the order of the objects, and stops at the first short one. That
one holds the end of the file only if it is of the last stripe; and an
object that does not exist is an error, also where the file ends just before it.
`Found` says for which files the end is found, and `Reports` that all orders
of the replies report it.
-/
import Mathlib.Data.List.Dedup
import Ceph.Osdc.Striping

namespace Ceph
namespace Osdc
namespace Probing

open List Option Function

/-- `Probe`. The tids of `ops` are left out; of the stats, those not answered are in `pending`. -/
structure Probe where
  frm : ℕ
  probing : List ObjectExtent
  probingLen : ℕ
  known : ObjectT → ℤ               -- map<object_t, off_t>, with 0 for a new key
  ops : List ObjectT                -- the keys of map<object_t, tid_t>
  -- not in the source
  pending : List ObjectT
  result : Option (ℤ × ℤ)           -- *end, and what onfinish is told

/-- `ceph_file_layout_period`, of 32 bits. -/
def period (l : FileLayout) : ℕ := l.objectSize * l.stripeCount % 2 ^ 32

/-- The buffer extents of the short object are gone through. -/
def findEnd (frm : ℕ) : List (ℕ × ℕ) → ℤ → ℤ
  | [], _ => 0
  | (pos, len) :: bxs, oleft => if oleft ≤ len then frm + pos + oleft else findEnd frm bxs (oleft - len)

/-- "Analyze!" It is 0 if no object is short, and `none` if an assertion fails. -/
def analyze (known : ObjectT → ℤ) (frm : ℕ) : List ObjectExtent → Option ℤ
  | [] => some 0
  | p :: ps =>
    let shouldbe := p.length + p.start
    if known p.oid < 0 then some (-1)
    else if known p.oid ≤ shouldbe then
      if shouldbe = known p.oid then analyze known frm ps
      else some (findEnd frm p.bufferExtents (known p.oid - p.start))
    else none

/-- `*size`, from a stat reply: an error, or a length. -/
def statSize : Option ℕ → ℤ
  | none => -1
  | some len => len

section code

variable (l : FileLayout) (objectLayout : ObjectT → ℕ) (ino rev : ℕ)

/-- `_probe`: all that is in `probing` is asked for. -/
def probe (p : Probe) : Option Probe :=
  (fileToExtents l objectLayout ino p.frm p.probingLen rev).map fun exts =>
    let oids := (p.probing ++ exts).map (·.oid)
    { p with probing := p.probing ++ exts, ops := (p.ops ++ oids).dedup, pending := p.pending ++ oids }

/-- The end of `_probed`, when all replies are there. -/
def conclude (p : Probe) : Option Probe :=
  (analyze p.known p.frm p.probing).bind fun fileEnd =>
    if fileEnd = 0 then probe l objectLayout ino rev { p with frm := p.frm + p.probingLen, probingLen := period l }
    else some { p with result := some (if fileEnd < 0 then -1 else fileEnd, if 0 < fileEnd then 0 else -1) }

/-- `_probed`. -/
def probed (p : Probe) (oid : ObjectT) (size : ℤ) : Option Probe :=
  let p := { p with known := Function.update p.known oid size }
  if oid ∈ p.ops then
    let p := { p with ops := p.ops.erase oid }
    if p.ops ≠ [] then some p else conclude l objectLayout ino rev p
  else none

/-- `handle_osd_stat_reply`, with what the OSD says. At the end the probe is deleted. -/
def reply (size : ObjectT → Option ℕ) (p : Probe) (oid : ObjectT) : Option Probe :=
  if p.result = none then
    probed l objectLayout ino rev { p with pending := p.pending.erase oid } oid (statSize (size oid))
  else none

/-- `probing_len` at the start: "1+ periods". -/
def firstLen (startFrom : ℕ) : ℕ :=
  if startFrom % period l ≠ 0 then period l + (period l - startFrom % period l) else period l

/-- `probe_fwd`; `none` is a division by 0, or `_probe` fails. -/
def probeFwd (startFrom : ℕ) : Option Probe :=
  if 0 < period l then probe l objectLayout ino rev ⟨startFrom, [], firstLen l startFrom, fun _ => 0, [], [], none⟩
  else none

/-- The size of an object of a file of `n` bytes, each written; `none` is one that does not exist. -/
def objectSize (n : ℕ) (oid : ObjectT) : Option ℕ :=
  (((List.range n).filter fun y => objectOf l ino rev y = oid).map fun y => l.xOffset y + 1).max?

/-- Whatever the order of the replies, all are taken, and in the end `n` is reported. -/
inductive Reports (size : ObjectT → Option ℕ) (n : ℕ) : Probe → Prop
  | ended {p : Probe} : p.pending = [] → p.result = some ((n : ℤ), 0) → Reports size n p
  | replied {p : Probe} : p.pending ≠ [] →
    (∀ oid ∈ p.pending, (reply l objectLayout ino rev size p oid).isSome = true) →
      (∀ oid ∈ p.pending, ∀ p', reply l objectLayout ino rev size p oid = some p' → Reports size n p') →
        Reports size n p

/-! ### When the end is found -/

/-- The object has what the range would have. -/
def Full (size : ObjectT → Option ℕ) (ex : ObjectExtent) : Prop := size ex.oid = some (ex.start + ex.length)

/-- The object, of `k` bytes, is short: `n` is just after its last byte, or, if it has
none in the range, at its first byte there. -/
def EndsAt (frm n : ℕ) (ex : ObjectExtent) (k : ℕ) : Prop :=
  k < ex.start + ex.length ∧
    if ex.start < k then (ex.positions[k - 1 - ex.start]?).map (frm + · + 1) = some n
    else (ex.positions.head?).map (frm + · + k) = some (n + ex.start)

/-- The first short object, in the order of the objects, exists and is the one where the file ends. -/
def FoundIn (size : ObjectT → Option ℕ) (frm n : ℕ) : List ObjectExtent → Prop
  | [] => False
  | ex :: exts =>
    Full size ex ∧ FoundIn size frm n exts ∨ ¬ Full size ex ∧ ∃ k, size ex.oid = some k ∧ EndsAt frm n ex k

/-- From a range on: the end is found in it, or all of its objects are full and it is found in the
next one. No object is asked for twice. -/
inductive Found (size : ObjectT → Option ℕ) (n : ℕ) : ℕ → ℕ → List ObjectExtent → Prop
  | here {frm len : ℕ} {old exts : List ObjectExtent} : fileToExtents l objectLayout ino frm len rev = some exts →
      ((old ++ exts).map (·.oid)).Nodup → FoundIn size frm n exts → Found size n frm len old
  | next {frm len : ℕ} {old exts : List ObjectExtent} : fileToExtents l objectLayout ino frm len rev = some exts →
      ((old ++ exts).map (·.oid)).Nodup → (∀ ex ∈ exts, Full size ex) →
        Found size n (frm + len) (period l) (old ++ exts) →
      Found size n frm len old

end code

/-! ### The look through the objects -/

section look

variable {l : FileLayout} {objectLayout : ObjectT → ℕ} {ino rev frm len n : ℕ} {size : ObjectT → Option ℕ}
  {known : ObjectT → ℤ}
  {exts : List ObjectExtent} {ex : ObjectExtent}

theorem findEnd_pos (frm : ℕ) : ∀ (bxs : List (ℕ × ℕ)) (i : ℕ), i < (bxs.flatMap fun b => range' b.1 b.2).length →
    ∃ p, (bxs.flatMap fun b => range' b.1 b.2)[i]? = some p ∧ findEnd frm bxs (i + 1 : ℕ) = (frm + p + 1 : ℕ)
  | [], i, hi => absurd hi (Nat.not_lt_zero i)
  | (pos, k) :: bxs, i, hi => by
    rw [flatMap_cons] at hi ⊢
    rw [length_append, length_range'] at hi
    rcases lt_or_ge i k with hin | hout
    · refine ⟨pos + i, ?_, ?_⟩
      · rw [getElem?_append_left (by rwa [length_range']), getElem?_range' hin, one_mul]
      · rw [findEnd, if_pos (by omega)]
        push_cast
        ring
    · obtain ⟨p, hp, hend⟩ := findEnd_pos frm bxs (i - k) (by omega)
      refine ⟨p, ?_, ?_⟩
      · rw [getElem?_append_right (by rwa [length_range']), length_range']
        exact hp
      · have hleft : ((i + 1 : ℕ) : ℤ) - k = ((i - k + 1 : ℕ) : ℤ) := by omega
        rw [findEnd, if_neg (by omega), hleft, hend]

theorem xOffset_le (l : FileLayout) (y : ℕ) : l.xOffset y ≤ y := by
  have hrow : y / l.stripeUnit / l.stripeCount % l.stripesPerObject ≤ y / l.stripeUnit :=
    (Nat.mod_le _ _).trans (Nat.div_le_self _ _)
  calc y / l.stripeUnit / l.stripeCount % l.stripesPerObject * l.stripeUnit + y % l.stripeUnit
      ≤ y / l.stripeUnit * l.stripeUnit + y % l.stripeUnit := Nat.add_le_add_right (Nat.mul_le_mul_right _ hrow) _
    _ = y := Nat.div_add_mod' y l.stripeUnit

/-- **The end that a short object gives.** -/
theorem findEnd_eq (hm : Mapped l frm ex) (hlen : 0 < ex.length) (hpieces : ∀ b ∈ ex.bufferExtents, 0 < b.2) {k : ℕ}
    (hk : 0 < k)
    (hshort : k < ex.start + ex.length) :
    ∃ e : ℕ, 0 < e ∧ findEnd frm ex.bufferExtents (k - ex.start) = e ∧ ∀ n, EndsAt frm n ex k ↔ n = e := by
  have hcount := hm.length_positions
  by_cases hin : ex.start < k
  · obtain ⟨p, hp, hend⟩ := findEnd_pos frm ex.bufferExtents (k - 1 - ex.start)
      (by change _ < ex.positions.length; omega)
    have hleft : (k : ℤ) - ex.start = (k - 1 - ex.start + 1 : ℕ) := by omega
    refine ⟨frm + p + 1, Nat.succ_pos _, hleft ▸ hend, fun n => ?_⟩
    have hp' : ex.positions[k - 1 - ex.start]? = some p := hp
    rw [EndsAt, if_pos hin, hp', map_some, some_inj, and_iff_right hshort, eq_comm]
  · obtain ⟨b, bxs, hbuf⟩ : ∃ b bxs, ex.bufferExtents = b :: bxs := by
      refine exists_cons_of_ne_nil fun hnil => ?_
      rw [ObjectExtent.positions, hnil] at hcount
      exact absurd hcount (by simpa using hlen.ne)
    have hb : 0 < b.2 := hpieces b (hbuf ▸ mem_cons_self)
    have hpos : ex.positions =
        b.1 :: (range' (b.1 + 1) (b.2 - 1) ++ bxs.flatMap fun b => range' b.1 b.2) := by
      obtain ⟨j, hj⟩ : ∃ j, b.2 = j + 1 := ⟨b.2 - 1, by omega⟩
      rw [ObjectExtent.positions, hbuf, flatMap_cons, hj, range'_succ]
      rfl
    -- what is before in the object is before in the file
    have hstart : ex.start ≤ frm + b.1 := by
      have h0 := (hm.getElem (i := 0) (by omega)).2
      simp only [hpos, getElem_cons_zero, add_zero] at h0
      exact h0 ▸ xOffset_le l _
    refine ⟨frm + b.1 + k - ex.start, by omega, ?_, fun n => ?_⟩
    · rw [hbuf, findEnd, if_pos (by omega)]
      omega
    · rw [EndsAt, if_neg hin, hpos, head?_cons, map_some, some_inj, and_iff_right hshort]
      omega

theorem analyze_full (frm : ℕ) (hknown : ∀ e ∈ exts, known e.oid = statSize (size e.oid))
    (hfull : ∀ e ∈ exts, Full size e)
    (rest : List ObjectExtent) : analyze known frm (exts ++ rest) = analyze known frm rest := by
  induction exts with
  | nil => rfl
  | cons e exts ih =>
    obtain ⟨hk, hknown⟩ := forall_mem_cons.mp hknown
    obtain ⟨hf, hfull⟩ := forall_mem_cons.mp hfull
    have hsize : known e.oid = (e.length + e.start : ℕ) := by rw [hk, hf, add_comm]; rfl
    rw [cons_append, analyze, hsize, if_neg (by omega), if_pos (by push_cast; omega), if_pos (by push_cast; omega)]
    exact ih hknown hfull

/-- **What the look gives** where an object is short. -/
theorem analyze_first (frm : ℕ) (hpos : ∀ o k, size o = some k → 0 < k)
    (hknown : ∀ e ∈ exts, known e.oid = statSize (size e.oid))
    (hexts : ∀ e ∈ exts, Mapped l frm e ∧ 0 < e.length ∧ ∀ b ∈ e.bufferExtents, 0 < b.2)
    (hshort : ¬ ∀ e ∈ exts, Full size e) :
    analyze known frm exts ≠ some 0 ∧ ∀ n : ℕ, analyze known frm exts = some (n : ℤ) ↔ FoundIn size frm n exts := by
  induction exts with
  | nil => exact absurd nofun hshort
  | cons e exts ih =>
    obtain ⟨hk, hknown⟩ := forall_mem_cons.mp hknown
    obtain ⟨⟨hm, hlen, hpieces⟩, hexts⟩ := forall_mem_cons.mp hexts
    by_cases hf : Full size e
    · have hrest : ¬ ∀ e ∈ exts, Full size e := fun hall => hshort (forall_mem_cons.mpr ⟨hf, hall⟩)
      have hpass := analyze_full frm (forall_mem_singleton.mpr hk) (forall_mem_singleton.mpr hf) exts
      rw [singleton_append] at hpass
      rw [hpass]
      obtain ⟨hne, hiff⟩ := ih hknown hexts hrest
      refine ⟨hne, fun n => (hiff n).trans ?_⟩
      rw [FoundIn, and_iff_right hf]
      exact (or_iff_left fun h => h.1 hf).symm
    · cases hs : size e.oid with
      | none =>
        have herr : analyze known frm (e :: exts) = some (-1) := by
          rw [analyze, hk, hs]
          exact if_pos (by decide)
        rw [herr]
        refine ⟨by decide, fun n => iff_of_false (by simp) ?_⟩
        rintro (⟨hf', -⟩ | ⟨-, k, hk', -⟩)
        · exact hf hf'
        · rw [hs] at hk'
          cases hk'
      | some k =>
        have hne : k ≠ e.start + e.length := fun heq => hf (hs.trans (congrArg some heq))
        have hiff : ∀ n, FoundIn size frm n (e :: exts) ↔ EndsAt frm n e k := fun n => by
          rw [FoundIn, or_iff_right fun h => hf h.1, and_iff_right hf, hs]
          simp
        simp only [hiff]
        rcases lt_or_ge k (e.start + e.length) with hlt | hge
        · obtain ⟨fileEnd, hpos', hfind, hends⟩ := findEnd_eq hm hlen hpieces (hpos _ _ hs) hlt
          have hfound : analyze known frm (e :: exts) = some (fileEnd : ℤ) := by
            rw [analyze, hk, hs, ← hfind]
            change (if (k : ℤ) < 0 then _ else if (k : ℤ) ≤ ((e.length : ℤ) + e.start) then _ else _) = _
            rw [if_neg (by omega), if_pos (by omega)]
            exact if_neg (by change ¬ ((e.length : ℤ) + e.start = (k : ℤ)); omega)
          rw [hfound]
          refine ⟨fun h => ?_, fun n => ?_⟩
          · have := some.inj h
            omega
          · rw [hends, some_inj]
            omega
        · have hfails : analyze known frm (e :: exts) = none := by
            rw [analyze, hk, hs]
            change (if (k : ℤ) < 0 then _ else if (k : ℤ) ≤ ((e.length : ℤ) + e.start) then _ else _) = _
            rw [if_neg (by omega), if_neg (by omega)]
          rw [hfails]
          refine ⟨nofun, fun n => iff_of_false nofun fun h => ?_⟩
          have := h.1
          omega

end look

/-! ### The replies -/

section replies

variable {l : FileLayout} {objectLayout : ObjectT → ℕ} {ino rev n : ℕ} {size : ObjectT → Option ℕ}
  {p p' : Probe} {oid : ObjectT}

theorem reports_of_nil (hnil : p.pending = []) :
    Reports l objectLayout ino rev size n p ↔ p.result = some ((n : ℤ), 0) := by
  constructor
  · rintro (⟨-, hres⟩ | ⟨hne, -, -⟩)
    · exact hres
    · exact absurd hnil hne
  · exact .ended hnil

theorem reports_of_pending (hne : p.pending ≠ []) : Reports l objectLayout ino rev size n p ↔
    ∀ oid ∈ p.pending, ∃ p', reply l objectLayout ino rev size p oid = some p' ∧
      Reports l objectLayout ino rev size n p' := by
  constructor
  · rintro (⟨hnil, -⟩ | ⟨-, hsome, hall⟩)
    · exact absurd hnil hne
    · intro oid hoid
      obtain ⟨p', hp'⟩ := isSome_iff_exists.mp (hsome oid hoid)
      exact ⟨p', hp', hall oid hoid p' hp'⟩
  · intro h
    refine .replied hne (fun oid hoid => ?_) fun oid hoid p' hp' => ?_
    · obtain ⟨p', hp', -⟩ := h oid hoid
      rw [hp']
      rfl
    · obtain ⟨p'', hp'', hrep⟩ := h oid hoid
      obtain rfl : p' = p'' := some.inj (hp'.symm.trans hp'')
      exact hrep

theorem not_reports_stray (hoid : oid ∈ p.pending) (h : p.result ≠ none ∨ oid ∉ p.ops) :
    ¬ Reports l objectLayout ino rev size n p := by
  intro hrep
  obtain ⟨p', hp', -⟩ := (reports_of_pending (ne_nil_of_mem hoid)).mp hrep oid hoid
  rw [reply] at hp'
  split_ifs at hp' with hres
  rw [probed] at hp'
  rcases h with h | h
  · exact h hres
  · rw [if_neg h] at hp'
    cases hp'

theorem reply_more (hres : p.result = none) (hoid : oid ∈ p.ops) (hmore : p.ops.erase oid ≠ []) :
    reply l objectLayout ino rev size p oid = some { p with
      pending := p.pending.erase oid
      known := update p.known oid (statSize (size oid))
      ops := p.ops.erase oid } := by
  rw [reply, if_pos hres, probed]
  rw [if_pos hoid, if_pos hmore]

theorem reply_last (hres : p.result = none) (hoid : oid ∈ p.ops) (hlast : p.ops.erase oid = []) :
    reply l objectLayout ino rev size p oid = conclude l objectLayout ino rev { p with
      pending := p.pending.erase oid
      known := update p.known oid (statSize (size oid))
      ops := [] } := by
  rw [reply, if_pos hres, probed]
  rw [if_pos hoid, hlast, if_neg (by simp)]

/-- **The order of the replies does not matter** if no object is asked for twice. -/
theorem reports_replies : ∀ {p : Probe}, p.result = none → p.ops = p.pending → p.pending.Nodup → p.pending ≠ [] →
    (Reports l objectLayout ino rev size n p ↔ ∃ p', conclude l objectLayout ino rev { p with
      pending := []
      known := fun o => if o ∈ p.pending then statSize (size o) else p.known o
      ops := [] } = some p' ∧ Reports l objectLayout ino rev size n p') := by
  intro p
  induction hk : p.pending.length using Nat.strong_induction_on generalizing p with
  | _ k ih =>
    subst hk
    intro hres hops hnodup hne
    have hone : ∀ oid ∈ p.pending, ((∃ p', reply l objectLayout ino rev size p oid = some p' ∧
        Reports l objectLayout ino rev size n p') ↔ ∃ p', conclude l objectLayout ino rev { p with
          pending := []
          known := fun o => if o ∈ p.pending then statSize (size o) else p.known o
          ops := [] } = some p' ∧ Reports l objectLayout ino rev size n p') := by
      intro oid hoid
      have hin : oid ∈ p.ops := hops ▸ hoid
      -- what is known in the end is the same
      have hknown : (fun o => if o ∈ p.pending.erase oid then statSize (size o)
          else update p.known oid (statSize (size oid)) o) =
            fun o => if o ∈ p.pending then statSize (size o) else p.known o := by
        funext o
        by_cases ho : o = oid
        · subst ho
          rw [if_neg (hnodup.not_mem_erase), if_pos hoid, update_self]
        · rw [update_of_ne ho]
          simp only [mem_erase_of_ne ho]
      by_cases hlast : p.ops.erase oid = []
      · have hpend : p.pending.erase oid = [] := hops ▸ hlast
        rw [reply_last hres hin hlast, hpend]
        rw [hpend] at hknown
        simp only [not_mem_nil, if_false] at hknown
        rw [← hknown]
      · rw [reply_more hres hin hlast]
        have hpend : p.pending.erase oid ≠ [] := hops ▸ hlast
        have hlt : (p.pending.erase oid).length < p.pending.length := by
          rw [length_erase_of_mem hoid]
          exact Nat.sub_lt (length_pos_of_mem hoid) one_pos
        have hrec := ih _ hlt (p := { p with
          pending := p.pending.erase oid
          known := update p.known oid (statSize (size oid))
          ops := p.ops.erase oid }) rfl hres (by rw [hops]) (hnodup.erase oid) hpend
        rw [hknown] at hrec
        rw [← hrec]
        simp
    rw [reports_of_pending hne]
    constructor
    · intro h
      obtain ⟨oid, hoid⟩ := exists_mem_of_ne_nil _ hne
      exact (hone oid hoid).mp (h oid hoid)
    · exact fun h oid hoid => (hone oid hoid).mpr h

/-- **An object asked for twice** in one probe: its two replies may come one after the other. -/
theorem not_reports_twice (h : Reports l objectLayout ino rev size n p) : ∀ {oid : ObjectT}, p.result = none →
    2 ≤ p.pending.count oid → oid ∈ p.ops → p.ops.Nodup → oid ∈ p.probing.map (·.oid) → False := by
  induction h with
  | ended hnil _ =>
    intro oid hres htwice
    rw [hnil] at htwice
    simp at htwice
  | @replied p hne hsome hrep ih =>
    intro oid hres htwice hop hnodup hprobing
    have hoid : oid ∈ p.pending := count_pos_iff.mp (by omega)
    have hagain : oid ∈ p.pending.erase oid := count_pos_iff.mp (by rw [count_erase_self]; omega)
    obtain ⟨p', hp'⟩ := isSome_iff_exists.mp (hsome oid hoid)
    have hp'rep := hrep oid hoid p' hp'
    by_cases hlast : p.ops.erase oid = []
    · have hconc := hp'
      rw [reply_last hres hop hlast, conclude] at hconc
      obtain ⟨fileEnd, -, hconc⟩ := bind_eq_some_iff.mp hconc
      split_ifs at hconc with h0
      · obtain ⟨exts, -, rfl⟩ := map_eq_some_iff.mp hconc
        have hin : oid ∈ (p.probing ++ exts).map (·.oid) := by
          rw [map_append]
          exact mem_append_left _ hprobing
        refine @ih oid hoid _ hp' oid hres ?_ ?_ ?_ hin
        · have h1 := count_pos_iff.mpr hagain
          have h2 := count_pos_iff.mpr hin
          change 2 ≤ (p.pending.erase oid ++ (p.probing ++ exts).map (·.oid)).count oid
          rw [count_append]
          omega
        · exact mem_dedup.mpr (mem_append_right _ hin)
        · exact nodup_dedup _
      all_goals
        cases hconc
        exact not_reports_stray hagain (.inl (by simp)) hp'rep
    · rw [reply_more hres hop hlast] at hp'
      cases hp'
      exact not_reports_stray hagain (.inr (hnodup.not_mem_erase)) hp'rep

end replies

/-! ### Round after round -/

section rounds

variable {l : FileLayout} {objectLayout : ObjectT → ℕ} {ino rev n frm len : ℕ} {size : ObjectT → Option ℕ}
  {old exts : List ObjectExtent} {known : ObjectT → ℤ}

section

variable (hexts : fileToExtents l objectLayout ino frm len rev = some exts) (hnodup : ((old ++ exts).map (·.oid)).Nodup)
include hexts hnodup

theorem found_iff_next (hfull : ∀ ex ∈ exts, Full size ex) :
    Found l objectLayout ino rev size n frm len old ↔
      Found l objectLayout ino rev size n (frm + len) (period l) (old ++ exts) := by
  have hnot : ∀ {es : List ObjectExtent}, (∀ ex ∈ es, Full size ex) → ¬ FoundIn size frm n es := by
    intro es
    induction es with
    | nil => exact fun _ => id
    | cons e es ih =>
      intro hall
      obtain ⟨he, hall⟩ := forall_mem_cons.mp hall
      rintro (⟨-, h⟩ | ⟨hne, -⟩)
      · exact ih hall h
      · exact hne he
  refine ⟨fun h => ?_, .next hexts hnodup hfull⟩
  cases h with
  | here hexts' _ hin =>
    obtain rfl := some.inj (hexts.symm.trans hexts')
    exact absurd hin (hnot hfull)
  | next hexts' _ _ hnext =>
    obtain rfl := some.inj (hexts.symm.trans hexts')
    exact hnext

theorem found_iff_here (hshort : ¬ ∀ ex ∈ exts, Full size ex) :
    Found l objectLayout ino rev size n frm len old ↔ FoundIn size frm n exts := by
  refine ⟨fun h => ?_, .here hexts hnodup⟩
  cases h with
  | here hexts' _ hin =>
    obtain rfl := some.inj (hexts.symm.trans hexts')
    exact hin
  | next hexts' _ hfull _ =>
    obtain rfl := some.inj (hexts.symm.trans hexts')
    exact absurd hfull hshort

end

theorem Found.extents (h : Found l objectLayout ino rev size n frm len old) :
    ∃ exts, fileToExtents l objectLayout ino frm len rev = some exts ∧ ((old ++ exts).map (·.oid)).Nodup := by
  cases h with
  | here hexts hnodup _ => exact ⟨_, hexts, hnodup⟩
  | next hexts hnodup _ _ => exact ⟨_, hexts, hnodup⟩

/-- **The end is reported** from a range on exactly if it is found. -/
theorem reports_iff_found (hpos : ∀ o k, size o = some k → 0 < k) (hperiod : 0 < period l) :
    ∀ {frm len : ℕ} {old : List ObjectExtent} {known : ObjectT → ℤ}, 0 < len → len < 2 ^ 63 → (∀ e ∈ old, Full size e) →
      ((∃ p, probe l objectLayout ino rev ⟨frm, old, len, known, [], [], none⟩ = some p ∧
        Reports l objectLayout ino rev size n p) ↔ Found l objectLayout ino rev size n frm len old) := by
  intro frm
  induction hd : 2 ^ 63 - frm using Nat.strong_induction_on generalizing frm with
  | _ d ih =>
    intro len old known hlen hlen63 hold
    cases hexts : fileToExtents l objectLayout ino frm len rev with
    | none =>
      refine iff_of_false ?_ fun h => ?_
      · rintro ⟨p, hp, -⟩
        rw [probe, hexts] at hp
        cases hp
      · obtain ⟨exts, hexts', -⟩ := h.extents
        rw [hexts] at hexts'
        cases hexts'
    | some exts =>
      have hend := fileToExtents_lt hlen hlen63 hexts
      have hw := fileToExtents_walked hexts
      rw [leftOf, if_pos hlen63] at hw
      have hne : exts ≠ [] := by
        rintro rfl
        exact absurd hw.perm.length_eq (by simpa using hlen.ne)
      obtain ⟨oids, hoids⟩ : ∃ oids, oids = (old ++ exts).map (·.oid) := ⟨_, rfl⟩
      have hprobe : probe l objectLayout ino rev ⟨frm, old, len, known, [], [], none⟩ =
          some ⟨frm, old ++ exts, len, known, oids.dedup, oids, none⟩ := by
        rw [probe, hexts, hoids]
        rfl
      simp only [hprobe, some.injEq, exists_eq_left']
      by_cases hnodup : oids.Nodup
      · obtain ⟨known', hknown'⟩ : ∃ known', known' = fun o => if o ∈ oids then statSize (size o) else known o :=
          ⟨_, rfl⟩
        have hall : ∀ e ∈ old ++ exts, known' e.oid = statSize (size e.oid) := fun e he => by
          rw [hknown']
          exact if_pos (hoids ▸ mem_map_of_mem he)
        have hoids0 : oids ≠ [] := by
          rw [hoids]
          simpa using fun _ => hne
        rw [hnodup.dedup, reports_replies rfl rfl hnodup hoids0]
        simp only [← hknown', conclude]
        rw [analyze_full frm (fun e he => hall e (mem_append_left _ he)) hold]
        by_cases hfull : ∀ ex ∈ exts, Full size ex
        · have hzero := analyze_full frm (fun e he => hall e (mem_append_right _ he)) hfull []
          rw [append_nil] at hzero
          rw [found_iff_next hexts (hoids ▸ hnodup) hfull, hzero]
          refine ih _ (by omega) rfl hperiod ?_ (forall_mem_append.mpr ⟨hold, hfull⟩)
          exact (Nat.mod_lt _ (by decide)).trans (by decide : 2 ^ 32 < 2 ^ 63)
        · obtain ⟨hnot0, hfirst⟩ := analyze_first frm hpos
            (fun e he => hall e (mem_append_right _ he))
            (fun e he => ⟨hw.mapped e he, hw.pos e he, hw.pieces e he⟩) hfull
          rw [found_iff_here hexts (hoids ▸ hnodup) hfull, ← hfirst n]
          cases hend' : analyze known' frm exts with
          | none => simp
          | some fileEnd =>
            rw [hend'] at hnot0
            have hnot0 : fileEnd ≠ 0 := fun h => hnot0 (congrArg some h)
            simp only [bind_some, if_neg hnot0, some.injEq, exists_eq_left']
            rw [reports_of_nil rfl]
            rcases lt_or_gt_of_ne hnot0 with hneg | hpos'
            · rw [if_pos hneg, if_neg (by omega)]
              exact iff_of_false (fun h => by simp at h) (by omega)
            · rw [if_neg (by omega), if_pos hpos']
              simp
      · refine iff_of_false (fun hrep => ?_) fun h => ?_
        · obtain ⟨oid, htwice⟩ : ∃ oid, 2 ≤ oids.count oid := by
            by_contra hall
            refine hnodup (nodup_iff_count_le_one.mpr fun oid => ?_)
            have := not_exists.mp hall oid
            omega
          have hin : oid ∈ oids := count_pos_iff.mp (by omega)
          exact not_reports_twice hrep rfl htwice (mem_dedup.mpr hin) (nodup_dedup _) (hoids ▸ hin)
        · obtain ⟨exts', hexts', hnodup'⟩ := h.extents
          obtain rfl := some.inj (hexts.symm.trans hexts')
          exact hnodup (hoids ▸ hnodup')

end rounds

theorem objectSize_pos {l : FileLayout} {ino rev n : ℕ} (oid : ObjectT) (k : ℕ)
    (h : objectSize l ino rev n oid = some k) :
    0 < k := by
  obtain ⟨y, -, rfl⟩ := mem_map.mp (max?_mem h)
  exact Nat.succ_pos _

theorem firstLen_bounds {l : FileLayout} (startFrom : ℕ) (hperiod : 0 < period l) :
    0 < firstLen l startFrom ∧ firstLen l startFrom < 2 ^ 63 := by
  have hlt : period l < 2 ^ 32 := Nat.mod_lt _ (by decide)
  unfold firstLen
  split <;> omega

/-- **The end of the log is found** exactly for the files and layouts of `Found`. -/
theorem probe_fwd_finds (l : FileLayout) (objectLayout : ObjectT → ℕ) (ino rev startFrom n : ℕ) :
    (∃ p, probeFwd l objectLayout ino rev startFrom = some p ∧
      Reports l objectLayout ino rev (objectSize l ino rev n) n p) ↔
        0 < period l ∧ Found l objectLayout ino rev (objectSize l ino rev n) n startFrom (firstLen l startFrom) [] := by
  rw [probeFwd]
  by_cases hperiod : 0 < period l
  · obtain ⟨hlen, hlen63⟩ := firstLen_bounds startFrom hperiod
    rw [if_pos hperiod, reports_iff_found objectSize_pos hperiod hlen hlen63 (forall_mem_nil _),
      and_iff_right hperiod]
  · rw [if_neg hperiod]
    exact iff_of_false nofun fun h => hperiod h.1

theorem fileToExtents_stripes : fileToExtents ⟨2, 2, 4⟩ (·.bno) 1 0 8 0 =
      some [⟨⟨1, 0, 0⟩, 0, 4, 0, [(0, 2), (4, 2)]⟩, ⟨⟨1, 1, 0⟩, 0, 4, 1, [(2, 2), (6, 2)]⟩] ∧
    fileToExtents ⟨2, 2, 4⟩ (·.bno) 1 8 8 0 =
      some [⟨⟨1, 2, 0⟩, 0, 4, 2, [(0, 2), (4, 2)]⟩, ⟨⟨1, 3, 0⟩, 0, 4, 3, [(2, 2), (6, 2)]⟩] := by
  constructor
  · rw [fileToExtents, if_pos (by decide), fileLoop_step (by decide) (by decide) (by decide) rfl,
      fileLoop_step (by decide) (by decide) (by decide) rfl, fileLoop_step (by decide) (by decide) (by decide) rfl,
      fileLoop_step (by decide) (by decide) (by decide) rfl]
    change Option.map _ (fileLoop _ _ 1 0 0 8 0 _) = _
    rw [fileLoop_zero]
    rfl
  · rw [fileToExtents, if_pos (by decide), fileLoop_step (by decide) (by decide) (by decide) rfl,
      fileLoop_step (by decide) (by decide) (by decide) rfl, fileLoop_step (by decide) (by decide) (by decide) rfl,
      fileLoop_step (by decide) (by decide) (by decide) rfl]
    change Option.map _ (fileLoop _ _ 1 0 8 16 0 _) = _
    rw [fileLoop_zero]
    rfl

example : Found ⟨2, 2, 4⟩ (·.bno) 1 0 (objectSize ⟨2, 2, 4⟩ 1 0 5) 5 0 8 [] :=
  .here fileToExtents_stripes.1 (by decide) (.inr ⟨by unfold Full; decide, 3, by decide, by decide, by decide⟩)

/-- Of 3 bytes, the first object has 2, and is short: the end is reported to be 2. And
where 8 bytes end, the next object does not exist, which is an error. -/
theorem probe_fwd_misses :
    (¬ ∃ p, probeFwd ⟨2, 2, 4⟩ (·.bno) 1 0 0 = some p ∧
      Reports ⟨2, 2, 4⟩ (·.bno) 1 0 (objectSize ⟨2, 2, 4⟩ 1 0 3) 3 p) ∧
      ¬ ∃ p, probeFwd ⟨2, 2, 4⟩ (·.bno) 1 0 0 = some p ∧
        Reports ⟨2, 2, 4⟩ (·.bno) 1 0 (objectSize ⟨2, 2, 4⟩ 1 0 8) 8 p := by
  have hfound : ∀ n, (∃ p, probeFwd ⟨2, 2, 4⟩ (·.bno) 1 0 0 = some p ∧
      Reports ⟨2, 2, 4⟩ (·.bno) 1 0 (objectSize ⟨2, 2, 4⟩ 1 0 n) n p) ↔
        Found ⟨2, 2, 4⟩ (·.bno) 1 0 (objectSize ⟨2, 2, 4⟩ 1 0 n) n 0 8 [] := fun n => by
    exact reports_iff_found objectSize_pos (by decide) (by decide) (by decide) (forall_mem_nil _)
  rw [hfound, hfound]
  constructor
  · have hshort : ¬ Full (objectSize ⟨2, 2, 4⟩ 1 0 3) ⟨⟨1, 0, 0⟩, 0, 4, 0, [(0, 2), (4, 2)]⟩ := by
      unfold Full
      decide
    rw [found_iff_here fileToExtents_stripes.1 (by decide) fun hall => hshort (hall _ mem_cons_self)]
    rintro (⟨hfull, -⟩ | ⟨-, k, hk, -, hend⟩)
    · exact hshort hfull
    · obtain rfl : k = 2 := (some.inj hk).symm
      exact absurd hend (by decide)
  · have hnone : objectSize ⟨2, 2, 4⟩ 1 0 8 ⟨1, 2, 0⟩ = none := by decide
    have hshort : ¬ Full (objectSize ⟨2, 2, 4⟩ 1 0 8) ⟨⟨1, 2, 0⟩, 0, 4, 2, [(0, 2), (4, 2)]⟩ := by
      unfold Full
      decide
    rw [found_iff_next fileToExtents_stripes.1 (by decide) (by unfold Full; decide)]
    change ¬ Found _ _ _ _ _ _ 8 8 _
    rw [found_iff_here fileToExtents_stripes.2 (by decide) fun hall => hshort (hall _ mem_cons_self)]
    rintro (⟨hfull, -⟩ | ⟨-, k, hk, -⟩)
    · exact hshort hfull
    · rw [hnone] at hk
      cases hk

end Probing
end Osdc
end Ceph
