/-
# The maps of `Missing`

`PG::Missing` of `osd/PG.h`, with its maps finite as they are in the source:
`missing` and `rmissing` are inverse to each other, `loc` has only objects
that are missing, and `num_lost` counts the others. The logs need only which
version an object is missing in; for them the maps are functions
(`IndexedLog`), and the operations here are the ones there.

Two operations forget something. `add` leaves a location alone where the
object is now missing in a newer version, though it was the older one that
was found there. And `_decode` clears `missing` and `loc`, but adds to
`rmissing` what it reads.
-/
import Ceph.Osd.IndexedLog
import Mathlib.Data.Finmap

namespace Ceph
namespace Osd
namespace PGLog

open List Function Option Finmap

/-! ### Finite maps -/

section maps

variable {α β : Type} [DecidableEq α]

/-- `m[p.first] = p.second` for each pair. -/
def insertAll (m : Finmap fun _ : α => β) (l : List (α × β)) : Finmap fun _ : α => β :=
  l.foldl (fun m p => m.insert p.1 p.2) m

theorem lookup_insertAll : ∀ {l : List (α × β)} {m : Finmap fun _ : α => β}, (l.map Prod.fst).Nodup → ∀ {k : α} {v : β},
    ((insertAll m l).lookup k = some v ↔ (k, v) ∈ l ∨ (∀ p ∈ l, p.1 ≠ k) ∧ m.lookup k = some v)
  | [], m, _, k, v => by simp [insertAll]
  | p :: l, m, hn, k, v => by
    obtain ⟨hp, hn⟩ := nodup_cons.mp hn
    change (insertAll (m.insert p.1 p.2) l).lookup k = some v ↔ _
    rw [lookup_insertAll hn, forall_mem_cons, mem_cons]
    by_cases hk : k = p.1
    · have hfresh : ∀ q ∈ l, q.1 ≠ k := fun q hq heq => hp (List.mem_map.mpr ⟨q, hq, heq.trans hk⟩)
      have hnot : (k, v) ∉ l := fun hin => hfresh _ hin rfl
      rw [hk, lookup_insert, ← hk]
      constructor
      · rintro (hin | ⟨-, hv⟩)
        · exact absurd hin hnot
        · exact .inl (.inl (Prod.ext hk (some.inj hv).symm))
      · rintro ((heq | hin) | ⟨⟨hne, -⟩, -⟩)
        · exact .inr ⟨hfresh, by rw [← heq]⟩
        · exact absurd hin hnot
        · exact absurd rfl hne
    · rw [lookup_insert_of_ne _ hk]
      have hne : (k, v) ≠ p := fun heq => hk (congrArg Prod.fst heq)
      have hne' : p.1 ≠ k := fun heq => hk heq.symm
      simp only [hne, hne', false_or, ne_eq, not_false_eq_true, true_and]

section

variable (m : Finmap fun _ : α => β)
include m

theorem lookup_insert_apply (k : α) (v : β) (x : α) :
    (m.insert k v).lookup x = if x = k then some v else m.lookup x := by
  by_cases hx : x = k
  · rw [if_pos hx, hx, lookup_insert]
  · rw [if_neg hx, lookup_insert_of_ne _ hx]

theorem lookup_erase_apply (k x : α) :
    (m.erase k).lookup x = if x = k then none else m.lookup x := by
  by_cases hx : x = k
  · rw [if_pos hx, hx, lookup_erase]
  · rw [if_neg hx, lookup_erase_ne hx]

theorem lookup_insert_eq (k : α) (v : β) : (m.insert k v).lookup = update m.lookup k (some v) :=
  funext fun x => by rw [lookup_insert_apply, update_apply]

theorem lookup_erase_eq (k : α) : (m.erase k).lookup = update m.lookup k none :=
  funext fun x => by rw [lookup_erase_apply, update_apply]

end

end maps

/-! ### `PG::Missing` -/

structure MissingMaps where
  missing : Finmap fun _ : ℕ => EVersion
  rmissing : Finmap fun _ : EVersion => ℕ
  loc : Finmap fun _ : ℕ => ℕ

namespace MissingMaps

def empty : MissingMaps := ⟨∅, ∅, ∅⟩

/-- `num_lost`: the difference of two sizes as an `int`. -/
def numLost (m : MissingMaps) : ℤ := Int.bmod (m.missing.keys.card - m.loc.keys.card) (2 ^ 32)

/-- `add(oid, v)`. -/
def add (m : MissingMaps) (oid : ℕ) (v : EVersion) : MissingMaps :=
  match m.missing.lookup oid with
  | none => { m with missing := m.missing.insert oid v, rmissing := m.rmissing.insert v oid }
  | some w =>
    if v < w then m
    else { m with missing := m.missing.insert oid v, rmissing := (m.rmissing.erase w).insert v oid }

/-- `rm(oid, when)`. -/
def rm (m : MissingMaps) (oid : ℕ) (when : EVersion) : MissingMaps :=
  match m.missing.lookup oid with
  | none => m
  | some w => if w < when then ⟨m.missing.erase oid, m.rmissing.erase w, m.loc.erase oid⟩ else m

/-- `got(oid, v)`, and `got(oid)`; the object must be missing, in no newer version. -/
def got (m : MissingMaps) (oid : ℕ) (v : Option EVersion) : Option MissingMaps :=
  match m.missing.lookup oid with
  | none => none
  | some w => if v.all (w ≤ ·) then some ⟨m.missing.erase oid, m.rmissing.erase w, m.loc.erase oid⟩ else none

/-- `_decode`, of the pairs that `_encode` has written of two maps. -/
def decode (m : MissingMaps) (missing : List (ℕ × EVersion)) (loc : List (ℕ × ℕ)) : MissingMaps :=
  ⟨insertAll ∅ missing, insertAll m.rmissing (missing.map Prod.swap), insertAll ∅ loc⟩

end MissingMaps

inductive MissingOp
  | add (oid : ℕ) (v : EVersion)
  | rm (oid : ℕ) (when : EVersion)
  | got (oid : ℕ) (v : Option EVersion)
  | decode (missing : List (ℕ × EVersion)) (loc : List (ℕ × ℕ))
  | locate (oid osd : ℕ)      -- loc[oid] = osd, in proc_missing

/-- `none`: an assertion fails. -/
def missingStep (m : MissingMaps) : MissingOp → Option MissingMaps
  | .add oid v => some (m.add oid v)
  | .rm oid when => some (m.rm oid when)
  | .got oid v => m.got oid v
  | .decode missing loc => some (m.decode missing loc)
  | .locate oid osd => some { m with loc := m.loc.insert oid osd }

/-! ### As functions -/

section view

/-- The maps as functions. -/
def MissingMaps.toMissing (m : MissingMaps) : Missing := ⟨m.missing.lookup, m.rmissing.lookup, m.loc.lookup⟩

theorem toMissing_add (m : MissingMaps) (oid : ℕ) (v : EVersion) : (m.add oid v).toMissing = m.toMissing.add oid v := by
  unfold MissingMaps.add Missing.add Missing.unlist
  change _ = if ((m.missing.lookup oid).any (v < ·)) = true then _ else _
  cases hw : m.missing.lookup oid with
  | none => simp [MissingMaps.toMissing, lookup_insert_eq, hw]
  | some w =>
    by_cases hlt : v < w
    · simp [hlt]
    · simp [MissingMaps.toMissing, lookup_insert_eq, lookup_erase_eq, hw, hlt]

theorem toMissing_rm (m : MissingMaps) (oid : ℕ) (when : EVersion) :
    (m.rm oid when).toMissing = m.toMissing.rm oid when := by
  unfold MissingMaps.rm Missing.rm Missing.unlist
  change _ = if ((m.missing.lookup oid).any (· < when)) = true then _ else _
  cases hw : m.missing.lookup oid with
  | none => simp
  | some w =>
    by_cases hlt : w < when
    · simp [MissingMaps.toMissing, lookup_erase_eq, hw, hlt]
    · simp [hlt]

end view

/-! ### Inverse maps -/

/-- `missing` and `rmissing` say the same. -/
def Missing.Inverse (m : Missing) : Prop := ∀ o v, m.missing o = some v ↔ m.rmissing v = some o

section inverse

variable {m : Missing} {o x : ℕ} {v : EVersion}

/-- What `rmissing` lists without an object. -/
theorem Missing.Inverse.unlist_iff (h : m.Inverse) : m.unlist o v = some x ↔ m.missing x = some v ∧ x ≠ o := by
  unfold Missing.unlist
  cases ho : m.missing o with
  | none =>
    rw [← h]
    refine ⟨fun hx => ⟨hx, fun heq => ?_⟩, And.left⟩
    rw [heq, ho] at hx
    cases hx
  | some u =>
    by_cases hv : v = u
    · simp only [hv, update_self]
      refine ⟨nofun, fun ⟨hx, hne⟩ => absurd ?_ hne⟩
      have h1 := (h x u).mp hx
      have h2 := (h o u).mp ho
      exact some.inj (h1.symm.trans h2)
    · simp only [update_of_ne hv]
      rw [← h]
      refine ⟨fun hx => ⟨hx, fun heq => hv ?_⟩, And.left⟩
      rw [heq, ho] at hx
      exact (some.inj hx).symm

/-- `add`, where no other object is missing in the version. -/
theorem Missing.Inverse.add (h : m.Inverse) (hone : ∀ x, m.missing x = some v → x = o) : (m.add o v).Inverse := by
  by_cases hnew : (m.missing o).any (v < ·) = true
  · rw [Missing.add, if_pos hnew]
    exact h
  rw [Missing.add, if_neg hnew]
  intro x w
  simp only [update_apply]
  by_cases hx : x = o
  · rw [if_pos hx]
    by_cases hw : w = v
    · rw [if_pos hw, hw, hx]
      exact ⟨fun _ => rfl, fun _ => rfl⟩
    · rw [if_neg hw, h.unlist_iff]
      exact ⟨fun heq => absurd (some.inj heq).symm hw, fun hcon => absurd hx hcon.2⟩
  · rw [if_neg hx]
    by_cases hw : w = v
    · rw [if_pos hw, hw]
      exact ⟨fun hm => absurd (hone x hm) hx, fun heq => absurd (some.inj heq).symm hx⟩
    · rw [if_neg hw, h.unlist_iff, and_iff_left hx]

theorem Missing.Inverse.drop (h : m.Inverse) (loc : ℕ → Option ℕ) :
    Missing.Inverse ⟨update m.missing o none, m.unlist o, loc⟩ := by
  intro x w
  simp only [update_apply]
  rw [h.unlist_iff]
  by_cases hx : x = o
  · rw [if_pos hx]
    exact ⟨nofun, fun hcon => absurd hx hcon.2⟩
  · rw [if_neg hx, and_iff_left hx]

theorem Missing.Inverse.rm (h : m.Inverse) : (m.rm o v).Inverse := by
  unfold Missing.rm
  split
  · exact h.drop _
  · exact h

end inverse

/-! ### Runs -/

/-- The objects missing without a location. -/
def MissingMaps.lost (m : MissingMaps) : Finset ℕ := m.missing.keys \ m.loc.keys

/-- The maps agree, and `num_lost` counts. -/
structure InStep (m : MissingMaps) : Prop where
  inverse : m.toMissing.Inverse
  loc : m.loc.keys ⊆ m.missing.keys
  lost : m.numLost = m.lost.card
  nonneg : 0 ≤ m.numLost

/-- An object that becomes missing in a newer version has no location. -/
def Dropped (m m' : MissingMaps) : Prop :=
  ∀ o v w, m.missing.lookup o = some v → m'.missing.lookup o = some w → v < w → o ∉ m'.loc

/-- Each version is given to its own object, what is decoded is what `_encode` writes of
maps whose locations are those of missing objects, and only a missing object is located. -/
def Allowed (own : EVersion → ℕ) (m : MissingMaps) : MissingOp → Prop
  | .add oid v => own v = oid
  | .decode missing loc => (missing.map Prod.fst).Nodup ∧ (loc.map Prod.fst).Nodup ∧ (∀ p ∈ missing, own p.2 = p.1) ∧
      ∀ q ∈ loc, q.1 ∈ missing.map Prod.fst
  | .locate oid _ => oid ∈ m.missing
  | _ => True

/-- No object with a location is missing in a newer version, and what is
decoded has what is missing, in the same versions. -/
def Keeps (m : MissingMaps) : MissingOp → Prop
  | .add oid v => ∀ w ∈ m.missing.lookup oid, w < v → oid ∉ m.loc
  | .decode missing _ => ∀ o v, m.missing.lookup o = some v → (o, v) ∈ missing
  | _ => True

section runs

variable {own : EVersion → ℕ} {m m' : MissingMaps} {op : MissingOp} {o oid : ℕ} {v w : EVersion}

theorem card_lost (h : m.loc.keys ⊆ m.missing.keys) : (m.missing.keys.card - m.loc.keys.card : ℤ) = m.lost.card := by
  rw [MissingMaps.lost, Finset.card_sdiff_of_subset h, Int.ofNat_sub (Finset.card_le_card h)]

/-- `num_lost` counts, up to the range of an `int`. -/
theorem numLost_iff (h : m.loc.keys ⊆ m.missing.keys) :
    m.numLost = m.lost.card ∧ 0 ≤ m.numLost ↔ m.lost.card < 2 ^ 31 := by
  rw [MissingMaps.numLost, card_lost h]
  constructor
  · rintro ⟨heq, -⟩
    have hlt := Int.bmod_lt (x := (m.lost.card : ℤ)) (m := 2 ^ 32) (by decide)
    omega
  · intro hlt
    have heq : Int.bmod (m.lost.card : ℤ) (2 ^ 32) = m.lost.card := Int.bmod_eq_of_le (by omega) (by omega)
    rw [heq]
    exact ⟨rfl, Int.natCast_nonneg _⟩

theorem lookup_add (o : ℕ) : (m.add oid v).missing.lookup o =
    if o = oid then some (match m.missing.lookup oid with | none => v | some w => max w v) else m.missing.lookup o := by
  unfold MissingMaps.add
  cases hw : m.missing.lookup oid with
  | none => exact lookup_insert_apply _ _ _ _
  | some w =>
    by_cases hlt : v < w
    · simp only [if_pos hlt, max_eq_left hlt.le]
      by_cases ho : o = oid
      · rw [if_pos ho, ho, hw]
      · rw [if_neg ho]
    · simp only [if_neg hlt, lookup_insert_apply, max_eq_right (not_lt.mp hlt)]

theorem add_loc (oid : ℕ) (v : EVersion) : (m.add oid v).loc = m.loc := by
  unfold MissingMaps.add
  split
  · rfl
  · split <;> rfl

theorem rm_cases (m : MissingMaps) (oid : ℕ) (when : EVersion) : m.rm oid when = m ∨
    (m.rm oid when).missing = m.missing.erase oid ∧ (m.rm oid when).loc = m.loc.erase oid := by
  unfold MissingMaps.rm
  split
  · exact .inl rfl
  · split
    · exact .inr ⟨rfl, rfl⟩
    · exact .inl rfl

theorem got_spec {v : Option EVersion} (hs : m.got oid v = some m') :
    m'.missing = m.missing.erase oid ∧ m'.loc = m.loc.erase oid ∧
      m'.toMissing = ⟨update m.toMissing.missing oid none, m.toMissing.unlist oid,
        update m.toMissing.loc oid none⟩ := by
  unfold MissingMaps.got at hs
  cases hw : m.missing.lookup oid with
  | none =>
    rw [hw] at hs
    cases hs
  | some w =>
    simp only [hw] at hs
    obtain ⟨-, ⟨⟩⟩ := ite_none_right_eq_some.mp hs
    refine ⟨rfl, rfl, ?_⟩
    simp [MissingMaps.toMissing, Missing.unlist, lookup_erase_eq, hw]

/-- Only an object's own versions are recorded. -/
def Owned (own : EVersion → ℕ) (m : MissingMaps) : Prop := ∀ o v, m.missing.lookup o = some v → own v = o

/-- What is kept at all events. -/
structure Core (own : EVersion → ℕ) (m : MissingMaps) : Prop where
  inverse : m.toMissing.Inverse
  loc : ∀ o ∈ m.loc, o ∈ m.missing
  owned : Owned own m

theorem erased_core (h : Core own m) (hm : m'.missing = m.missing.erase oid) (hl : m'.loc = m.loc.erase oid) :
    Dropped m m' ∧ (∀ o ∈ m'.loc, o ∈ m'.missing) ∧ Owned own m' := by
  have hsub : ∀ {o w}, m'.missing.lookup o = some w → m.missing.lookup o = some w := fun {o w} hw => by
    rw [hm, lookup_erase_apply] at hw
    exact (ite_none_left_eq_some.mp hw).2
  refine ⟨fun o v w hv hw hlt => ?_, fun o ho => ?_, fun o v hv => h.owned o v (hsub hv)⟩
  · rw [hsub hw] at hv
    exact absurd (some.inj hv) hlt.ne'
  · rw [hl, mem_erase] at ho
    rw [hm, mem_erase]
    exact ⟨ho.1, h.loc o ho.2⟩

theorem add_core (h : Core own m) (ha : own v = oid) :
    ((m.add oid v).toMissing.Inverse ∧ Dropped m (m.add oid v) ↔ Keeps m (.add oid v)) ∧
      (∀ o ∈ (m.add oid v).loc, o ∈ (m.add oid v).missing) ∧ Owned own (m.add oid v) := by
  have hinv : (m.add oid v).toMissing.Inverse := by
    rw [toMissing_add]
    exact h.inverse.add fun x hx => (h.owned x v hx).symm.trans ha
  refine ⟨⟨fun ⟨_, hd⟩ w hw hlt => ?_, fun hk => ⟨hinv, fun o u w hu hw hlt => ?_⟩⟩, fun o ho => ?_, fun o u hu => ?_⟩
  · rw [← add_loc oid v]
    refine hd oid w v hw ?_ hlt
    rw [lookup_add, if_pos rfl, show m.missing.lookup oid = some w from hw]
    exact congrArg some (max_eq_right hlt.le)
  · rw [lookup_add] at hw
    by_cases ho : o = oid
    · rw [if_pos ho, ← ho, hu] at hw
      have hmax : max u v = w := some.inj hw
      rw [add_loc, ho]
      exact hk u (ho ▸ hu) (lt_of_not_ge fun hge => hlt.ne (by rw [← hmax, max_eq_left hge]))
    · rw [if_neg ho, hu] at hw
      exact absurd (some.inj hw) hlt.ne
  · rw [add_loc] at ho
    rw [← lookup_isSome, lookup_add]
    by_cases hoid : o = oid
    · rw [if_pos hoid]
      rfl
    · rw [if_neg hoid]
      exact lookup_isSome.mpr (h.loc o ho)
  · rw [lookup_add] at hu
    by_cases ho : o = oid
    · rw [if_pos ho] at hu
      rw [ho, ← some.inj hu]
      cases hw : m.missing.lookup oid with
      | none => exact ha
      | some w =>
        rcases max_choice w v with hmax | hmax
        · simpa only [hmax] using h.owned oid w hw
        · simpa only [hmax] using ha
    · rw [if_neg ho] at hu
      exact h.owned o u hu

/-- `rmissing` lists what is decoded, and goes on listing the rest. -/
theorem decode_core {missing : List (ℕ × EVersion)} {loc : List (ℕ × ℕ)} (h : Core own m)
    (ha : Allowed own m (.decode missing loc)) :
    ((m.decode missing loc).toMissing.Inverse ∧ Dropped m (m.decode missing loc) ↔ Keeps m (.decode missing loc)) ∧
      (∀ o ∈ (m.decode missing loc).loc, o ∈ (m.decode missing loc).missing) ∧ Owned own (m.decode missing loc) := by
  obtain ⟨hnodup, hnodup', hown, hloc⟩ := ha
  have hone : ∀ {o v}, (m.decode missing loc).missing.lookup o = some v ↔ (o, v) ∈ missing := fun {o v} => by
    refine (lookup_insertAll hnodup).trans (or_iff_left fun hcon => ?_)
    exact absurd hcon.2 (by simp)
  have hvers : ((missing.map Prod.swap).map Prod.fst).Nodup := by
    have hmap : (missing.map Prod.swap).map Prod.fst = missing.map Prod.snd := by simp
    rw [hmap]
    refine (List.Nodup.of_map own ?_)
    rw [List.map_map, map_congr_left (f := own ∘ Prod.snd) (g := Prod.fst) fun p hp => hown p hp]
    exact hnodup
  have hlist : ∀ {o v}, (m.decode missing loc).rmissing.lookup v = some o ↔
      (o, v) ∈ missing ∨ (∀ p ∈ missing, p.2 ≠ v) ∧ m.missing.lookup o = some v := fun {o v} => by
    refine (lookup_insertAll hvers).trans (or_congr ?_ (and_congr ?_ ?_))
    · rw [List.mem_map]
      exact ⟨fun ⟨p, hp, heq⟩ => by rwa [← Prod.swap_swap p, heq] at hp, fun hp => ⟨_, hp, rfl⟩⟩
    · rw [List.forall_mem_map]
      rfl
    · exact (h.inverse o v).symm
  refine ⟨⟨fun ⟨hinv, _⟩ o v hv => ?_, fun hk => ⟨fun o v => ?_, fun o v w hv hw hlt => ?_⟩⟩, fun o ho => ?_,
    fun o v hv => ?_⟩
  · by_cases hnew : ∀ p ∈ missing, p.2 ≠ v
    · exact hone.mp ((hinv o v).mpr (hlist.mpr (.inr ⟨hnew, hv⟩)))
    · push Not at hnew
      obtain ⟨p, hp, rfl⟩ := hnew
      have hpo : p.1 = o := (hown p hp).symm.trans (h.owned o p.2 hv)
      exact hpo ▸ hp
  · refine hone.trans (Iff.trans ?_ hlist.symm)
    exact ⟨.inl, fun hor => hor.elim id fun hold => hk o v hold.2⟩
  · rw [hone.mpr (hk o v hv)] at hw
    exact absurd (some.inj hw) hlt.ne
  · obtain ⟨osd, hosd⟩ := mem_iff.mp ho
    have hin : (o, osd) ∈ loc := by
      refine ((lookup_insertAll hnodup').mp hosd).resolve_right fun hcon => ?_
      exact absurd hcon.2 (by simp)
    obtain ⟨p, hp, hpo⟩ := List.mem_map.mp (hloc _ hin)
    have hpo : p.1 = o := hpo
    exact mem_iff.mpr ⟨p.2, hone.mpr (hpo ▸ hp)⟩
  · exact hown _ (hone.mp hv)

/-- **One step**: the maps agree afterwards, and no stale location is left, if it keeps to the conditions. -/
theorem core_step (h : Core own m) (ha : Allowed own m op) (hs : missingStep m op = some m') :
    (m'.toMissing.Inverse ∧ Dropped m m' ↔ Keeps m op) ∧ (∀ o ∈ m'.loc, o ∈ m'.missing) ∧ Owned own m' := by
  have hsame : ∀ {m' : MissingMaps}, m'.missing = m.missing → Dropped m m' := fun {m'} heq o v w hv hw hlt => by
    rw [heq, hv] at hw
    exact absurd (some.inj hw) hlt.ne
  cases op with
  | add oid v =>
    cases hs
    exact add_core h ha
  | rm oid when =>
    cases hs
    have hinv : (m.rm oid when).toMissing.Inverse := by
      rw [toMissing_rm]
      exact h.inverse.rm
    obtain heq | ⟨hm, hl⟩ := rm_cases m oid when
    · rw [heq]
      exact ⟨⟨fun _ => trivial, fun _ => ⟨h.inverse, hsame rfl⟩⟩, h.loc, h.owned⟩
    · obtain ⟨hd, hloc, hown⟩ := erased_core h hm hl
      exact ⟨⟨fun _ => trivial, fun _ => ⟨hinv, hd⟩⟩, hloc, hown⟩
  | got oid v =>
    obtain ⟨hm, hl, hview⟩ := got_spec hs
    obtain ⟨hd, hloc, hown⟩ := erased_core h hm hl
    refine ⟨⟨fun _ => trivial, fun _ => ⟨?_, hd⟩⟩, hloc, hown⟩
    rw [hview]
    exact h.inverse.drop _
  | decode missing loc =>
    cases hs
    exact decode_core h ha
  | locate oid osd =>
    cases hs
    refine ⟨⟨fun _ => trivial, fun _ => ⟨h.inverse, hsame rfl⟩⟩, fun o ho => ?_, h.owned⟩
    obtain rfl | ho := mem_insert.mp ho
    · exact ha
    · exact h.loc o ho

/-- A step that keeps to the conditions and leaves fewer lost objects than an `int` counts. -/
def Kept (own : EVersion → ℕ) (m : MissingMaps) (op : MissingOp) : Prop :=
  Allowed own m op ∧ Keeps m op ∧ ∀ m', missingStep m op = some m' → m'.lost.card < 2 ^ 31

theorem subset_of_mem (h : ∀ o ∈ m.loc, o ∈ m.missing) : m.loc.keys ⊆ m.missing.keys := fun o ho =>
  mem_keys.mpr (h o (mem_keys.mp ho))

theorem Core.inStep_iff (h : ∀ o ∈ m.loc, o ∈ m.missing) : InStep m ↔ m.toMissing.Inverse ∧ m.lost.card < 2 ^ 31 := by
  rw [← numLost_iff (subset_of_mem h)]
  exact ⟨fun hi => ⟨hi.inverse, hi.lost, hi.nonneg⟩, fun ⟨hinv, hl, h0⟩ => ⟨hinv, subset_of_mem h, hl, h0⟩⟩

theorem core_reach (h : Run.Reach missingStep (Kept own) .empty m) : Core own m ∧ m.lost.card < 2 ^ 31 := by
  refine h.inv (fun m => Core own m ∧ m.lost.card < 2 ^ 31) ⟨⟨?_, nofun, ?_⟩, by decide⟩ ?_
  · exact fun o v => ⟨nofun, nofun⟩
  · exact fun o v hv => absurd hv (by simp [MissingMaps.empty])
  · intro m op m' ⟨hc, _⟩ ⟨ha, hk, hfew⟩ hs
    obtain ⟨hiff, hloc, hown⟩ := core_step hc ha hs
    exact ⟨⟨(hiff.mpr hk).1, hloc, hown⟩, hfew m' hs⟩

/-- **`Missing` stays in step** in every run that keeps to the conditions, and a
next step keeps it so, and drops the location of an object that becomes missing
in a newer version, exactly if it keeps to them, too. -/
theorem missing_in_step (h : Run.Reach missingStep (Kept own) .empty m) :
    InStep m ∧ ∀ op m', Allowed own m op → missingStep m op = some m' →
      (InStep m' ∧ Dropped m m' ↔ Keeps m op ∧ m'.lost.card < 2 ^ 31) := by
  obtain ⟨hc, hfew⟩ := core_reach h
  refine ⟨(Core.inStep_iff hc.loc).mpr ⟨hc.inverse, hfew⟩, fun op m' ha hs => ?_⟩
  obtain ⟨hiff, hloc, -⟩ := core_step hc ha hs
  rw [Core.inStep_iff hloc, ← hiff]
  tauto

/-- One object, missing and located. -/
theorem missing_in_step_one : InStep (MissingMaps.empty.decode [(5, toLex (1, 1))] [(5, 3)]) := by
  have hallowed : Allowed (fun _ => 5) .empty (.decode [(5, toLex (1, 1))] [(5, 3)]) := by
    unfold Allowed
    decide
  have hkeeps : Keeps .empty (.decode [(5, toLex (1, 1))] [(5, 3)]) :=
    fun o v hv => absurd hv (by simp [MissingMaps.empty])
  have hreach : Run.Reach missingStep (Kept fun _ => 5) .empty
      (MissingMaps.empty.decode [(5, toLex (1, 1))] [(5, 3)]) := by
    refine .step _ .init ⟨hallowed, hkeeps, fun m' hm' => ?_⟩ rfl
    cases hm'
    decide +kernel
  exact (missing_in_step hreach).1

/-- Object 5 is missing at 1'1 and on OSD 3, and is then missing at 1'2, still on OSD 3. -/
theorem stale_location : ¬ ∀ (own : EVersion → ℕ) (m m' : MissingMaps) (op : MissingOp),
    Run.Reach missingStep (Allowed own) .empty m → Allowed own m op → missingStep m op = some m' →
    InStep m' ∧ Dropped m m' := by
  intro hall
  have hallowed : Allowed (fun _ => 5) .empty (.decode [(5, toLex (1, 1))] [(5, 3)]) := by
    unfold Allowed
    decide
  have hdrop := (hall (fun _ => 5) _ _ (.add 5 (toLex (1, 2))) (.step _ .init hallowed rfl) rfl rfl).2 5 (toLex (1, 1))
    (toLex (1, 2)) (by decide +kernel) (by decide +kernel) (by decide +kernel)
  exact hdrop (by decide +kernel)

end runs

end PGLog
end Osd
end Ceph
