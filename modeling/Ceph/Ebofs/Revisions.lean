/-
# Looking up a revision

`pick_object_revision_lt` goes to where an object name would be in `object_tab` and one to the left, and
looks for an older revision of the object from there. It compares revisions the wrong way: a later one
is taken, and for an older one the live object (revision 0), whether there is one or not. So the first key it
sees decides. Keys are compared by `memcmp`, as the bytes of the name.
-/
import Ceph.Ebofs.CollectionList
import Ceph.Ebofs.SingleLeaf

namespace Ceph
namespace Ebofs

open List Option
open Btree

/-! ### One to the left of a key -/

namespace Btree

/-- **`find`, then `move_left`,** is at the last item below the key. -/
theorem moveLeft_find {K V : Type} [LinearOrder K] {t : Table K V} (hwf : t.Wf) (hd : t.depth ≠ 0) (key : K) :
    ∃ A B, t.leaves.flatten = A ++ B ∧ (∀ a ∈ A, a.1 < key) ∧ (∀ b ∈ B, key ≤ b.1) ∧
      (A = [] ∧ (t.moveLeft (t.find key).2).1 = Cursor.OOB ∨
        ∃ A' a c, A = A' ++ [a] ∧ t.moveLeft (t.find key).2 = (1, c) ∧ current c = some a) := by
  have hshaped := hwf.shaped hd
  obtain ⟨pre, l, post, p, h⟩ := @findFrom_lands _ _ _ _ _ _ key hshaped hwf.sorted
  have hleaves : t.leaves = pre ++ l :: post := h.at_pos.leaves_eq
  obtain ⟨hsame, hend, hnext⟩ := retreat_at hshaped h.at_pos
  rw [h.find_eq hwf hd, Table.moveLeft, if_neg hd]
  refine ⟨pre.flatten ++ l.take p, l.drop p ++ post.flatten, ?_, fun a ha => (mem_append.mp ha).elim (h.before a) (h.below a),
    fun a ha => (mem_append.mp ha).elim (h.above a) fun ha => (h.behind a ha).le, ?_⟩
  · rw [hleaves, flatten_append, flatten_cons, append_assoc, ← append_assoc (l.take p),
      take_append_drop]
  · rcases eq_zero_or_pos p with rfl | hp
    · rcases eq_nil_or_concat' pre with rfl | ⟨pre', l', rfl⟩
      · exact .inl ⟨rfl, by rw [hend rfl rfl]⟩
      · obtain ⟨c, hret, hat⟩ := hnext rfl pre' l' rfl
        have hl' : l' ≠ [] := hwf.full l' (by rw [hleaves]; simp)
        have hpos := length_pos_iff.mpr hl'
        refine .inr ⟨pre'.flatten ++ l'.dropLast, l'.getLast hl', c, ?_, by rw [hret], ?_⟩
        · rw [take_zero, append_nil, flatten_append, flatten_singleton, append_assoc,
            dropLast_append_getLast]
        · rw [hat.current_eq (by omega), getLast_eq_getElem]
    · obtain ⟨c, hret, hat⟩ := hsame hp
      have hlt : p - 1 < l.length := by have := h.le_length; omega
      refine .inr ⟨pre.flatten ++ l.take (p - 1), l[p - 1], c, ?_, by rw [hret], hat.current_eq hlt⟩
      rw [append_assoc, take_append_getElem, Nat.sub_add_cancel hp]

end Btree

/-! ### The code -/

/-- `pobject_t` is compared by `memcmp`. -/
instance : LinearOrder PObject := LinearOrder.lift' PObject.memory PObject.memory_injective

variable {V : Type}

/-- The loop of `pick_object_revision_lt`. -/
def pickLoop (t : Table PObject V) (oid : PObject) : ℕ → Bool → Cursor PObject V → ℤ × PObject
  | 0, _, _ => (-EEXIST, oid)
  | fuel + 1, firstpass, c =>
    match current c with
    | none => (-EEXIST, oid)
    | some item =>
      if item.1.ino ≠ oid.ino ∨ item.1.bno ≠ oid.bno then (-EEXIST, oid)     -- passed to previous object
      else if oid.rev < item.1.rev then (0, item.1)
      else if firstpass ∧ item.1.rev ≤ oid.rev then (0, { oid with rev := 0 })      -- try live
      else if (t.moveLeft c).1 ≤ 0 then (-EEXIST, oid)
      else pickLoop t oid fuel false (t.moveLeft c).2

/-- `pick_object_revision_lt`, which asserts that the revision is not 0; the object is changed in place. -/
def pickObjectRevisionLt (t : Table PObject V) (oid : PObject) : Option (ℤ × PObject) :=
  if oid.rev = 0 then none
  else if t.nkeys = 0 then some (-EEXIST, oid)
  else if (t.moveLeft (t.find oid).2).1 ≤ 0 then some (-EEXIST, oid)
  else some (pickLoop t oid t.nkeys true (t.moveLeft (t.find oid).2).2)

/-! ### What it should find -/

/-- The same object, whatever the revision. -/
def SameObject (o o' : PObject) : Prop := o.ino = o'.ino ∧ o.bno = o'.bno

instance (o o' : PObject) : Decidable (SameObject o o') := inferInstanceAs (Decidable (_ ∧ _))

/-- An older revision of the object is there. -/
def Older (t : Table PObject V) (oid k : PObject) : Prop := k ∈ t.keys ∧ SameObject k oid ∧ k.rev < oid.rev

/-- The latest of the older revisions is found, or there is none and the name is left as it was. -/
def Picks (t : Table PObject V) (oid : PObject) (r : ℤ × PObject) : Prop :=
  r.1 = 0 ∧ Older t oid r.2 ∧ (∀ k, Older t oid k → k.rev ≤ r.2.rev) ∨ r.1 ≠ 0 ∧ r.2 = oid ∧ ∀ k, ¬ Older t oid k

/-- The key next below the name. -/
def NextBelow (t : Table PObject V) (oid k : PObject) : Prop :=
  k ∈ t.keys ∧ k < oid ∧ ∀ k' ∈ t.keys, k' < oid → k' ≤ k

/-- There is no older revision, and the key next below the name is of another object; or the key is of this one and
not later, and the live object is there and all that is older. -/
def Pickable (t : Table PObject V) (oid : PObject) : Prop :=
  (∀ k, ¬ Older t oid k) ∧ (∀ k, NextBelow t oid k → ¬ SameObject k oid) ∨
    (∃ k, NextBelow t oid k ∧ SameObject k oid ∧ k.rev ≤ oid.rev) ∧ { oid with rev := 0 } ∈ t.keys ∧
      ∀ k, Older t oid k → k.rev ≤ 0

section pick

variable {t : Table PObject V} {oid k k' : PObject}

theorem NextBelow.unique (h : NextBelow t oid k) (h' : NextBelow t oid k') : k = k' :=
  le_antisymm (h'.2.2 k h.1 h.2.1) (h.2.2 k' h'.1 h'.2.1)

/-- The key next below the name decides. -/
theorem pick_eq (hwf : t.Wf) (hrev : oid.rev ≠ 0) :
    (∀ k, ¬ NextBelow t oid k) ∧ pickObjectRevisionLt t oid = some (-EEXIST, oid) ∨
      ∃ k, NextBelow t oid k ∧ pickObjectRevisionLt t oid = some (if ¬ SameObject k oid then (-EEXIST, oid)
        else if oid.rev < k.rev then (0, k) else (0, { oid with rev := 0 })) := by
  unfold pickObjectRevisionLt
  rw [if_neg hrev]
  by_cases hn : t.nkeys = 0
  · have hkeys : t.keys = [] := length_eq_zero_iff.mp (hwf.count.symm.trans hn)
    exact .inl ⟨fun k hk => not_mem_nil (hkeys ▸ hk.1), if_pos hn⟩
  rw [if_neg hn]
  have hd : t.depth ≠ 0 := fun h => hn (by rw [hwf.count, Table.keys, Table.leaves, h]; rfl)
  obtain ⟨A, B, hcut, hA, hB, h⟩ := moveLeft_find hwf hd oid
  have hbelow : ∀ k ∈ t.keys, k < oid → ∃ a ∈ A, a.1 = k := fun k hk hlt => by
    rw [Table.keys, hcut, map_append, mem_append, List.mem_map, List.mem_map] at hk
    refine hk.resolve_right ?_
    rintro ⟨b, hb, rfl⟩
    exact absurd hlt (not_lt.mpr (hB b hb))
  rcases h with ⟨rfl, hoob⟩ | ⟨A', a, c, rfl, hmove, hcur⟩
  · refine .inl ⟨fun k hk => ?_, by rw [hoob]; rfl⟩
    obtain ⟨a, ha, -⟩ := hbelow k hk.1 hk.2.1
    exact not_mem_nil ha
  · refine .inr ⟨a.1, ⟨?_, hA a (by simp), fun k hk hlt => ?_⟩, ?_⟩
    · rw [Table.keys, hcut]
      simp
    · obtain ⟨b, hb, rfl⟩ := hbelow k hk hlt
      have hsorted := hwf.sorted
      rw [hcut, pairwise_append, pairwise_append] at hsorted
      rcases mem_append.mp hb with hb | hb
      · exact (hsorted.1.2.2 b hb a (mem_singleton_self a)).le
      · rw [mem_singleton.mp hb]
    · obtain ⟨n, hn'⟩ := Nat.exists_eq_succ_of_ne_zero hn
      rw [hmove, if_neg (show ¬ (1 : ℤ) ≤ 0 by decide), hn', pickLoop, hcur]
      dsimp only
      refine congrArg some ?_
      by_cases hsame : SameObject a.1 oid
      · rw [if_neg (not_or.mpr ⟨not_not_intro hsame.1, not_not_intro hsame.2⟩), if_neg (not_not_intro hsame)]
        by_cases hlater : oid.rev < a.1.rev
        · rw [if_pos hlater, if_pos hlater]
        · rw [if_neg hlater, if_neg hlater, if_pos ⟨rfl, UInt32.not_lt.mp hlater⟩]
      · rw [if_pos (not_and_or.mp hsame), if_pos hsame]

/-- **The lookup is right** in these cases, and in no others. -/
theorem picks_iff_pickable (hwf : t.Wf) (hrev : oid.rev ≠ 0) :
    (∀ r, pickObjectRevisionLt t oid = some r → Picks t oid r) ↔ Pickable t oid := by
  have hpos : (0 : UInt32) < oid.rev := UInt32.pos_iff_ne_zero.mpr hrev
  have hcode : -EEXIST ≠ 0 := by decide
  have hfail : Picks t oid (-EEXIST, oid) ↔ ∀ k, ¬ Older t oid k :=
    ⟨fun h => (h.resolve_left fun h => hcode h.1).2.2, fun h => .inr ⟨hcode, rfl, h⟩⟩
  unfold Pickable
  rcases pick_eq hwf hrev with ⟨hnone, hpick⟩ | ⟨k, hk, hpick⟩
  · simp only [hpick, some.injEq, forall_eq', hfail, hnone]
    simp
  · have hnext : ∀ P : PObject → Prop, (∀ k', NextBelow t oid k' → P k') ↔ P k := fun P =>
      ⟨fun h => h k hk, fun h k' hk' => hk.unique hk' ▸ h⟩
    have hexists : ∀ P : PObject → Prop, (∃ k', NextBelow t oid k' ∧ P k') ↔ P k := fun P =>
      ⟨fun ⟨k', hk', h⟩ => hk.unique hk' ▸ h, fun h => ⟨k, hk, h⟩⟩
    rw [hnext fun k' => ¬ SameObject k' oid, hexists fun k' => SameObject k' oid ∧ k'.rev ≤ oid.rev]
    simp only [hpick, some.injEq, forall_eq']
    by_cases hsame : SameObject k oid
    · rw [if_neg (not_not_intro hsame)]
      by_cases hlater : oid.rev < k.rev
      · rw [if_pos hlater]
        refine iff_of_false ?_ ?_
        · rintro (⟨-, h, -⟩ | ⟨h, -, -⟩)
          · exact absurd h.2.2 (UInt32.lt_asymm hlater)
          · exact h rfl
        · rintro (⟨-, h⟩ | ⟨⟨-, h⟩, -⟩)
          · exact h hsame
          · exact absurd hlater (UInt32.not_lt.mpr h)
      · rw [if_neg hlater]
        constructor
        · rintro (⟨-, h, hmax⟩ | ⟨h, -, -⟩)
          · exact .inr ⟨⟨hsame, UInt32.not_lt.mp hlater⟩, h.1, hmax⟩
          · exact absurd rfl h
        · rintro (⟨-, h⟩ | ⟨-, hlive, hmax⟩)
          · exact absurd hsame h
          · exact .inl ⟨rfl, ⟨hlive, ⟨rfl, rfl⟩, hpos⟩, hmax⟩
    · rw [if_pos hsame, hfail]
      simp [hsame]

end pick

/-- A table of one object. -/
def oneObject (k : PObject) : Table PObject Unit := .ofLeaf (.leaf (fun _ => (k, ())) 1)

theorem oneObject_wf (k : PObject) : (oneObject k).Wf := ofLeaf_wf fun _ _ hij hj => by omega

/-- The live object is found. -/
theorem picks_live : (oneObject ⟨0, 0, 1, 0, 0⟩).Wf ∧
    ∀ r, pickObjectRevisionLt (oneObject ⟨0, 0, 1, 0, 0⟩) ⟨0, 0, 1, 0, 3⟩ = some r →
      Picks (oneObject ⟨0, 0, 1, 0, 0⟩) ⟨0, 0, 1, 0, 3⟩ r := by
  have hkeys : (oneObject ⟨0, 0, 1, 0, 0⟩).keys = [⟨0, 0, 1, 0, 0⟩] := rfl
  refine ⟨oneObject_wf _, (picks_iff_pickable (oneObject_wf _) (by decide)).mpr
    (.inr ⟨⟨⟨0, 0, 1, 0, 0⟩, ⟨by decide, by decide, fun k hk _ => ?_⟩, ⟨rfl, rfl⟩, by decide⟩, by decide, fun k hk => ?_⟩)⟩
  · rw [hkeys, mem_singleton] at hk
    exact hk.le
  · rw [Older, hkeys, mem_singleton] at hk
    rw [hk.1]
    decide

/-- Revision 2 is there, but the live object is taken, which is not. -/
theorem older_revision_missed : (oneObject ⟨0, 0, 1, 0, 2⟩).Wf ∧
    pickObjectRevisionLt (oneObject ⟨0, 0, 1, 0, 2⟩) ⟨0, 0, 1, 0, 3⟩ = some (0, ⟨0, 0, 1, 0, 0⟩) ∧
    ¬ Picks (oneObject ⟨0, 0, 1, 0, 2⟩) ⟨0, 0, 1, 0, 3⟩ (0, ⟨0, 0, 1, 0, 0⟩) := by
  refine ⟨oneObject_wf _, by decide, ?_⟩
  rintro (⟨-, ⟨h, -⟩, -⟩ | ⟨h, -⟩)
  · exact absurd h (by decide)
  · exact absurd rfl h

end Ebofs
end Ceph
