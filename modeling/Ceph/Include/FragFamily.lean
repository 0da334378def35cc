/-
# The family of a fragment

A fragment is the left or the right child of its parent, and its sibling is the other one.
`is_left` and `is_right` of `include/frag.h` mean to test the last bit of the value, but `==` is applied
before `&`: the value is and-ed with the outcome of a comparison, which is always 0 for `is_left`, and 1 for
`is_right` where there is one bit.
-/
import Ceph.Include.FragSet

namespace Ceph
namespace Frags

open Fragset

namespace Frag

/-- `is_left`. -/
def isLeft (x : Frag) : Bool := 0 < x.bits && (x.value &&& (1 <<< (x.bits - 1) == 0).toNat) ≠ 0

/-- `is_right`. -/
def isRight (x : Frag) : Bool := 0 < x.bits && (x.value &&& (1 <<< (x.bits - 1) == 1).toNat) ≠ 0

/-- `left_child`. -/
def leftChild (x : Frag) : Frag := frag x.value (x.bits + 1)

/-- `right_child`. -/
def rightChild (x : Frag) : Frag := frag (x.value ||| (1 <<< x.bits)) (x.bits + 1)

/-- The sibling is another child of the same parent, whose sibling is the fragment. -/
structure Paired (x p s : Frag) : Prop where
  parent : x.parent = some p
  same_parent : s.parent = some p
  sibling : x.getSibling = some s
  back : s.getSibling = some x
  ne : s ≠ x
  children : (x = p.leftChild ∧ s = p.rightChild) ∨ (x = p.rightChild ∧ s = p.leftChild)
  above : Above p x

/-- The pieces are the fragments with `b` more bits in the fragment, one of each, apart from each other. -/
structure SplitsInto (x : Frag) (b : ℕ) : Prop where
  length : (x.split b).length = 2 ^ b
  mem : ∀ y, y ∈ x.split b ↔ y.Wf ∧ y.bits = x.bits + b ∧ Above x y
  nodup : (x.split b).Nodup
  apart : (x.split b).Pairwise fun y z => ∀ v, ¬ (y.contains v = true ∧ z.contains v = true)

/-- The relations of a fragment to its family. -/
structure Family (x : Frag) : Prop where
  side : x.isLeft ≠ x.isRight
  paired : ∃ p s, x.Paired p s ∧ (x.isLeft → x = p.leftChild) ∧ (x.isRight → x = p.rightChild)
  split : ∀ b, 0 < b → x.bits + b ≤ 24 → x.SplitsInto b

end Frag

section family

variable {x : Frag} {b : ℕ}

theorem not_isLeft (x : Frag) : x.isLeft = false := by
  have hpos := Nat.two_pow_pos (x.bits - 1)
  have hzero : (2 ^ (x.bits - 1) == 0) = false := beq_eq_false_iff_ne.mpr hpos.ne'
  simp [Frag.isLeft, Nat.one_shiftLeft, hzero]

theorem isRight_iff (hx : x.Wf) : x.isRight = true ↔ x.bits = 1 ∧ x.value = 1 := by
  have hlt := hx.value_lt
  unfold Frag.isRight
  rw [Nat.one_shiftLeft]
  obtain h | h | h : x.bits = 0 ∨ x.bits = 1 ∨ 1 < x.bits := by omega
  · simp [h]
  · rw [h] at hlt ⊢
    obtain h' | h' : x.value = 0 ∨ x.value = 1 := by omega
    · simp [h']
    · simp [h']
  · have : 2 ^ 1 ≤ 2 ^ (x.bits - 1) := Nat.pow_le_pow_right (by decide) (by omega)
    have hne : (2 ^ (x.bits - 1) == 1) = false := beq_eq_false_iff_ne.mpr (by omega)
    simp [hne]
    omega

theorem split_one (x : Frag) : x.split 1 = [x.leftChild, x.rightChild] := by
  simp [Frag.split, Frag.leftChild, Frag.rightChild, List.range_succ]

/-- **Parent, child and sibling** are as they should be, but for the side. -/
theorem exists_paired (hx : x.Wf) (h0 : x.bits ≠ 0) : ∃ p s, x.Paired p s := by
  have hle : x.bits - 1 ≤ x.bits := Nat.sub_le _ _
  obtain ⟨s, hs, hsw, hsb, hne, ha⟩ := sibling_spec hx h0
  have hs0 : s.bits ≠ 0 := hsb ▸ h0
  have hup : s.upTo (s.bits - 1) = x.upTo (x.bits - 1) := by
    have heq := eq_upTo hsw (hx.upTo hle) ha
    rw [bits_upTo hx hle] at heq
    rw [hsb, heq]
  obtain ⟨t, ht, htw, htb, htne, hta⟩ := sibling_spec hsw hs0
  have hback : t = x := by
    have hmem : t ∈ (x.upTo (x.bits - 1)).split 1 := by
      rw [← hup]
      exact (mem_halves hsw hs0 ht).mpr (.inr rfl)
    exact ((mem_halves hx h0 hs).mp hmem).resolve_right htne
  have hhalves := fun y => mem_halves (y := y) hx h0 hs
  rw [split_one] at hhalves
  simp only [List.mem_cons, List.not_mem_nil, or_false] at hhalves
  refine ⟨_, s, parent_eq hx h0, by rw [parent_eq hsw hs0, hup], hs, hback ▸ ht, hne, ?_, upTo_above hx hle⟩
  rcases (hhalves x).mpr (.inl rfl) with hxl | hxr
  · exact .inl ⟨hxl, ((hhalves s).mpr (.inr rfl)).resolve_left fun h => hne (h.trans hxl.symm)⟩
  · exact .inr ⟨hxr, ((hhalves s).mpr (.inr rfl)).resolve_right fun h => hne (h.trans hxr.symm)⟩

/-- **`split`** is as it should be. -/
theorem splitsInto (hx : x.Wf) (hb : x.bits + b ≤ 24) : x.SplitsInto b := by
  have hapart : (x.split b).Pairwise fun y z => ∀ v, ¬ (y.contains v = true ∧ z.contains v = true) :=
    pairwise_of_counts fun v => by
      rw [countP_split hx hb]
      split_ifs <;> decide
  refine ⟨by simp [Frag.split, Nat.one_shiftLeft], fun y => mem_split_iff hx hb, ?_, hapart⟩
  refine hapart.imp_of_mem fun {y z} hy _ h heq => ?_
  have hv := contains_value ((mem_split_iff hx hb).mp hy).1
  exact h y.value ⟨hv, heq ▸ hv⟩

/-- **The family relations** hold of the fragment 1/1 alone. -/
theorem family_iff (hx : x.Wf) (h0 : x.bits ≠ 0) : x.Family ↔ x.bits = 1 ∧ x.value = 1 := by
  rw [← isRight_iff hx]
  constructor
  · intro h
    have hside := h.side
    rw [not_isLeft] at hside
    exact Bool.eq_true_of_not_eq_false hside.symm
  · intro hright
    obtain ⟨p, s, hps⟩ := exists_paired hx h0
    refine ⟨?_, ⟨p, s, hps, ?_, fun _ => ?_⟩, fun b _ hb => splitsInto hx hb⟩
    · rw [not_isLeft, hright]
      decide
    · rw [not_isLeft]
      exact nofun
    · obtain ⟨hb, hv⟩ := (isRight_iff hx).mp hright
      obtain rfl : x = frag 1 1 := Frag.ext_bits hb hv
      obtain rfl : root = p := Option.some.inj ((by decide : _ = (frag 1 1).parent).trans hps.parent)
      decide

theorem family_one : (frag 1 1).Family := (family_iff (wf_frag (by decide)) (by decide)).mpr (by decide)

/-- Of the halves, the left one is on neither side. -/
theorem no_family : (frag 0 1).Wf ∧ (frag 0 1).isLeft = false ∧ (frag 0 1).isRight = false ∧ ¬ (frag 0 1).Family :=
  ⟨wf_frag (by decide), by decide, by decide, fun h => h.side (by decide)⟩

end family

end Frags
end Ceph
