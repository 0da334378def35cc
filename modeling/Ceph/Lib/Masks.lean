/-
# Sets of bits

A word of `w` bits stands for the set of its bits: `a ||| b` is the union, `a &&& ~~~b` what of `a` is not in
`b`, and `Within a b` says that there is nothing of the kind. `gather` is the union of the words at `n` places
from one on.

Key definitions: `Within`, `gather`.
Key theorems: `within_iff`, `or_within`, `gather_append`.
-/
import Mathlib.Tactic

namespace Ceph
namespace Masks

variable {w : ℕ} {a b c : BitVec w}

/-- Each bit of `a` is one of `b`. -/
def Within (a b : BitVec w) : Prop := a &&& ~~~b = 0

instance : Decidable (Within a b) := inferInstanceAs (Decidable (a &&& ~~~b = 0))

theorem within_iff : Within a b ↔ ∀ i, a.getLsbD i = true → b.getLsbD i = true := by
  constructor
  · intro h i ha
    have hbit : (a &&& ~~~b).getLsbD i = false := by rw [h]; exact BitVec.getLsbD_zero
    have hlt := BitVec.lt_of_getLsbD ha
    rw [BitVec.getLsbD_and, BitVec.getLsbD_not, ha, decide_eq_true hlt, Bool.true_and, Bool.true_and] at hbit
    simpa using hbit
  · intro h
    apply BitVec.eq_of_getLsbD_eq
    intro i hlt
    cases ha : a.getLsbD i with
    | false => simp [ha]
    | true => simp [h i ha]

@[simp] theorem Within.refl (a : BitVec w) : Within a a := within_iff.mpr fun _ h => h

@[simp] theorem zero_within (a : BitVec w) : Within 0 a := within_iff.mpr fun i h => by simp at h

theorem Within.trans (hab : Within a b) (hbc : Within b c) : Within a c :=
  within_iff.mpr fun i h => within_iff.mp hbc i (within_iff.mp hab i h)

theorem within_zero (h : Within a 0) : a = 0 := by
  unfold Within at h
  simpa using h

theorem Within.antisymm (hab : Within a b) (hba : Within b a) : a = b := by
  apply BitVec.eq_of_getLsbD_eq
  intro i _
  exact Bool.eq_iff_iff.mpr ⟨within_iff.mp hab i, within_iff.mp hba i⟩

theorem or_within : Within (a ||| b) c ↔ Within a c ∧ Within b c := by
  simp only [within_iff, BitVec.getLsbD_or, Bool.or_eq_true]
  exact ⟨fun h => ⟨fun i ha => h i (.inl ha), fun i hb => h i (.inr hb)⟩, fun h i => Or.rec (h.1 i) (h.2 i)⟩

theorem within_or_left (a b : BitVec w) : Within a (a ||| b) := (or_within.mp (.refl _)).1

theorem within_or_right (a b : BitVec w) : Within b (a ||| b) := (or_within.mp (.refl _)).2

theorem and_within (a b : BitVec w) : Within (a &&& b) a := by
  rw [within_iff]
  intro i h
  rw [BitVec.getLsbD_and, Bool.and_eq_true] at h
  exact h.1

theorem within_split (h : Within b a) : (a &&& ~~~b) ||| b = a := by
  apply Within.antisymm
  · exact or_within.mpr ⟨and_within a _, h⟩
  · rw [within_iff]
    intro i ha
    have hlt := BitVec.lt_of_getLsbD ha
    cases hb : b.getLsbD i <;> simp [ha, hb, hlt]

/-- Another word within `a` leaves something of it out. -/
theorem split_ne_zero (h : Within b a) (hne : a ≠ b) : a &&& ~~~b ≠ 0 := fun h0 => hne (Within.antisymm h0 h)

/-! ### The union of several -/

/-- The union of the words at `n` places from `k` on. -/
def gather (f : ℕ → BitVec w) (k : ℕ) : ℕ → BitVec w
  | 0 => 0
  | n + 1 => gather f k n ||| f (k + n)

variable {f g : ℕ → BitVec w} {k n : ℕ}

theorem within_gather {i : ℕ} : ∀ {n : ℕ}, i < n → Within (f (k + i)) (gather f k n)
  | n + 1, hi => by
    rcases Nat.lt_succ_iff_lt_or_eq.mp hi with hlt | rfl
    · exact (within_gather hlt).trans (within_or_left _ _)
    · exact within_or_right _ _

theorem gather_congr (h : ∀ i < n, f (k + i) = g (k + i)) : gather f k n = gather g k n := by
  induction n with
  | zero => rfl
  | succ n ih => rw [gather, gather, ih fun i hi => h i (by omega), h n (by omega)]

theorem gather_append (f : ℕ → BitVec w) (k m : ℕ) : ∀ n, gather f k (m + n) = gather f k m ||| gather f (k + m) n
  | 0 => by simp [gather]
  | n + 1 => by rw [← add_assoc, gather, gather_append f k m n, gather, BitVec.or_assoc, add_assoc]

theorem within_gather_of_mem {i : ℕ} (hlow : k ≤ i) (hhigh : i < k + n) : Within (f i) (gather f k n) := by
  have hi := within_gather (f := f) (k := k) (show i - k < n by omega)
  rwa [Nat.add_sub_cancel' hlow] at hi

end Masks
end Ceph
