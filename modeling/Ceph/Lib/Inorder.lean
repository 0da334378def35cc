/-
# Complete binary trees numbered in order

The nodes of a complete binary tree are numbered from left to right as an
in-order walk meets them, from 1 on: the leaves are the odd numbers, and the
`k`-th node at height `h` is `node h k = 2 ^ h * (2 * k + 1)`, whatever the size
of the tree. The leaves below it are those whose index divided by `2 ^ h` is
`k`, and `span` is the sum of what they carry.

Key definitions: `node`, `span`.
Key theorems: `exists_node`, `node_left`, `node_right`, `node_up`, `node_lt_iff`,
`span_succ`, `span_top`.
-/
import Mathlib.Data.Nat.Factorization.Basic
import Mathlib.Tactic.Ring

namespace Ceph
namespace Inorder

open Finset

/-- The `k`-th node at height `h`. -/
def node (h k : ℕ) : ℕ := 2 ^ h * (2 * k + 1)

theorem node_leaf (k : ℕ) : node 0 k = 2 * k + 1 := by
  simp [node]

theorem node_root (h : ℕ) : node h 0 = 2 ^ h := by
  simp [node]

theorem exists_node {n : ℕ} (h : 0 < n) : ∃ a k, n = node a k := by
  obtain ⟨a, m, hodd, rfl⟩ := Nat.exists_eq_two_pow_mul_odd h.ne'
  obtain ⟨k, rfl⟩ := hodd
  exact ⟨a, k, rfl⟩

theorem node_double (h k : ℕ) : node (h + 1) k = 2 * node h k := by
  unfold node
  ring

theorem node_odd_iff (h k : ℕ) : node h k % 2 = 1 ↔ h = 0 := by
  cases h with
  | zero =>
    rw [node_leaf]
    omega
  | succ h =>
    rw [node_double]
    omega

theorem node_inj : ∀ {h k h' k' : ℕ}, node h k = node h' k' → h = h' ∧ k = k'
  | 0, k, 0, k', he => by
    rw [node_leaf, node_leaf] at he
    exact ⟨rfl, by omega⟩
  | 0, k, h' + 1, k', he => by
    rw [node_leaf, node_double] at he
    omega
  | h + 1, k, 0, k', he => by
    rw [node_leaf, node_double] at he
    omega
  | h + 1, k, h' + 1, k', he => by
    rw [node_double, node_double] at he
    obtain ⟨rfl, rfl⟩ := node_inj (Nat.eq_of_mul_eq_mul_left two_pos he)
    exact ⟨rfl, rfl⟩

theorem node_left (h k : ℕ) : node h (2 * k) = node (h + 1) k - 2 ^ h := by
  have hsum : node (h + 1) k = node h (2 * k) + 2 ^ h := by
    unfold node
    ring
  omega

theorem node_right (h k : ℕ) : node h (2 * k + 1) = node (h + 1) k + 2 ^ h := by
  unfold node
  ring

theorem node_up (h k : ℕ) :
    node (h + 1) (k / 2) = if k % 2 = 1 then node h k - 2 ^ h else node h k + 2 ^ h := by
  split_ifs with hk
  · have hk' : k = 2 * (k / 2) + 1 := by omega
    have hright := node_right h (k / 2)
    rw [← hk'] at hright
    omega
  · have hk' : k = 2 * (k / 2) := by omega
    have hsum : node (h + 1) (k / 2) = node h (2 * (k / 2)) + 2 ^ h := by
      unfold node
      ring
    rw [hsum, ← hk']

/-- The nodes at height `h` of the tree with nodes below `2 ^ d`. -/
theorem node_lt_iff {h d : ℕ} (hd : h < d) (k : ℕ) : node h k < 2 ^ d ↔ k < 2 ^ (d - (h + 1)) := by
  obtain ⟨e, rfl⟩ := Nat.exists_eq_add_of_lt hd
  have hpow : 2 ^ (h + e + 1) = 2 ^ h * (2 * 2 ^ e) := by ring
  have hexp : h + e + 1 - (h + 1) = e := by omega
  rw [node, hpow, hexp, Nat.mul_lt_mul_left (Nat.two_pow_pos h)]
  omega

/-- A node below `2 ^ d` is of a height below `d`. -/
theorem height_lt {h k d : ℕ} (hn : node h k < 2 ^ d) : h < d := by
  by_contra hge
  have hle : 2 ^ d ≤ 2 ^ h := Nat.pow_le_pow_right two_pos (not_lt.mp hge)
  have hself : 2 ^ h ≤ node h k := Nat.le_mul_of_pos_right _ (Nat.succ_pos _)
  omega

theorem node_left_lt {h k d : ℕ} (hn : node (h + 1) k < 2 ^ d) : node h (2 * k) < 2 ^ d := by
  rw [node_left]
  exact lt_of_le_of_lt (Nat.sub_le _ _) hn

theorem node_right_lt {h k d : ℕ} (hn : node (h + 1) k < 2 ^ d) : node h (2 * k + 1) < 2 ^ d := by
  have hd := height_lt hn
  have hk := (node_lt_iff hd k).mp hn
  have hpow : 2 ^ (d - (h + 1)) = 2 * 2 ^ (d - (h + 1 + 1)) := by
    rw [← pow_succ']
    congr 1
    omega
  rw [node_lt_iff (Nat.lt_of_succ_lt hd), hpow]
  omega

/-! ### What the leaves below a node carry -/

variable {M : Type} [AddCommMonoid M]

/-- The sum over the leaves below the `k`-th node at height `h`, of `n` leaves. -/
def span (w : ℕ → M) (n h k : ℕ) : M := ∑ i ∈ (Finset.range n).filter fun i => i / 2 ^ h = k, w i

theorem span_zero (w : ℕ → M) (h k : ℕ) : span w 0 h k = 0 := rfl

theorem span_leaf (w : ℕ → M) (n k : ℕ) : span w n 0 k = if k < n then w k else 0 := by
  unfold span
  simp only [pow_zero, Nat.div_one, sum_filter, sum_ite_eq', mem_range]

theorem span_add (w : ℕ → M) (n h k : ℕ) : span w (n + 1) h k = span w n h k + if n / 2 ^ h = k then w n else 0 := by
  unfold span
  rw [sum_filter, sum_filter, sum_range_succ]

/-- **A node carries what its two children carry.** -/
theorem span_succ (w : ℕ → M) (n h k : ℕ) : span w n (h + 1) k = span w n h (2 * k) + span w n h (2 * k + 1) := by
  unfold span
  rw [sum_filter, sum_filter, sum_filter, ← sum_add_distrib]
  refine sum_congr rfl fun i _ => ?_
  have hdiv : i / 2 ^ (h + 1) = i / 2 ^ h / 2 := by
    rw [pow_succ, Nat.div_div_eq_div_mul]
  rw [hdiv]
  by_cases h0 : i / 2 ^ h = 2 * k
  · have h1 : i / 2 ^ h ≠ 2 * k + 1 := by omega
    have hk : i / 2 ^ h / 2 = k := by omega
    rw [if_pos h0, if_neg h1, if_pos hk, add_zero]
  · by_cases h1 : i / 2 ^ h = 2 * k + 1
    · have hk : i / 2 ^ h / 2 = k := by omega
      rw [if_neg h0, if_pos h1, if_pos hk, zero_add]
    · have hk : i / 2 ^ h / 2 ≠ k := by omega
      rw [if_neg h0, if_neg h1, if_neg hk, add_zero]

theorem span_top (w : ℕ → M) {n h : ℕ} (hn : n ≤ 2 ^ h) : span w n h 0 = ∑ i ∈ range n, w i := by
  unfold span
  rw [filter_true_of_mem]
  intro i hi
  rw [mem_range] at hi
  exact Nat.div_eq_of_lt (by omega)

theorem span_le (w : ℕ → ℕ) (n h k : ℕ) : span w n h k ≤ ∑ i ∈ range n, w i :=
  sum_le_sum_of_subset (filter_subset _ _)

end Inorder
end Ceph
