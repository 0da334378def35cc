/-
# Ranges in order, and tiles

Values that stand for ranges of numbers, from `lo` on and short of `hi`. A list has them
in order if none is empty and each ends before the next begins; they tile a range
if they leave no gap in it, either.

Where each value of a list is replaced by tiles of its own range, what the list
covers stays the same, and so does the order.

Key definitions: `InOrder`, `Tiled`, `Covered`, `Replaced`.
Key theorems: `InOrder.unique`, `Tiled.covered_iff`, `Tiled.append_iff`, `Replaced.inOrder`, `Replaced.covered_iff`.
-/
import Mathlib.Algebra.Order.Group.Nat
import Mathlib.Data.List.Basic

namespace Ceph
namespace Tiles

open List

variable {α : Type} (lo hi : α → ℕ)

/-- A value has a number in its range. -/
def Has (a : α) (x : ℕ) : Prop := lo a ≤ x ∧ x < hi a

/-- The ranges are not empty, and lie behind each other. -/
structure InOrder (l : List α) : Prop where
  pos : ∀ a ∈ l, lo a < hi a
  apart : l.Pairwise fun a b => hi a ≤ lo b

/-- The ranges go from `m` to `n` without a gap. -/
def Tiled (m n : ℕ) : List α → Prop
  | [] => m = n
  | a :: l => lo a = m ∧ m < hi a ∧ Tiled (hi a) n l

/-- Some value has the number. -/
def Covered (l : List α) (x : ℕ) : Prop := ∃ a ∈ l, Has lo hi a x

/-- Each value is replaced by values that are `R` to it. -/
inductive Replaced (R : α → List α → Prop) : List α → List α → Prop
  | nil : Replaced R [] []
  | cons {a : α} {l new l' : List α} : R a new → Replaced R l l' → Replaced R (a :: l) (new ++ l')

variable {lo hi} {a b : α} {l l₁ l₂ new l' : List α} {m n k x : ℕ} {R S : α → List α → Prop}

/-! ### Order -/

theorem inOrder_cons : InOrder lo hi (a :: l) ↔ lo a < hi a ∧ (∀ b ∈ l, hi a ≤ lo b) ∧ InOrder lo hi l := by
  constructor
  · intro h
    obtain ⟨hafter, hapart⟩ := pairwise_cons.mp h.apart
    exact ⟨h.pos a mem_cons_self, hafter, fun b hb => h.pos b (mem_cons_of_mem a hb), hapart⟩
  · rintro ⟨hpos, hafter, h⟩
    exact ⟨forall_mem_cons.mpr ⟨hpos, h.pos⟩, pairwise_cons.mpr ⟨hafter, h.apart⟩⟩

theorem inOrder_append : InOrder lo hi (l₁ ++ l₂) ↔
    InOrder lo hi l₁ ∧ InOrder lo hi l₂ ∧ ∀ a ∈ l₁, ∀ b ∈ l₂, hi a ≤ lo b := by
  constructor
  · intro h
    obtain ⟨h1, h2, hcross⟩ := pairwise_append.mp h.apart
    exact ⟨⟨fun a ha => h.pos a (mem_append_left l₂ ha), h1⟩,
      ⟨fun a ha => h.pos a (mem_append_right l₁ ha), h2⟩, hcross⟩
  · rintro ⟨h1, h2, hcross⟩
    exact ⟨forall_mem_append.mpr ⟨h1.pos, h2.pos⟩, pairwise_append.mpr ⟨h1.apart, h2.apart, hcross⟩⟩

theorem InOrder.unique (h : InOrder lo hi l) (ha : a ∈ l) (hb : b ∈ l) (hax : Has lo hi a x) (hbx : Has lo hi b x) :
    a = b := by
  induction l with
  | nil => cases ha
  | cons c l ih =>
    obtain ⟨-, hafter, hl⟩ := inOrder_cons.mp h
    unfold Has at hax hbx
    rcases mem_cons.mp ha with rfl | ha'
    · rcases mem_cons.mp hb with rfl | hb'
      · rfl
      · have := hafter b hb'
        omega
    · rcases mem_cons.mp hb with rfl | hb'
      · have := hafter a ha'
        omega
      · exact ih hl ha' hb'

/-! ### Tiles -/

@[simp] theorem tiled_nil : Tiled lo hi m n [] ↔ m = n := .rfl

@[simp] theorem tiled_cons : Tiled lo hi m n (a :: l) ↔ lo a = m ∧ m < hi a ∧ Tiled lo hi (hi a) n l := .rfl

theorem Tiled.le (h : Tiled lo hi m n l) : m ≤ n := by
  induction l generalizing m with
  | nil => exact h.le
  | cons a l ih => exact h.2.1.le.trans (ih h.2.2)

theorem Tiled.within (h : Tiled lo hi m n l) : ∀ a ∈ l, m ≤ lo a ∧ hi a ≤ n := by
  induction l generalizing m with
  | nil => exact nofun
  | cons b l ih =>
    obtain ⟨hlo, hlt, hrest⟩ := h
    refine forall_mem_cons.mpr ⟨⟨hlo.ge, hrest.le⟩, fun a ha => ?_⟩
    exact (ih hrest a ha).imp_left hlt.le.trans

theorem Tiled.inOrder (h : Tiled lo hi m n l) : InOrder lo hi l := by
  induction l generalizing m with
  | nil => exact ⟨nofun, .nil⟩
  | cons a l ih =>
    obtain ⟨hlo, hlt, hrest⟩ := h
    exact inOrder_cons.mpr ⟨hlo.trans_lt hlt, fun b hb => (hrest.within b hb).1, ih hrest⟩

/-- **A number is in a tile** if it is in the range. -/
theorem Tiled.covered_iff (h : Tiled lo hi m n l) : Covered lo hi l x ↔ m ≤ x ∧ x < n := by
  induction l generalizing m with
  | nil =>
    obtain rfl : m = n := h
    exact ⟨fun ⟨_, ha, _⟩ => absurd ha not_mem_nil, fun hx => absurd (hx.1.trans_lt hx.2) (lt_irrefl m)⟩
  | cons a l ih =>
    obtain ⟨rfl, hlt, hrest⟩ := h
    have hle := hrest.le
    have hcons : Covered lo hi (a :: l) x ↔ Has lo hi a x ∨ Covered lo hi l x := by simp [Covered]
    rw [hcons, ih hrest, Has]
    omega

theorem tiled_append : Tiled lo hi m n (l₁ ++ l₂) ↔ ∃ k, Tiled lo hi m k l₁ ∧ Tiled lo hi k n l₂ := by
  induction l₁ generalizing m with
  | nil => exact ⟨fun h => ⟨m, rfl, h⟩, fun ⟨k, hk, h⟩ => by obtain rfl : m = k := hk; exact h⟩
  | cons a l ih =>
    rw [cons_append, tiled_cons, ih]
    constructor
    · rintro ⟨hlo, hlt, k, h1, h2⟩
      exact ⟨k, ⟨hlo, hlt, h1⟩, h2⟩
    · rintro ⟨k, ⟨hlo, hlt, h1⟩, h2⟩
      exact ⟨hlo, hlt, k, h1, h2⟩

/-! ### Replacing values -/

theorem Replaced.self (h : ∀ a ∈ l, R a [a]) : Replaced R l l := by
  induction l with
  | nil => exact .nil
  | cons a l ih =>
    have := forall_mem_cons.mp h
    exact .cons this.1 (ih this.2)

theorem Replaced.append (h1 : Replaced R l₁ l') (h2 : Replaced R l₂ new) : Replaced R (l₁ ++ l₂) (l' ++ new) := by
  induction h1 with
  | nil => exact h2
  | cons hR _ ih =>
    rw [List.append_assoc]
    exact .cons hR ih

theorem Replaced.of_mem (h : Replaced R l l') (ha : a ∈ l) : ∃ new, R a new ∧ ∀ b ∈ new, b ∈ l' := by
  induction h with
  | nil => cases ha
  | cons hR _ ih =>
    rcases mem_cons.mp ha with rfl | ha
    · exact ⟨_, hR, fun b hb => mem_append_left _ hb⟩
    · obtain ⟨new, hnew, hsub⟩ := ih ha
      exact ⟨new, hnew, fun b hb => mem_append_right _ (hsub b hb)⟩

theorem Replaced.of_mem' (h : Replaced R l l') (hb : b ∈ l') : ∃ a ∈ l, ∃ new, R a new ∧ b ∈ new := by
  induction h with
  | nil => cases hb
  | cons hR _ ih =>
    rcases mem_append.mp hb with hb | hb
    · exact ⟨_, mem_cons_self, _, hR, hb⟩
    · obtain ⟨a, ha, new, hnew, hmem⟩ := ih hb
      exact ⟨a, mem_cons_of_mem _ ha, new, hnew, hmem⟩

section tiles

variable (hR : ∀ a new, R a new → Tiled lo hi (lo a) (hi a) new)

include hR

/-- **The order stays**, if values are replaced by tiles. -/
theorem Replaced.inOrder (h : Replaced R l l') (hl : InOrder lo hi l) : InOrder lo hi l' := by
  induction h with
  | nil => exact hl
  | @cons a l new l' hnew hrest ih =>
    obtain ⟨-, hafter, hl⟩ := inOrder_cons.mp hl
    refine inOrder_append.mpr ⟨(hR a new hnew).inOrder, ih hl, fun b hb c hc => ?_⟩
    obtain ⟨d, hd, new', hnew', hc⟩ := hrest.of_mem' hc
    calc hi b ≤ hi a := ((hR a new hnew).within b hb).2
      _ ≤ lo d := hafter d hd
      _ ≤ lo c := ((hR d new' hnew').within c hc).1

/-- **What is covered stays**, too. -/
theorem Replaced.covered_iff (h : Replaced R l l') : Covered lo hi l' x ↔ Covered lo hi l x := by
  constructor
  · rintro ⟨b, hb, hx⟩
    obtain ⟨a, ha, new, hnew, hmem⟩ := h.of_mem' hb
    exact ⟨a, ha, (hR a new hnew).covered_iff.mp ⟨b, hmem, hx⟩⟩
  · rintro ⟨a, ha, hx⟩
    obtain ⟨new, hnew, hsub⟩ := h.of_mem ha
    obtain ⟨b, hb, hbx⟩ := (hR a new hnew).covered_iff.mpr hx
    exact ⟨b, hsub b hb, hbx⟩

end tiles

end Tiles
end Ceph
