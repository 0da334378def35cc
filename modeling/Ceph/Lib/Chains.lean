/-
# Chains in a forest

Each node of a forest that is there is a root or has a parent; `up` says which
(`none`: the node is not there). `Chain up a l` says that going up from `a` one
meets the nodes `l` and ends at a root. There is one chain from a node at most,
it meets no node twice, and it stays where nodes that are not on it change.

Key definitions: `Chain`.
Key theorems: `Chain.unique`, `Chain.nodup`, `Chain.congr`, `Chain.of_mem`.
-/
import Mathlib.Data.Finset.Card

namespace Ceph
namespace Forest

open List

variable {α : Type} {up up' : α → Option (Option α)}

/-- The way up from a node to a root. -/
inductive Chain (up : α → Option (Option α)) : α → List α → Prop
  | root {a : α} : up a = some none → Chain up a [a]
  | child {a b : α} {l : List α} : up a = some (some b) → Chain up b l → Chain up a (a :: l)

variable {a : α} {l : List α}

theorem Chain.unique {l l' : List α} (h : Chain up a l) (h' : Chain up a l') : l = l' := by
  induction h generalizing l' with
  | root ha =>
    cases h' with
    | root => rfl
    | child hb => cases ha.symm.trans hb
  | child ha _ ih =>
    cases h' with
    | root hb => cases ha.symm.trans hb
    | child hb hl =>
      cases ha.symm.trans hb
      rw [ih hl]

theorem Chain.mem_self (h : Chain up a l) : a ∈ l := by
  cases h <;> exact mem_cons_self

theorem Chain.there (h : Chain up a l) : ∀ i ∈ l, up i ≠ none := by
  induction h with
  | root ha =>
    intro i hi
    rw [mem_singleton.mp hi, ha]
    nofun
  | child ha _ ih =>
    refine forall_mem_cons.mpr ⟨?_, ih⟩
    rw [ha]
    nofun

theorem Chain.of_mem {a i : α} (h : Chain up a l) (hi : i ∈ l) : ∃ l', Chain up i l' ∧ l' <:+ l := by
  induction h with
  | root ha =>
    cases mem_singleton.mp hi
    exact ⟨_, .root ha, suffix_refl _⟩
  | child ha hl ih =>
    obtain rfl | hi := mem_cons.mp hi
    · exact ⟨_, .child ha hl, suffix_refl _⟩
    · obtain ⟨l', hl', hsuf⟩ := ih hi
      exact ⟨l', hl', hsuf.trans (suffix_cons _ _)⟩

theorem Chain.nodup (h : Chain up a l) : l.Nodup := by
  induction h with
  | root => exact nodup_singleton _
  | @child a b l ha hl ih =>
    refine nodup_cons.mpr ⟨fun hmem => ?_, ih⟩
    -- from `a`, met again, the chain would be as long as it is from its start
    obtain ⟨l', hl', hsuf⟩ := hl.of_mem hmem
    have heq := (Chain.child ha hl).unique hl'
    have hlen := hsuf.length_le
    rw [← heq, length_cons] at hlen
    omega

theorem Chain.congr (h : Chain up a l) (heq : ∀ i ∈ l, up' i = up i) : Chain up' a l := by
  induction h with
  | root ha => exact .root ((heq _ (mem_singleton_self _)).trans ha)
  | child ha _ ih =>
    obtain ⟨h, hl⟩ := forall_mem_cons.mp heq
    exact .child (h.trans ha) (ih hl)

theorem Chain.length_le [DecidableEq α] {nodes : Finset α} (h : Chain up a l)
    (hnodes : ∀ i, up i ≠ none → i ∈ nodes) : l.length ≤ nodes.card := by
  rw [← toFinset_card_of_nodup h.nodup]
  exact Finset.card_le_card fun i hi => hnodes i (h.there i (List.mem_toFinset.mp hi))

end Forest
end Ceph
