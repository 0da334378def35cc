/-
# Request ids

`osd_reqid_t` says who asked, in which incarnation, and for what. Its operators compare the three
by hand. `<` lets a smaller incarnation decide whatever the names are, so two ids can be smaller
than each other: the order is one where incarnations do not fall as names rise.
-/
import Mathlib.Data.Prod.Lex
import Mathlib.Data.Set.Basic

namespace Ceph
namespace Osd

/-- `entity_name_t`. -/
structure EntityName where
  type : ℤ
  num : ℤ

/-- `operator<` of names. -/
def EntityName.lt (l r : EntityName) : Prop := l.type < r.type ∨ l.type = r.type ∧ l.num < r.num

/-- `osd_reqid_t`. -/
structure ReqId where
  name : EntityName
  inc : ℤ
  tid : ℕ

namespace ReqId

def eq (l r : ReqId) : Prop := l.name = r.name ∧ l.inc = r.inc ∧ l.tid = r.tid

def ne (l r : ReqId) : Prop := l.name ≠ r.name ∨ l.inc ≠ r.inc ∨ l.tid ≠ r.tid

def lt (l r : ReqId) : Prop :=
  l.name.lt r.name ∨ l.inc < r.inc ∨ l.name = r.name ∧ l.inc = r.inc ∧ l.tid < r.tid

def le (l r : ReqId) : Prop :=
  l.name.lt r.name ∨ l.inc < r.inc ∨ l.name = r.name ∧ l.inc = r.inc ∧ l.tid ≤ r.tid

def gt (l r : ReqId) : Prop := ¬ l.le r

def ge (l r : ReqId) : Prop := ¬ l.lt r

/-- On the ids of `S`, `<` is a strict total order up to `==`, and the others are derived from it. -/
structure Ordered (S : Set ReqId) : Prop where
  irrefl : ∀ a ∈ S, ¬ a.lt a
  trans : ∀ a ∈ S, ∀ b ∈ S, ∀ c ∈ S, a.lt b → b.lt c → a.lt c
  total : ∀ a ∈ S, ∀ b ∈ S, a.lt b ∨ a.eq b ∨ b.lt a
  le_iff : ∀ a ∈ S, ∀ b ∈ S, a.le b ↔ a.lt b ∨ a.eq b
  gt_iff : ∀ a ∈ S, ∀ b ∈ S, a.gt b ↔ b.lt a
  ge_iff : ∀ a ∈ S, ∀ b ∈ S, a.ge b ↔ b.lt a ∨ a.eq b
  ne_iff : ∀ a ∈ S, ∀ b ∈ S, a.ne b ↔ ¬ a.eq b

/-- Incarnations do not fall where names rise. -/
def Rising (S : Set ReqId) : Prop := ∀ a ∈ S, ∀ b ∈ S, a.name.lt b.name → a.inc ≤ b.inc

variable {S : Set ReqId} {a b : ReqId}

theorem eq_iff : a.eq b ↔ a = b := by
  obtain ⟨na, ia, ta⟩ := a
  obtain ⟨nb, ib, tb⟩ := b
  simp [eq]

theorem le_iff : a.le b ↔ a.lt b ∨ a.eq b := by
  unfold le lt eq
  simp only [le_iff_lt_or_eq, and_or_left, or_assoc]

/-- Names, then incarnations, then requests. -/
def key (a : ReqId) : ℤ ×ₗ ℤ ×ₗ ℤ ×ₗ ℕ := toLex (a.name.type, toLex (a.name.num, toLex (a.inc, a.tid)))

theorem key_inj : a.key = b.key ↔ a = b := by
  obtain ⟨⟨ta, na⟩, ia, da⟩ := a
  obtain ⟨⟨tb, nb⟩, ib, db⟩ := b
  simp [key, and_assoc]

/-- There, the keys decide. -/
theorem Rising.lt_iff (h : Rising S) (ha : a ∈ S) (hb : b ∈ S) : a.lt b ↔ a.key < b.key := by
  have hab := h b hb a ha
  obtain ⟨⟨ta, na⟩, ia, da⟩ := a
  obtain ⟨⟨tb, nb⟩, ib, db⟩ := b
  simp only [lt, key, EntityName.lt, Prod.Lex.toLex_lt_toLex, EntityName.mk.injEq] at hab ⊢
  omega

/-- **Request ids are ordered** as long as incarnations do not fall where names rise. -/
theorem ordered_iff_rising (S : Set ReqId) : Ordered S ↔ Rising S := by
  constructor
  · intro h a ha b hb hname
    by_contra hfall
    -- each is smaller than the other
    have hab : a.lt b := .inl hname
    have hba : b.lt a := .inr (.inl (not_le.mp hfall))
    exact h.irrefl a ha (h.trans a ha b hb a ha hab hba)
  · intro h
    have hlt : ∀ a ∈ S, ∀ b ∈ S, a.lt b ↔ a.key < b.key := fun a ha b hb => h.lt_iff ha hb
    have htotal : ∀ a ∈ S, ∀ b ∈ S, a.lt b ∨ a.eq b ∨ b.lt a := fun a ha b hb => by
      rw [hlt a ha b hb, hlt b hb a ha, eq_iff, ← key_inj]
      exact lt_trichotomy _ _
    have hasymm : ∀ a ∈ S, ∀ b ∈ S, b.lt a ∨ a.eq b ↔ ¬ a.lt b := fun a ha b hb => by
      rw [hlt a ha b hb, hlt b hb a ha, eq_iff, ← key_inj, not_lt, le_iff_lt_or_eq, @eq_comm _ a.key]
    refine ⟨fun a ha => ?_, fun a ha b hb c hc hab hbc => ?_, htotal, fun _ _ _ _ => le_iff, fun a ha b hb => ?_,
      fun a ha b hb => (hasymm a ha b hb).symm, fun _ _ _ _ => ?_⟩
    · rw [hlt a ha a ha]
      exact lt_irrefl _
    · rw [hlt a ha b hb] at hab
      rw [hlt b hb c hc] at hbc
      rw [hlt a ha c hc]
      exact hab.trans hbc
    · rw [gt, le_iff, hlt a ha b hb, hlt b hb a ha, eq_iff, ← key_inj, not_or, ← not_or, ← le_iff_lt_or_eq, not_le]
    · simp only [ne, eq, not_and_or]

/-- Of two ids, one has the smaller name and the other the smaller incarnation: each is smaller than the other. -/
theorem reqids_unordered : (⟨⟨1, 0⟩, 1, 0⟩ : ReqId).lt ⟨⟨1, 1⟩, 0, 0⟩ ∧ (⟨⟨1, 1⟩, 0, 0⟩ : ReqId).lt ⟨⟨1, 0⟩, 1, 0⟩ ∧
    ¬ Ordered Set.univ := by
  have hab : (⟨⟨1, 0⟩, 1, 0⟩ : ReqId).lt ⟨⟨1, 1⟩, 0, 0⟩ := .inl (.inr ⟨rfl, by decide⟩)
  have hba : (⟨⟨1, 1⟩, 0, 0⟩ : ReqId).lt ⟨⟨1, 0⟩, 1, 0⟩ := .inr (.inl (by decide))
  exact ⟨hab, hba, fun h => h.irrefl _ trivial (h.trans _ trivial _ trivial _ trivial hab hba)⟩

end ReqId
end Osd
end Ceph
