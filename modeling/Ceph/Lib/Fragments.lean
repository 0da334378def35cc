/-
# Sequences known in places

What is known of a sequence is a list of fragments, in order and apart: a fragment begins at a place
and has what is there from it on. A fragment may be empty. At a place, a list of
fragments has the value of the one that reaches over it, if there is one.

Key definitions: `Frag`, `get`, `before`, `after`, `value`, `Apart`, `patch`.
Key theorems: `get_before`, `get_after`, `value_isSome`, `value_of_mem`, `value_insert`, `patch_getElem?`.
-/
import Ceph.Lib.Keyed

namespace Ceph
namespace Fragments

open List Option

variable {α : Type}

/-- Where it begins, and what is there. -/
abbrev Frag (α : Type) : Type := ℕ × List α

/-- Where it ends. -/
def fin (f : Frag α) : ℕ := f.1 + f.2.length

/-- What it has at a place. -/
def get (f : Frag α) (x : ℕ) : Option α := if f.1 ≤ x then f.2[x - f.1]? else none

/-- The part of a fragment before a place, and the part from it on. -/
def before (c : ℕ) (f : Frag α) : Frag α := (f.1, f.2.take (c - f.1))

def after (c : ℕ) (f : Frag α) : Frag α := (c, f.2.drop (c - f.1))

/-- What is known of a place. -/
def value (l : List (Frag α)) (x : ℕ) : Option α := l.findSome? (get · x)

/-- The fragments are in order, and apart. -/
def Apart (l : List (Frag α)) : Prop := l.Pairwise fun f g => fin f ≤ g.1 ∧ f.1 < g.1

/-- A list with a fragment laid over it. -/
def patch (b : List α) (f : Frag α) : List α := b.take f.1 ++ f.2 ++ b.drop (fin f)

variable {f g : Frag α} {l l₁ l₂ : List (Frag α)} {b : List α} {c x : ℕ} {v : α}

/-! ### One fragment -/

theorem get_isSome : (get f x).isSome ↔ f.1 ≤ x ∧ x < fin f := by
  unfold get fin
  split_ifs with h
  · rw [isSome_getElem?]
    omega
  · exact iff_of_false nofun fun hx => h hx.1

theorem get_from (h : f.1 ≤ x) : get f x = f.2[x - f.1]? := if_pos h

theorem get_outside (h : ¬ (f.1 ≤ x ∧ x < fin f)) : get f x = none := by
  rw [← not_isSome_iff_eq_none, get_isSome]
  exact h

theorem fin_before (hc : f.1 ≤ c ∧ c ≤ fin f) : fin (before c f) = c := by
  unfold fin at hc
  simp only [fin, before, length_take]
  omega

theorem fin_after (hc : f.1 ≤ c ∧ c ≤ fin f) : fin (after c f) = fin f := by
  unfold fin at hc
  simp only [fin, after, length_drop]
  omega

theorem get_before (hc : f.1 ≤ c) (x : ℕ) : get (before c f) x = if x < c then get f x else none := by
  simp only [get, before, getElem?_take]
  split_ifs <;> first | rfl | omega

theorem get_after (hc : f.1 ≤ c) (x : ℕ) : get (after c f) x = if x < c then none else get f x := by
  simp only [get, after, getElem?_drop]
  split_ifs with hle hlt hlt h
  · omega
  · congr 1
    omega
  · omega
  · rfl
  · omega
  · omega

/-! ### All fragments -/

theorem value_cons (f : Frag α) (l : List (Frag α)) (x : ℕ) : value (f :: l) x = (get f x).or (value l x) := by
  rw [value, findSome?_cons]
  cases get f x <;> rfl

theorem value_append (l₁ l₂ : List (Frag α)) (x : ℕ) : value (l₁ ++ l₂) x = (value l₁ x).or (value l₂ x) :=
  findSome?_append

theorem value_isSome : (value l x).isSome ↔ ∃ f ∈ l, f.1 ≤ x ∧ x < fin f := by
  rw [value, findSome?_isSome_iff]
  exact exists_congr fun f => and_congr_right fun _ => get_isSome

theorem value_outside (h : ∀ f ∈ l, ¬ (f.1 ≤ x ∧ x < fin f)) : value l x = none := by
  rw [← not_isSome_iff_eq_none, value_isSome]
  rintro ⟨f, hf, hx⟩
  exact h f hf hx

theorem value_of_mem (h : Apart l) (hf : f ∈ l) (hx : f.1 ≤ x ∧ x < fin f) : value l x = get f x := by
  obtain ⟨pre, post, rfl⟩ := append_of_mem hf
  obtain ⟨-, -, hcross⟩ := pairwise_append.mp h
  have hpre : value pre x = none := value_outside fun g hg hin => by
    have := (hcross g hg f mem_cons_self).1
    omega
  rw [value_append, hpre, none_or, value_cons, or_of_isSome (get_isSome.mpr hx)]

theorem value_eq_some (h : Apart l) : value l x = some v ↔ ∃ f ∈ l, get f x = some v := by
  constructor
  · intro hv
    obtain ⟨f, hf, hx⟩ := value_isSome.mp (isSome_of_eq_some hv)
    exact ⟨f, hf, (value_of_mem h hf hx).symm.trans hv⟩
  · rintro ⟨f, hf, hv⟩
    have hx := get_isSome.mp (isSome_of_eq_some hv)
    exact (value_of_mem h hf hx).trans hv

/-- **A fragment is put among others** that leave room for it; those that begin there too are empty. -/
theorem apart_insert (h : Apart l) (hroom : ∀ g ∈ l, fin g ≤ f.1 ∨ fin f ≤ g.1) :
    Apart (Keyed.insert Prod.fst f l) := by
  refine pairwise_append.mpr ⟨h.filter _, pairwise_cons.mpr ⟨fun g hg => ?_, h.filter _⟩, fun g hg => ?_⟩
  · obtain ⟨hmem, hlt⟩ := mem_filter.mp hg
    have hlt := of_decide_eq_true hlt
    refine ⟨(hroom g hmem).resolve_left fun hle => ?_, hlt⟩
    unfold fin at hle
    omega
  · obtain ⟨hmem, hlt⟩ := mem_filter.mp hg
    have hlt := of_decide_eq_true hlt
    have hfin : fin g ≤ f.1 := by
      refine (hroom g hmem).resolve_right fun hle => ?_
      unfold fin at hle
      omega
    refine forall_mem_cons.mpr ⟨⟨hfin, hlt⟩, fun c hc => ?_⟩
    have hc := of_decide_eq_true (mem_filter.mp hc).2
    exact ⟨hfin.trans hc.le, hlt.trans hc⟩

theorem value_insert (h : Apart l) (hroom : ∀ g ∈ l, fin g ≤ f.1 ∨ fin f ≤ g.1) (hempty : ∀ g ∈ l, g.1 = f.1 → g.2 = [])
    (x : ℕ) :
    value (Keyed.insert Prod.fst f l) x = (get f x).or (value l x) := by
  have hinsert := apart_insert h hroom
  by_cases hx : f.1 ≤ x ∧ x < fin f
  · have hmem : f ∈ Keyed.insert Prod.fst f l := mem_append_right _ mem_cons_self
    rw [value_of_mem hinsert hmem hx, or_of_isSome (get_isSome.mpr hx)]
  · rw [get_outside hx, none_or]
    refine Option.ext fun v => ?_
    rw [value_eq_some hinsert, value_eq_some h]
    refine exists_congr fun g => ?_
    rw [Keyed.mem_insert]
    constructor
    · rintro ⟨rfl | ⟨hg, -⟩, hv⟩
      · rw [get_outside hx] at hv
        cases hv
      · exact ⟨hg, hv⟩
    · rintro ⟨hg, hv⟩
      refine ⟨.inr ⟨hg, fun hkey => ?_⟩, hv⟩
      obtain ⟨k, c⟩ := g
      obtain rfl : c = [] := hempty _ hg hkey
      rw [get_outside fun hin => by simp only [fin, length_nil] at hin; omega] at hv
      cases hv

/-! ### Laid over a list -/

theorem length_patch (h : fin f ≤ b.length) : (patch b f).length = b.length := by
  unfold fin at h
  simp only [patch, fin, List.length_append, length_take, length_drop]
  omega

theorem patch_getElem? (h : fin f ≤ b.length) (x : ℕ) : (patch b f)[x]? = (get f x).or b[x]? := by
  unfold fin at h
  have hleft : (b.take f.1).length = f.1 := length_take_of_le (by omega)
  rw [patch, List.append_assoc]
  rcases lt_or_ge x f.1 with hlow | hhigh
  · rw [getElem?_append_left (by omega), get_outside (by omega), none_or, getElem?_take,
      if_pos hlow]
  · rw [getElem?_append_right (by omega), hleft]
    rcases lt_or_ge x (fin f) with hin | hout
    · rw [or_of_isSome (get_isSome.mpr ⟨hhigh, hin⟩), get_from hhigh]
      unfold fin at hin
      exact getElem?_append_left (by omega)
    · rw [get_outside (by omega), none_or]
      unfold fin at hout
      rw [getElem?_append_right (by omega), getElem?_drop, fin]
      congr 1
      omega

end Fragments
end Ceph
