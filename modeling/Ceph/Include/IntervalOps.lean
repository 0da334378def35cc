/-
# Operations on whole interval sets

The operations of `interval_set<T>` on two sets work their way through the intervals
of the maps: `intersection_of` goes along both and inserts what their intervals share,
`subtract` erases the intervals of the other set one by one, and `union_of` subtracts from one
what it shares with the other before it inserts that.

An interval set has the intervals as long as they can be, so that any range
of numbers that are all in the set lies in one of them: this is what `erase` asks for.
-/
import Ceph.Include.IntervalSet

namespace Ceph
namespace IntervalSet

open List

/-! ### The code -/

/-- `contains(i)`. -/
def IntervalSet.contains (s : IntervalSet) (i : ℕ) : Bool :=
  s.m[findInc s.m i]?.any fun p => p.1 ≤ i ∧ i < u64 (p.1 + p.2)

/-- `contains(start, len)`. -/
def IntervalSet.containsRange (s : IntervalSet) (start len : ℕ) : Bool :=
  s.m[findInc s.m start]?.any fun p => p.1 ≤ start ∧ start < u64 (p.1 + p.2) ∧ u64 (start + len) ≤ u64 (p.1 + p.2)

/-- The loop of `intersection_of`, from two iterators on. -/
def intersectionLoop : ℕ → Intervals → Intervals → IntervalSet → Option IntervalSet
  | fuel + 1, p :: pa, q :: pb, s =>
    if u64 (p.1 + p.2) ≤ q.1 then intersectionLoop fuel pa (q :: pb) s          -- passing?
    else if u64 (q.1 + q.2) ≤ p.1 then intersectionLoop fuel (p :: pa) pb s
    else
      let start := max p.1 q.1
      let stop := min (u64 (p.1 + p.2)) (u64 (q.1 + q.2))
      if stop ≤ start then none
      else (s.insert start (stop - start)).bind fun s =>
        if u64 (q.1 + q.2) < u64 (p.1 + p.2) then intersectionLoop fuel (p :: pa) pb s
        else intersectionLoop fuel pa (q :: pb) s
  | _, _, _, s => some s

/-- `intersection_of(a, b)`. Each step passes an interval. -/
def intersectionOf (a b : IntervalSet) : Option IntervalSet :=
  intersectionLoop (a.m.length + b.m.length) a.m b.m empty

/-- `subtract(a)`. -/
def IntervalSet.subtract (s a : IntervalSet) : Option IntervalSet := a.m.foldlM (fun s p => s.erase p.1 p.2) s

/-- `insert(a)`. -/
def IntervalSet.insertAll (s a : IntervalSet) : Option IntervalSet := a.m.foldlM (fun s p => s.insert p.1 p.2) s

/-- `union_of(a, b)`. It takes over the map of `a`, but not its size. -/
def unionOf (a b : IntervalSet) : Option IntervalSet :=
  (intersectionOf a b).bind fun ab => (IntervalSet.subtract ⟨a.m, 0⟩ ab).bind fun s => s.insertAll b

/-! ### Their meaning -/

section ops

variable {a b s : IntervalSet} {pa pb : Intervals} {p q : ℕ × ℕ} {x start len : ℕ}

theorem Wf.head (h : Wf (p :: pa)) : Wf pa ∧ ∀ q ∈ pa, p.1 + p.2 < q.1 :=
  ⟨h.sublist (sublist_cons_self p pa), (@Wf.sides [] _ _ h).2⟩

theorem covers_behind (h : Wf (p :: pa)) (hx : Covers pa x) : p.1 + p.2 < x := by
  obtain ⟨q, hq, hle, -⟩ := hx
  exact lt_of_lt_of_le (h.head.2 q hq) hle

/-- **`subtract`** takes a part of the set away, and asserts that it is one. -/
theorem subtract_cases (hs : Wf s.m) (ha : Wf a.m) : ((∀ x, Covers a.m x → Covers s.m x) ∧
      ∃ t, s.subtract a = some t ∧ Becomes s t fun x => Covers s.m x ∧ ¬ Covers a.m x) ∨
    (∃ x, Covers a.m x ∧ ¬ Covers s.m x) ∧ s.subtract a = none := by
  obtain ⟨m, size⟩ := a
  unfold IntervalSet.subtract
  induction m generalizing s with
  | nil => exact .inl ⟨nofun, s, rfl, hs, fun x => by simp [covers_nil], id⟩
  | cons p m ih =>
    simp only [covers_cons, foldlM_cons]
    rcases erase_cases hs (ha.pos p mem_cons_self) (ha.bound p mem_cons_self) with
      ⟨hin, t, ht, hb⟩ | ⟨⟨x, h1, h2, hx⟩, hnone⟩
    · rw [ht]
      have hkept : ∀ x, Covers m x → (Covers t.m x ↔ Covers s.m x) := fun x hx => by
        have := covers_behind ha hx
        rw [hb.covers]
        exact and_iff_left (by omega)
      rcases ih hb.wf ha.head.1 with ⟨hsub, t', ht', hb'⟩ | ⟨⟨x, hx, hn⟩, hnone⟩
      · refine .inl ⟨fun x hx => ?_, t', ht', (hb.trans hb').congr fun x => ?_⟩
        · exact hx.elim (fun hx => hin x hx.1 hx.2) fun hx => (hkept x hx).mp (hsub x hx)
        · rw [hb.covers, not_or, Holds, and_assoc]
      · exact .inr ⟨⟨x, .inr hx, fun hc => hn ((hkept x hx).mpr hc)⟩, hnone⟩
    · exact .inr ⟨⟨x, .inl ⟨h1, h2⟩, hx⟩, by rw [hnone]; rfl⟩

theorem subtract_spec (hs : Wf s.m) (ha : Wf a.m) (hsub : ∀ x, Covers a.m x → Covers s.m x) :
    ∃ t, s.subtract a = some t ∧ Becomes s t fun x => Covers s.m x ∧ ¬ Covers a.m x := by
  rcases subtract_cases hs ha with ⟨-, h⟩ | ⟨⟨x, hx, hn⟩, -⟩
  · exact h
  · exact absurd (hsub x hx) hn

/-- **`insert`** of a set asserts that it has nothing in common with this one, unless one of its intervals slips in. -/
theorem insertAll_cases (hs : Wf s.m) (ha : Wf a.m) (hslip : ∀ p ∈ a.m, ¬ Slips s.m p.1 p.2) :
    ((∀ x, Covers a.m x → ¬ Covers s.m x) ∧
      ∃ t, s.insertAll a = some t ∧ Becomes s t fun x => Covers s.m x ∨ Covers a.m x) ∨
    (∃ x, Covers a.m x ∧ Covers s.m x) ∧ s.insertAll a = none := by
  obtain ⟨m, size⟩ := a
  unfold IntervalSet.insertAll
  induction m generalizing s with
  | nil => exact .inl ⟨nofun, s, rfl, hs, fun x => by simp [covers_nil], id⟩
  | cons p m ih =>
    simp only [covers_cons, foldlM_cons]
    rcases insert_cases hs (ha.pos p mem_cons_self) (ha.bound p mem_cons_self) with
      ⟨hout, t, ht, hb⟩ | ⟨⟨x, h1, h2, hx⟩, hnone⟩
    · rw [ht]
      have hkept : ∀ x, p.1 + p.2 ≤ x → (Covers t.m x ↔ Covers s.m x) := fun x hx => by
        rw [hb.covers]
        exact or_iff_left (by omega)
      have hslip' : ∀ q ∈ m, ¬ Slips t.m q.1 q.2 := by
        rintro q hq ⟨hpos, hbef, hn, x, h1, h2, hx⟩
        have := ha.head.2 q hq
        rw [hkept _ (by omega)] at hbef hn hx
        exact hslip q (mem_cons_of_mem p hq) ⟨hpos, hbef, hn, x, h1, h2, hx⟩
      rcases ih hb.wf ha.head.1 hslip' with ⟨hdisj, t', ht', hb'⟩ | ⟨⟨x, hx, hc⟩, hnone⟩
      · refine .inl ⟨fun x hx => ?_, t', ht', (hb.trans hb').congr fun x => ?_⟩
        · refine hx.elim (fun hx => hout x hx.1 hx.2) fun hx => ?_
          rw [← hkept x (covers_behind ha hx).le]
          exact hdisj x hx
        · rw [hb.covers, Holds, or_assoc]
      · exact .inr ⟨⟨x, .inr hx, (hkept x (covers_behind ha hx).le).mp hc⟩, hnone⟩
    · rcases hnone with hnone | hslips
      · exact .inr ⟨⟨x, .inl ⟨h1, h2⟩, hx⟩, by rw [hnone]; rfl⟩
      · exact absurd hslips (hslip p mem_cons_self)

theorem insertAll_spec (hs : Wf s.m) (ha : Wf a.m) (hdisj : ∀ x, Covers a.m x → ¬ Covers s.m x) :
    ∃ t, s.insertAll a = some t ∧ Becomes s t fun x => Covers s.m x ∨ Covers a.m x := by
  have hslip : ∀ p ∈ a.m, ¬ Slips s.m p.1 p.2 := fun p hp ⟨_, _, _, x, h1, h2, hx⟩ => hdisj x ⟨p, hp, h1, h2⟩ hx
  rcases insertAll_cases hs ha hslip with ⟨-, h⟩ | ⟨⟨x, hx, hc⟩, -⟩
  · exact h
  · exact absurd hc (hdisj x hx)

/-- What an interval that ends first has in common with the other map is in the first interval of that. -/
theorem shared_head (hb : Wf (q :: pb)) (hle : p.1 + p.2 ≤ q.1 + q.2) (x : ℕ) :
    Covers (p :: pa) x ∧ Covers (q :: pb) x ↔ (Holds x p ∧ Holds x q) ∨ Covers pa x ∧ Covers (q :: pb) x := by
  have hpast : Holds x p → ¬ Covers pb x := fun hx hc => by
    have := covers_behind hb hc
    have := hx.2
    omega
  simp only [covers_cons]
  tauto

/-- The loop inserts what the rest of the maps has in common. -/
theorem intersectionLoop_spec (fuel : ℕ) (hfuel : pa.length + pb.length ≤ fuel) (hs : Wf s.m) (hpa : Wf pa) (hpb : Wf pb)
    (hnew : ∀ x, Covers s.m x → ¬ (Covers pa x ∧ Covers pb x)) :
    ∃ t, intersectionLoop fuel pa pb s = some t ∧ Becomes s t fun x => Covers s.m x ∨ Covers pa x ∧ Covers pb x := by
  induction fuel generalizing pa pb s with
  | zero =>
    obtain rfl : pa = [] := eq_nil_iff_length_eq_zero.mpr (by omega)
    exact ⟨s, rfl, hs, fun x => by simp [covers_nil], id⟩
  | succ fuel ih =>
    match pa, pb with
    | [], pb => exact ⟨s, by cases pb <;> rfl, hs, fun x => by simp [covers_nil], id⟩
    | p :: pa, [] => exact ⟨s, rfl, hs, fun x => by simp [covers_nil], id⟩
    | p :: pa, q :: pb =>
      have hp := hpa.pos p mem_cons_self
      have hq := hpb.pos q mem_cons_self
      have hub := hpa.bound p mem_cons_self
      have hvb := hpb.bound q mem_cons_self
      simp only [length_cons] at hfuel
      -- to pass an interval after inserting what it has in common with the first of the other map
      have hpassa : ∀ {s' : IntervalSet}, p.1 + p.2 ≤ q.1 + q.2 →
          Becomes s s' (fun x => Covers s.m x ∨ Holds x p ∧ Holds x q) → ∃ t, intersectionLoop fuel pa (q :: pb) s' = some t ∧
            Becomes s t fun x => Covers s.m x ∨ Covers (p :: pa) x ∧ Covers (q :: pb) x := fun {s'} hle hb => by
        obtain ⟨t, ht, hbt⟩ := ih (by rw [length_cons]; omega) hb.wf hpa.head.1 hpb fun x hx hc => by
          rcases (hb.covers x).mp hx with hx | ⟨hx, -⟩
          · exact hnew x hx ((shared_head hpb hle x).mpr (.inr hc))
          · have := covers_behind hpa hc.1
            have := hx.2
            omega
        exact ⟨t, ht, (hb.trans hbt).congr fun x => by rw [hb.covers, or_assoc, shared_head hpb hle]⟩
      have hpassb : ∀ {s' : IntervalSet}, q.1 + q.2 ≤ p.1 + p.2 →
          Becomes s s' (fun x => Covers s.m x ∨ Holds x p ∧ Holds x q) → ∃ t, intersectionLoop fuel (p :: pa) pb s' = some t ∧
            Becomes s t fun x => Covers s.m x ∨ Covers (p :: pa) x ∧ Covers (q :: pb) x := fun {s'} hle hb => by
        have hshared : ∀ x, Covers (p :: pa) x ∧ Covers (q :: pb) x ↔ Holds x p ∧ Holds x q ∨ Covers (p :: pa) x ∧ Covers pb x :=
          fun x => by rw [and_comm, shared_head hpa hle, and_comm, and_comm (a := Covers pb x)]
        obtain ⟨t, ht, hbt⟩ := ih (by rw [length_cons]; omega) hb.wf hpa hpb.head.1 fun x hx hc => by
          rcases (hb.covers x).mp hx with hx | ⟨-, hx⟩
          · exact hnew x hx ((hshared x).mpr (.inr hc))
          · have := covers_behind hpb hc.2
            have := hx.2
            omega
        exact ⟨t, ht, (hb.trans hbt).congr fun x => by rw [hb.covers, or_assoc, hshared]⟩
      rw [intersectionLoop, u64_eq hub, u64_eq hvb]
      by_cases hpassing : p.1 + p.2 ≤ q.1
      · rw [if_pos hpassing]
        refine hpassa (by omega) ⟨hs, fun x => (or_iff_left ?_).symm, id⟩
        rintro ⟨⟨-, h1⟩, h2, -⟩
        omega
      rw [if_neg hpassing]
      by_cases hpassing' : q.1 + q.2 ≤ p.1
      · rw [if_pos hpassing']
        refine hpassb (by omega) ⟨hs, fun x => (or_iff_left ?_).symm, id⟩
        rintro ⟨⟨h1, -⟩, -, h2⟩
        omega
      rw [if_neg hpassing', if_neg (by omega)]
      have hends : max p.1 q.1 + (min (p.1 + p.2) (q.1 + q.2) - max p.1 q.1) = min (p.1 + p.2) (q.1 + q.2) := by omega
      have hshared : ∀ x, max p.1 q.1 ≤ x ∧ x < min (p.1 + p.2) (q.1 + q.2) ↔ Holds x p ∧ Holds x q := fun x => by
        unfold Holds
        omega
      obtain ⟨s', hins, hb⟩ := @insert_spec s (max p.1 q.1) (min (p.1 + p.2) (q.1 + q.2) - max p.1 q.1) hs (by omega) (by omega)
        fun x h1 h2 hx => hnew x hx (((hshared x).mp ⟨h1, by omega⟩).imp (fun h => (covers_cons p pa x).mpr (.inl h))
          fun h => (covers_cons q pb x).mpr (.inl h))
      simp only [hends, hshared] at hb
      rw [hins, Option.bind_some]
      by_cases hlonger : q.1 + q.2 < p.1 + p.2
      · rw [if_pos hlonger]
        exact hpassb hlonger.le hb
      · rw [if_neg hlonger]
        exact hpassa (not_lt.mp hlonger) hb

/-- **`intersection_of`.** -/
theorem intersectionOf_spec (ha : Wf a.m) (hb : Wf b.m) :
    ∃ t, intersectionOf a b = some t ∧ Becomes empty t fun x => Covers a.m x ∧ Covers b.m x := by
  obtain ⟨t, ht, h⟩ := intersectionLoop_spec (s := empty) _ le_rfl wf_nil ha hb fun x hx => absurd hx (covers_nil x)
  exact ⟨t, ht, h.congr fun x => or_iff_right (covers_nil x)⟩

/-- **`union_of`.** The size is as wrong as it is for the map of `a` and a size of 0. -/
theorem unionOf_spec (ha : Wf a.m) (hb : Wf b.m) :
    ∃ t, unionOf a b = some t ∧ Becomes ⟨a.m, 0⟩ t fun x => Covers a.m x ∨ Covers b.m x := by
  obtain ⟨ab, hab, hi⟩ := intersectionOf_spec ha hb
  obtain ⟨s, hs, hbs⟩ := subtract_spec (s := ⟨a.m, 0⟩) ha hi.wf fun x hx => ((hi.covers x).mp hx).1
  obtain ⟨t, ht, hbt⟩ := insertAll_spec hbs.wf hb fun x hx hcon => by
    obtain ⟨hax, hn⟩ := (hbs.covers x).mp hcon
    exact hn ((hi.covers x).mpr ⟨hax, hx⟩)
  refine ⟨t, ?_, (hbs.trans hbt).congr fun x => ?_⟩
  · rw [unionOf, hab, Option.bind_some, hs, Option.bind_some, ht]
  · rw [hbs.covers, hi.covers]
    tauto

end ops

end IntervalSet
end Ceph
