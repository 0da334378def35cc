/-
# Runs of interval sets

In a run of operations on interval sets each of them aborts and results as it should, and the
maps stay canonical, if no interval is empty or ends at the top of the numbers, and none slips in: `insert` of one that
begins where another ends does not look whether it overlaps the next. The sizes are right, too, if
no `union_of` takes over a map that has intervals: it takes them over uncounted.
-/
import Ceph.Include.IntervalOps
import Ceph.Lib.Run

namespace Ceph
namespace IntervalSet

open List Option Function IntervalSet

/-! ### The code -/

/-- `intersects(start, len)`. -/
def IntervalSet.intersects (s : IntervalSet) (start len : ℕ) : Option Bool :=
  (empty.insert start len).bind fun a => (intersectionOf s a).map fun i => !i.m.isEmpty

/-- `starts_after(i)`, which asserts that `i` is not in the set. -/
def IntervalSet.startsAfter (s : IntervalSet) (i : ℕ) : Option Bool :=
  if s.contains i then none else some s.m[findInc s.m i]?.isSome

/-- `start_after(i)`; there has to be one. -/
def IntervalSet.startAfter (s : IntervalSet) (i : ℕ) : Option ℕ :=
  if s.contains i then none else s.m[findInc s.m i]?.map Prod.fst

/-- `end_after(start)`, which asserts that `start` is in the set. -/
def IntervalSet.endAfter (s : IntervalSet) (start : ℕ) : Option ℕ :=
  if s.contains start then s.m[findInc s.m start]?.map fun p => u64 (p.1 + p.2) else none

/-- `subset_of(big)`. -/
def IntervalSet.subsetOf (s big : IntervalSet) : Bool := s.m.all fun p => big.containsRange p.1 p.2

/-- `union_of(b)`: the map is swapped out, without its size. -/
def IntervalSet.unionWith (s b : IntervalSet) : Option IntervalSet := unionOf ⟨s.m, empty.size⟩ b

variable {ι : Type} [DecidableEq ι]

/-- The operations, on the sets of a program. -/
inductive Op (ι : Type)
  | insert (i : ι) (start len : ℕ)
  | erase (i : ι) (start len : ℕ)
  | subtract (i a : ι)
  | insertAll (i a : ι)
  | intersectionOf (i a b : ι)
  | unionOf (i a b : ι)
  | unionWith (i b : ι)
  | clear (i : ι)

namespace Op

/-- The set that is changed. -/
def target : Op ι → ι
  | insert i _ _ | erase i _ _ | subtract i _ | insertAll i _ | intersectionOf i _ _ | unionOf i _ _
  | unionWith i _ | clear i => i

/-- What it becomes. The operations that clear it first assert that it is none of the others. -/
def run (σ : ι → IntervalSet) : Op ι → Option IntervalSet
  | insert i start len => (σ i).insert start len
  | erase i start len => (σ i).erase start len
  | subtract i a => (σ i).subtract (σ a)
  | insertAll i a => (σ i).insertAll (σ a)
  | intersectionOf i a b => if a = i ∨ b = i then none else IntervalSet.intersectionOf (σ a) (σ b)
  | unionOf i a b => if a = i ∨ b = i then none else IntervalSet.unionOf (σ a) (σ b)
  | unionWith i b => if b = i then none else (σ i).unionWith (σ b)
  | clear i => some (σ i).clear

/-! ### What they should do -/

/-- When an operation should abort. -/
def Aborts (σ : ι → IntervalSet) : Op ι → Prop
  | insert i start len => ∃ x, start ≤ x ∧ x < start + len ∧ Covers (σ i).m x
  | erase i start len => ∃ x, start ≤ x ∧ x < start + len ∧ ¬ Covers (σ i).m x
  | subtract i a => ∃ x, Covers (σ a).m x ∧ ¬ Covers (σ i).m x
  | insertAll i a => ∃ x, Covers (σ a).m x ∧ Covers (σ i).m x
  | intersectionOf i a b | unionOf i a b => a = i ∨ b = i
  | unionWith i b => b = i
  | clear _ => False

/-- The numbers that its set should have then. -/
def Result (σ : ι → IntervalSet) : Op ι → ℕ → Prop
  | insert i start len, x => Covers (σ i).m x ∨ start ≤ x ∧ x < start + len
  | erase i start len, x => Covers (σ i).m x ∧ ¬ (start ≤ x ∧ x < start + len)
  | subtract i a, x => Covers (σ i).m x ∧ ¬ Covers (σ a).m x
  | intersectionOf _ a b, x => Covers (σ a).m x ∧ Covers (σ b).m x
  | insertAll a b, x | unionOf _ a b, x | unionWith a b, x => Covers (σ a).m x ∨ Covers (σ b).m x
  | clear _, _ => False

/-- Intervals are not empty, do not reach the top of the numbers, and do not slip in; and a set is not subtracted from
itself, which erases what it goes along. -/
def Careful (σ : ι → IntervalSet) : Op ι → Prop
  | insert i start len => 0 < len ∧ start + len < 2 ^ 64 ∧ ¬ Slips (σ i).m start len
  | erase _ start len => 0 < len ∧ start + len < 2 ^ 64
  | subtract i a => a ≠ i
  | insertAll i a => ∀ p ∈ (σ a).m, ¬ Slips (σ i).m p.1 p.2
  | _ => True

/-- What the operation begins with. -/
def base (σ : ι → IntervalSet) : Op ι → IntervalSet
  | insert i _ _ | erase i _ _ | subtract i _ | insertAll i _ => σ i
  | unionOf _ a _ | unionWith a _ => ⟨(σ a).m, 0⟩
  | intersectionOf .. | clear _ => empty

/-- Nothing is taken over uncounted. -/
def Counts (σ : ι → IntervalSet) : Op ι → Prop
  | unionOf _ a _ | unionWith a _ => (σ a).m = []
  | _ => True

end Op

/-- One operation. -/
def apply (σ : ι → IntervalSet) (op : Op ι) : Option (ι → IntervalSet) := (op.run σ).map (update σ op.target)

/-- The questions about a set are answered as they should be. -/
structure Answers (s : IntervalSet) : Prop where
  contains : ∀ i, s.contains i = true ↔ Covers s.m i
  range : ∀ start len, 0 < len → start + len < 2 ^ 64 →
    (s.containsRange start len = true ↔ ∀ x, start ≤ x → x < start + len → Covers s.m x)
  intersects : ∀ start len, 0 < len → start + len < 2 ^ 64 →
    ∃ r, s.intersects start len = some r ∧ (r = true ↔ ∃ x, start ≤ x ∧ x < start + len ∧ Covers s.m x)
  startsAfter : ∀ i, ¬ Covers s.m i → ∃ r, s.startsAfter i = some r ∧ (r = true ↔ ∃ x, i < x ∧ Covers s.m x)
  startAfter : ∀ i y, s.startAfter i = some y ↔
    i < y ∧ Covers s.m y ∧ ∀ x, i ≤ x → x < y → ¬ Covers s.m x
  endAfter : ∀ i y, s.endAfter i = some y ↔ i < y ∧ (∀ x, i ≤ x → x < y → Covers s.m x) ∧ ¬ Covers s.m y

/-- The maps are canonical, and all that can be asked or done comes to what it should. -/
structure Exact (σ : ι → IntervalSet) : Prop where
  wf : ∀ i, Wf (σ i).m
  answers : ∀ i, Answers (σ i)
  subset : ∀ i j, (σ i).subsetOf (σ j) = true ↔ ∀ x, Covers (σ i).m x → Covers (σ j).m x
  aborts : ∀ op, op.Careful σ → (apply σ op = none ↔ op.Aborts σ)
  result : ∀ op τ, op.Careful σ → apply σ op = some τ →
    (∀ x, Covers (τ op.target).m x ↔ op.Result σ x) ∧ ∀ i ≠ op.target, τ i = σ i

/-! ### What they do -/

section answers

variable {s : IntervalSet} {i x start len : ℕ}

/-- The search finds the interval that matters. -/
theorem findInc_spec {m : Intervals} (hw : Wf m) (i : ℕ) :
    m[findInc m i]? = none ∧ (∀ x, i ≤ x → ¬ Covers m x) ∨ ∃ p, m[findInc m i]? = some p ∧ u64 (p.1 + p.2) = p.1 + p.2 ∧
      i < p.1 + p.2 ∧ 0 < p.2 ∧ ∀ x, i ≤ x → x ≤ p.1 + p.2 → (Covers m x ↔ Holds x p) := by
  obtain ⟨lo, hi, rfl, hfind, hlo, hhi⟩ := findInc_cut hw i
  have hbelow : ∀ x, i ≤ x → ¬ Covers lo x := by
    rintro x hx ⟨p, hp, -, hlt⟩
    have := hlo p hp
    omega
  rw [hfind, getElem?_append_right le_rfl, Nat.sub_self]
  cases hi with
  | nil => exact .inl ⟨rfl, by simpa using hbelow⟩
  | cons p hi =>
    refine .inr ⟨p, rfl, u64_eq (hw.bound p (by simp)), hhi p mem_cons_self, hw.pos p (by simp), fun x h1 h2 => ?_⟩
    rw [covers_append, covers_cons, or_iff_right (hbelow x h1)]
    refine or_iff_left ?_
    rintro ⟨q, hq, hle, -⟩
    have := hw.sides.2 q hq
    omega

theorem contains_iff (hw : Wf s.m) : s.contains i = true ↔ Covers s.m i := by
  rw [IntervalSet.contains]
  rcases findInc_spec hw i with ⟨hp, hnone⟩ | ⟨p, hp, hu, hlt, -, hcov⟩
  · simpa [hp] using hnone i le_rfl
  · simp [hp, hu, hcov i le_rfl hlt.le, Holds]

theorem containsRange_iff (hw : Wf s.m) (hlen : 0 < len) (hbound : start + len < 2 ^ 64) :
    s.containsRange start len = true ↔ ∀ x, start ≤ x → x < start + len → Covers s.m x := by
  rw [containsRange, u64_eq hbound]
  rcases findInc_spec hw start with ⟨hp, hnone⟩ | ⟨p, hp, hu, hlt, -, hcov⟩
  · simpa [hp] using ⟨start, le_rfl, by omega, hnone start le_rfl⟩
  · simp only [hp, hu, any_some, decide_eq_true_eq]
    refine ⟨fun h x h1 h2 => (hcov x h1 (by omega)).mpr ⟨by omega, by omega⟩, fun h => ?_⟩
    have hstart := (hcov start le_rfl hlt.le).mp (h start le_rfl (by omega))
    refine ⟨hstart.1, hlt, ?_⟩
    by_contra hshort
    have := (hcov _ hlt.le le_rfl).mp (h _ hlt.le (by omega))
    exact absurd this.2 (lt_irrefl _)

/-- Of a number that is not in the set it finds the interval behind it. -/
theorem findInc_after (hw : Wf s.m) (hi : ¬ Covers s.m i) : s.m[findInc s.m i]? = none ∧ (∀ x, i ≤ x → ¬ Covers s.m x) ∨
    ∃ p, s.m[findInc s.m i]? = some p ∧ i < p.1 ∧ Covers s.m p.1 ∧ ∀ x, i ≤ x → x < p.1 → ¬ Covers s.m x := by
  refine (findInc_spec hw i).imp_right ?_
  rintro ⟨p, hp, -, hlt, hpos, hcov⟩
  have hfirst : i < p.1 := by
    by_contra hle
    exact hi ((hcov i le_rfl hlt.le).mpr ⟨not_lt.mp hle, hlt⟩)
  refine ⟨p, hp, hfirst, (hcov p.1 hfirst.le (by omega)).mpr ⟨le_rfl, by omega⟩, fun x h1 h2 hx => ?_⟩
  exact absurd ((hcov x h1 (by omega)).mp hx).1 (not_le.mpr h2)

/-- **The questions** about a canonical map. -/
theorem answers (hw : Wf s.m) : Answers s where
  contains i := contains_iff hw
  range start len := containsRange_iff hw
  intersects start len hlen hbound := by
    obtain ⟨a, ha, hba⟩ := @insert_spec empty start len wf_nil hlen hbound fun x _ _ => covers_nil x
    obtain ⟨t, ht, hbt⟩ := intersectionOf_spec hw hba.wf
    refine ⟨!t.m.isEmpty, by rw [intersects, ha, bind_some, ht, map_some], ?_⟩
    have hany : (!t.m.isEmpty) = true ↔ ∃ x, Covers t.m x := by
      cases hm : t.m with
      | nil => simp [covers_nil]
      | cons p m =>
        have := hbt.wf.pos p (by simp [hm])
        exact iff_of_true rfl ⟨p.1, p, mem_cons_self, le_rfl, by omega⟩
    have hnone : ∀ x, ¬ Covers empty.m x := covers_nil
    simp only [hany, hbt.covers, hba.covers, hnone, false_or, and_comm, and_assoc]
  startsAfter i hi := by
    have hcon : s.contains i = false := Bool.eq_false_iff.mpr fun h => hi ((contains_iff hw).mp h)
    refine ⟨_, by rw [startsAfter, hcon]; rfl, ?_⟩
    rcases findInc_after hw hi with ⟨hp, hnone⟩ | ⟨p, hp, hfirst, hthere, -⟩
    · simpa [hp] using fun x hx => hnone x hx.le
    · simp only [hp, isSome_some, true_iff]
      exact ⟨p.1, hfirst, hthere⟩
  startAfter i y := by
    rw [startAfter]
    by_cases hi : Covers s.m i
    · rw [if_pos ((contains_iff hw).mpr hi)]
      exact iff_of_false nofun fun h => h.2.2 i le_rfl h.1 hi
    rw [if_neg fun h => hi ((contains_iff hw).mp h)]
    rcases findInc_after hw hi with ⟨hp, hnone⟩ | ⟨p, hp, hfirst, hthere, hbefore⟩
    · rw [hp]
      exact iff_of_false nofun fun h => hnone y h.1.le h.2.1
    · rw [hp, map_some, some.injEq]
      constructor
      · rintro rfl
        exact ⟨hfirst, hthere, hbefore⟩
      · rintro ⟨h1, h2, h3⟩
        exact le_antisymm (not_lt.mp fun h => hbefore y h1.le h h2) (not_lt.mp fun h => h3 p.1 hfirst.le h hthere)
  endAfter i y := by
    rw [endAfter]
    by_cases hi : Covers s.m i
    · rw [if_pos ((contains_iff hw).mpr hi)]
      rcases findInc_spec hw i with ⟨-, hnone⟩ | ⟨p, hp, hu, hlt, hpos, hcov⟩
      · exact absurd hi (hnone i le_rfl)
      · have hfirst := ((hcov i le_rfl hlt.le).mp hi).1
        have hend : ¬ Covers s.m (p.1 + p.2) := fun h => absurd ((hcov _ hlt.le le_rfl).mp h).2 (lt_irrefl _)
        rw [hp, map_some, some.injEq, hu]
        constructor
        · rintro rfl
          exact ⟨hlt, fun x h1 h2 => (hcov x h1 h2.le).mpr ⟨by omega, h2⟩, hend⟩
        · rintro ⟨h1, h2, h3⟩
          refine le_antisymm (not_lt.mp fun h => h3 ((hcov y h1.le h.le).mpr ⟨by omega, h⟩)) (not_lt.mp fun h => ?_)
          exact hend (h2 _ hlt.le h)
    · rw [if_neg fun h => hi ((contains_iff hw).mp h)]
      exact iff_of_false nofun fun h => hi (h.2.1 i le_rfl h.1)

theorem subsetOf_iff {big : IntervalSet} (hw : Wf s.m) (hbig : Wf big.m) :
    s.subsetOf big = true ↔ ∀ x, Covers s.m x → Covers big.m x := by
  rw [subsetOf, List.all_eq_true]
  constructor
  · rintro h x ⟨p, hp, h1, h2⟩
    exact (containsRange_iff hbig (hw.pos p hp) (hw.bound p hp)).mp (h p hp) x h1 h2
  · exact fun h p hp => (containsRange_iff hbig (hw.pos p hp) (hw.bound p hp)).mpr fun x h1 h2 => h x ⟨p, hp, h1, h2⟩

end answers

section runs

variable {σ τ : ι → IntervalSet} {op : Op ι}

/-- **One operation** does what it should. -/
theorem run_cases (hw : ∀ i, Wf (σ i).m) (hc : op.Careful σ) :
    ¬ op.Aborts σ ∧ (∃ t, op.run σ = some t ∧ Becomes (op.base σ) t (op.Result σ)) ∨ op.Aborts σ ∧ op.run σ = none := by
  cases op with
  | insert i start len =>
    rcases insert_cases (hw i) hc.1 hc.2.1 with ⟨hd, h⟩ | ⟨hover, h⟩
    · exact .inl ⟨fun ⟨x, h1, h2, h3⟩ => hd x h1 h2 h3, h⟩
    · exact .inr ⟨hover, h.resolve_right hc.2.2⟩
  | erase i start len =>
    rcases erase_cases (hw i) hc.1 hc.2 with ⟨hin, h⟩ | h
    · exact .inl ⟨fun ⟨x, h1, h2, h3⟩ => h3 (hin x h1 h2), h⟩
    · exact .inr h
  | subtract i a =>
    rcases subtract_cases (hw i) (hw a) with ⟨hsub, h⟩ | h
    · exact .inl ⟨fun ⟨x, h1, h2⟩ => h2 (hsub x h1), h⟩
    · exact .inr h
  | insertAll i a =>
    rcases insertAll_cases (hw i) (hw a) hc with ⟨hd, h⟩ | h
    · exact .inl ⟨fun ⟨x, h1, h2⟩ => hd x h1 h2, h⟩
    · exact .inr h
  | intersectionOf i a b =>
    by_cases h : a = i ∨ b = i
    · exact .inr ⟨h, if_pos h⟩
    · exact .inl ⟨h, by rw [Op.run, if_neg h]; exact intersectionOf_spec (hw a) (hw b)⟩
  | unionOf i a b =>
    by_cases h : a = i ∨ b = i
    · exact .inr ⟨h, if_pos h⟩
    · exact .inl ⟨h, by rw [Op.run, if_neg h]; exact unionOf_spec (hw a) (hw b)⟩
  | unionWith i b =>
    by_cases h : b = i
    · exact .inr ⟨h, if_pos h⟩
    · exact .inl ⟨h, by rw [Op.run, if_neg h]; exact unionOf_spec (a := ⟨(σ i).m, 0⟩) (hw i) (hw b)⟩
  | clear i => exact .inl ⟨id, empty, rfl, wf_nil, fun x => iff_of_false (covers_nil x) id, id⟩

theorem apply_cases (hw : ∀ i, Wf (σ i).m) (hc : op.Careful σ) (h : apply σ op = some τ) :
    ∃ t, Becomes (op.base σ) t (op.Result σ) ∧ τ = update σ op.target t := by
  obtain ⟨t, ht, rfl⟩ := map_eq_some_iff.mp h
  rcases run_cases hw hc with ⟨-, t', ht', hb⟩ | ⟨-, hnone⟩
  · obtain rfl := some.inj (ht.symm.trans ht')
    exact ⟨t, hb, rfl⟩
  · nomatch ht.symm.trans hnone

theorem exact_of_wf (hw : ∀ i, Wf (σ i).m) : Exact σ where
  wf := hw
  answers i := answers (hw i)
  subset i j := subsetOf_iff (hw i) (hw j)
  aborts op hc := by
    rw [apply, map_eq_none_iff]
    rcases run_cases hw hc with ⟨hno, t, ht, -⟩ | ⟨hab, hnone⟩
    · exact iff_of_false (by rw [ht]; exact nofun) hno
    · exact iff_of_true hnone hab
  result op τ hc h := by
    obtain ⟨t, hb, rfl⟩ := apply_cases hw hc h
    exact ⟨fun x => by rw [update_self, hb.covers], fun i hi => update_of_ne hi t σ⟩

theorem wf_reach (h : Run.Reach apply (fun σ op => op.Careful σ) (fun _ => empty) σ) : ∀ i, Wf (σ i).m := by
  refine h.inv (fun σ => ∀ i, Wf (σ i).m) (fun _ => wf_nil) fun σ op τ hw hc ht => ?_
  obtain ⟨t, hb, rfl⟩ := apply_cases hw hc ht
  exact (forall_update_iff σ fun _ s => Wf s.m).mpr ⟨hb.wf, fun i _ => hw i⟩

/-- **Interval sets are exact** in every careful run. -/
theorem interval_sets_exact (h : Run.Reach apply (fun σ op => op.Careful σ) (fun _ => empty) σ) : Exact σ :=
  exact_of_wf (wf_reach h)

/-- **Their sizes** are the sums of the lengths, as far as an `int` goes. -/
theorem size_exact (h : Run.Reach apply (fun σ op => op.Careful σ ∧ op.Counts σ) (fun _ => empty) σ) (i : ι) :
    (σ i).size.toInt = total (σ i).m ↔ total (σ i).m < 2 ^ 31 := by
  have hinv : (∀ i, Wf (σ i).m) ∧ ∀ i, (σ i).Sized := by
    refine h.inv (fun σ => (∀ i, Wf (σ i).m) ∧ ∀ i, (σ i).Sized) ⟨fun _ => wf_nil, fun _ => rfl⟩ fun σ op τ hs hc ht => ?_
    obtain ⟨t, hb, rfl⟩ := apply_cases hs.1 hc.1 ht
    have hbase : (op.base σ).Sized := by
      cases op with
      | unionOf i a b =>
        have : (σ a).m = [] := hc.2
        rw [Op.base, this]
        rfl
      | unionWith i b =>
        have : (σ i).m = [] := hc.2
        rw [Op.base, this]
        rfl
      | intersectionOf => rfl
      | clear => rfl
      | _ => exact hs.2 _
    exact ⟨(forall_update_iff σ fun _ s => Wf s.m).mpr ⟨hb.wf, fun i _ => hs.1 i⟩,
      (forall_update_iff σ fun _ s => s.Sized).mpr ⟨hb.sized hbase, fun i _ => hs.2 i⟩⟩
  rw [hinv.2 i, BitVec.toInt_eq_toNat_bmod, BitVec.toNat_ofNat, Int.bmod_def]
  omega

end runs

/-- One interval is inserted. -/
theorem one_interval_exact : Exact fun _ : Unit => (⟨[(3, 4)], 4⟩ : IntervalSet) :=
  interval_sets_exact (.step (.insert () 3 4) .init ⟨by decide, by decide, fun h => covers_nil _ h.2.1⟩ rfl)

theorem one_interval_counted : (⟨[(3, 4)], 4⟩ : IntervalSet).size.toInt = total [(3, 4)] ↔ total [(3, 4)] < 2 ^ 31 :=
  size_exact (σ := fun _ : Unit => (⟨[(3, 4)], 4⟩ : IntervalSet))
    (.step (.insert () 3 4) .init ⟨⟨by decide, by decide, fun h => covers_nil _ h.2.1⟩, trivial⟩ rfl) ()

end IntervalSet
end Ceph
