/-
# Sets of fragments

A `fragset_t` keeps fragments whose union is the set of values. Wherever a
fragment and its sibling are both members `simplify` puts their parent in
their place, until no two siblings are left. It goes through the set with an
iterator while it changes it: the parent has fewer bits than the member the
iterator stands at, so it comes before it, and is not met before the next
pass. A pass that changes something leaves fewer members.

Where no two siblings are left, a fragment that the members cover lies within
one of them: either half of it lies within a member, and members that are the
halves would be siblings. So `contains` need only look at what is above.

`std::set<frag_t>` is a list here in the order of the codes; an iterator is
the member it stands at.
-/
import Ceph.Include.FragPaths
import Mathlib.Data.List.Sort

namespace Ceph
namespace Frags

open Option hiding or_assoc

/-- `get_sibling`; the root asserts. -/
def Frag.getSibling (x : Frag) : Option Frag :=
  if x.bits ≠ 0 then some ⟨x.enc ^^^ (1 <<< (x.bits - 1))⟩ else none

/-- `std::set<frag_t>`. -/
abbrev Fragset := List Frag

namespace Fragset

/-- `frag_t` compares as the `_frag_t` it converts to. -/
def CodeLe (x y : Frag) : Prop := x.enc ≤ y.enc

instance : DecidableRel CodeLe := fun x y => inferInstanceAs (Decidable (x.enc ≤ y.enc))

instance : Std.Total CodeLe := ⟨fun x y => Nat.le_total x.enc y.enc⟩

instance : IsTrans Frag CodeLe := ⟨fun _ _ _ => Nat.le_trans⟩

/-- `_set.insert(f)`. -/
def add (set : Fragset) (f : Frag) : Fragset := if f ∈ set then set else set.orderedInsert CodeLe f

/-- `_set.erase(f)`. -/
def remove (set : Fragset) (f : Frag) : Fragset := set.filter (· ≠ f)

/-- `p++`. -/
def next (set : Fragset) (p : Frag) : Option Frag := set.find? fun q => p.enc < q.enc

/-- The inner loop of `simplify`. -/
def pass : ℕ → Fragset → Option Frag → Bool → Option (Fragset × Bool)
  | _, set, none, clean => some (set, clean)
  | 0, _, some _, _ => none
  | n + 1, set, some p, clean =>
    if p.bits = 0 then pass n set (next set p) clean
    else p.getSibling.bind fun sibling =>
      if sibling ∈ set then p.parent.bind fun parent =>
        let set := add (remove set sibling) parent
        pass n (remove set p) (next set p) false
      else pass n set (next set p) clean

/-- The outer loop of `simplify`. -/
def simplifyLoop : ℕ → Fragset → Option Fragset
  | 0, _ => none
  | n + 1, set => (pass set.length set set.head? true).bind fun (set, clean) =>
    if clean then some set else simplifyLoop n set

/-- `simplify`: a pass that is not clean leaves fewer members. -/
def simplify (set : Fragset) : Option Fragset := simplifyLoop (set.length + 1) set

/-- `insert`. -/
def insert (set : Fragset) (f : Frag) : Option Fragset := simplify (add set f)

/-- The loop of `contains`. -/
def containsFrom (set : Fragset) : ℕ → Frag → Option Bool
  | 0, _ => none
  | n + 1, f =>
    if f ∈ set then some true else if f.bits = 0 then some false else f.parent.bind (containsFrom set n)

/-- `contains`. -/
def contains (set : Fragset) (f : Frag) : Option Bool := containsFrom set (height f) f

/-! ### Siblings -/

section siblings

variable {x y z s : Frag}

/-- **The sibling** is the other half of the parent. -/
theorem sibling_spec (hx : x.Wf) (h0 : x.bits ≠ 0) : ∃ s, x.getSibling = some s ∧ s.Wf ∧ s.bits = x.bits ∧ s ≠ x ∧
    Above (x.upTo (x.bits - 1)) s := by
  have hb := hx.bits_le
  have hx24 : x.value < 2 ^ 24 := hx.value_lt.trans_le (Nat.pow_le_pow_right (by decide) hb)
  have hbit : 2 ^ (x.bits - 1) < 2 ^ x.bits := Nat.pow_lt_pow_right (by decide) (by omega)
  have hbit24 : 2 ^ (x.bits - 1) < 2 ^ 24 := hbit.trans_le (Nat.pow_le_pow_right (by decide) hb)
  have hxor : x.value ^^^ 2 ^ (x.bits - 1) < 2 ^ x.bits := Nat.xor_lt_two_pow hx.value_lt hbit
  -- the bit is one of the value's
  have henc : x.enc ^^^ (1 <<< (x.bits - 1)) = 2 ^ 24 * x.bits + (x.value ^^^ 2 ^ (x.bits - 1)) := by
    rw [Nat.one_shiftLeft, x.enc_eq, mul_comm]
    refine Nat.eq_of_testBit_eq fun i => ?_
    rw [Nat.testBit_xor, Nat.testBit_two_pow_mul_add _ hx24, Nat.testBit_two_pow_mul_add _ (Nat.xor_lt_two_pow hx24 hbit24),
      Nat.testBit_xor, Nat.testBit_two_pow]
    by_cases hi : i < 24
    · rw [if_pos hi, if_pos hi]
    · rw [if_neg hi, if_neg hi, decide_eq_false (by omega), Bool.xor_false]
  have hlt : x.value ^^^ 2 ^ (x.bits - 1) < 2 ^ 24 := Nat.xor_lt_two_pow hx24 hbit24
  generalize hs : (⟨x.enc ^^^ (1 <<< (x.bits - 1))⟩ : Frag) = s
  have hsenc : s.enc = 2 ^ 24 * x.bits + (x.value ^^^ 2 ^ (x.bits - 1)) := by rw [← hs, henc]
  have hsbits : s.bits = x.bits := by
    rw [Frag.bits, Nat.shiftRight_eq_div_pow, hsenc]
    omega
  have hsval : s.value = x.value ^^^ 2 ^ (x.bits - 1) := by
    have h1 := s.enc_eq
    omega
  refine ⟨s, by rw [Frag.getSibling, if_pos h0, hs], ⟨hsbits ▸ hb, by rw [hsval, hsbits]; exact hxor⟩, hsbits, ?_, ?_⟩
  · intro heq
    have hz : x.value ^^^ 2 ^ (x.bits - 1) = x.value := by rw [← hsval, heq]
    have hzero : 2 ^ (x.bits - 1) = 0 :=
      calc 2 ^ (x.bits - 1) = x.value ^^^ (x.value ^^^ 2 ^ (x.bits - 1)) := by
            rw [← Nat.xor_assoc, Nat.xor_self, Nat.zero_xor]
        _ = x.value ^^^ x.value := by rw [hz]
        _ = 0 := Nat.xor_self _
    exact absurd hzero (Nat.two_pow_pos _).ne'
  · have hle : x.bits - 1 ≤ x.bits := Nat.sub_le _ _
    refine (above_iff (hx.upTo hle).bits_le).mpr ⟨by rw [bits_upTo hx hle, hsbits]; exact hle, ?_⟩
    rw [bits_upTo hx hle, hsval, Nat.xor_mod_two_pow, Nat.mod_self, Nat.xor_zero, Frag.upTo, value_frag (hle.trans hb)]

/-- The halves of the parent are the fragment and its sibling. -/
theorem mem_halves (hx : x.Wf) (h0 : x.bits ≠ 0) (hs : x.getSibling = some s) :
    y ∈ (x.upTo (x.bits - 1)).split 1 ↔ y = x ∨ y = s := by
  have hle : x.bits - 1 ≤ x.bits := Nat.sub_le _ _
  have hb := hx.bits_le
  obtain ⟨s', hs', hsw, hsbits, hne, ha⟩ := sibling_spec hx h0
  obtain rfl : s = s' := some.inj (hs.symm.trans hs')
  have hpw := hx.upTo hle
  have hpb := bits_upTo hx hle
  have hmem : ∀ z, z.Wf → z.bits = x.bits → Above (x.upTo (x.bits - 1)) z → z ∈ (x.upTo (x.bits - 1)).split 1 :=
    fun z hz hzb hza => (mem_split_iff hpw (by omega)).mpr ⟨hz, by omega, hza⟩
  have hxm := hmem x hx rfl (upTo_above hx hle)
  have hsm := hmem s hsw hsbits ha
  constructor
  · intro hy
    obtain ⟨a, c, hac⟩ : ∃ a c, (x.upTo (x.bits - 1)).split 1 = [a, c] := ⟨_, _, rfl⟩
    rw [hac] at hxm hsm hy
    simp only [List.mem_cons, List.not_mem_nil, or_false] at hxm hsm hy
    obtain rfl | rfl := hxm
    · obtain rfl | rfl := hsm
      · exact absurd rfl hne
      · exact hy
    · obtain rfl | rfl := hsm
      · exact hy.symm
      · exact absurd rfl hne
  · rintro (rfl | rfl)
    · exact hxm
    · exact hsm

theorem halves_contain (hx : x.Wf) (hb : x.bits < 24) (v : ℕ) :
    x.contains v = true ↔ ∃ c ∈ x.split 1, c.contains v = true := by
  have hcount : (x.split 1).countP (fun c => c.contains v) = if x.contains v then 1 else 0 := countP_split hx hb v
  rw [← List.countP_pos_iff, hcount]
  by_cases hv : x.contains v = true
  · simp [hv]
  · simp [hv]

end siblings

/-! ### The set -/

/-- A member contains `v`. -/
def Covers (set : Fragset) (v : ℕ) : Prop := ∃ f ∈ set, f.contains v = true

/-- The members are fragments of the namespace, in order. -/
structure Inv (set : Fragset) : Prop where
  wf : ∀ f ∈ set, f.Wf
  sorted : set.Pairwise CodeLe

/-- No two siblings are members. -/
def NoSiblings (set : Fragset) : Prop := ∀ f ∈ set, ∀ s, f.getSibling = some s → s ∉ set

section set

variable {set : Fragset} {p f g s : Frag} {v : ℕ}

theorem mem_add : g ∈ add set f ↔ g = f ∨ g ∈ set := by
  rw [add]
  by_cases h : f ∈ set
  · rw [if_pos h]
    exact ⟨.inr, fun hg => hg.elim (fun heq => heq ▸ h) id⟩
  · rw [if_neg h, List.mem_orderedInsert]

theorem mem_remove : g ∈ remove set f ↔ g ∈ set ∧ g ≠ f := by
  rw [remove, List.mem_filter, decide_eq_true_iff]

theorem Inv.add (h : Inv set) (hf : f.Wf) : Inv (add set f) := by
  refine ⟨fun g hg => ?_, ?_⟩
  · obtain rfl | hg := mem_add.mp hg
    · exact hf
    · exact h.wf g hg
  · rw [Fragset.add]
    by_cases hm : f ∈ set
    · rw [if_pos hm]
      exact h.sorted
    · rw [if_neg hm]
      exact h.sorted.orderedInsert f _

theorem Inv.remove (h : Inv set) (f : Frag) : Inv (remove set f) :=
  ⟨fun g hg => h.wf g (mem_remove.mp hg).1, h.sorted.filter _⟩

theorem length_add (set : Fragset) (f : Frag) : (add set f).length ≤ set.length + 1 := by
  rw [add]
  by_cases h : f ∈ set
  · rw [if_pos h]
    exact Nat.le_succ _
  · rw [if_neg h, List.orderedInsert_length]

theorem length_remove (hf : f ∈ set) : (remove set f).length < set.length := by
  rw [remove, ← List.countP_eq_length_filter]
  refine lt_of_le_of_ne List.countP_le_length fun heq => ?_
  have := List.countP_eq_length.mp heq f hf
  simp at this

theorem covers_add : Covers (add set f) v ↔ f.contains v = true ∨ Covers set v := by
  constructor
  · rintro ⟨g, hg, hv⟩
    obtain rfl | hg := mem_add.mp hg
    · exact .inl hv
    · exact .inr ⟨g, hg, hv⟩
  · rintro (hv | ⟨g, hg, hv⟩)
    · exact ⟨f, mem_add.mpr (.inl rfl), hv⟩
    · exact ⟨g, mem_add.mpr (.inr hg), hv⟩

theorem covers_remove (h : f.contains v = true → Covers (remove set f) v) :
    Covers (remove set f) v ↔ Covers set v := by
  constructor
  · rintro ⟨g, hg, hv⟩
    exact ⟨g, (mem_remove.mp hg).1, hv⟩
  · rintro ⟨g, hg, hv⟩
    by_cases hgf : g = f
    · exact h (hgf ▸ hv)
    · exact ⟨g, mem_remove.mpr ⟨hg, hgf⟩, hv⟩

end set

/-! ### A pass -/

/-- The iterator has passed `q`. -/
def Passed (cursor : Option Frag) (q : Frag) : Prop := ∀ p, cursor = some p → q.enc < p.enc

section pass

variable {set : Fragset} {p q f : Frag}

theorem eq_of_enc (h : p.enc = q.enc) : p = q := by
  cases p
  cases q
  exact congrArg _ h

theorem next_some (h : next set p = some q) : q ∈ set ∧ p.enc < q.enc :=
  ⟨List.mem_of_find?_eq_some h, by simpa using List.find?_some h⟩

theorem le_of_passed (h : Inv set) (hq : q ∈ set) (hp : Passed (next set p) q) : q.enc ≤ p.enc := by
  by_contra hlt
  rw [not_le] at hlt
  cases hn : next set p with
  | none => exact absurd (decide_eq_true hlt) (List.find?_eq_none.mp hn q hq)
  | some r =>
    have hqr := hp r hn
    obtain ⟨-, as, bs, heq, has⟩ := List.find?_eq_some_iff_append.mp hn
    have hs := h.sorted
    rw [heq] at hq hs
    obtain hq | hq := List.mem_append.mp hq
    · have := has q hq
      simp [hlt] at this
    · obtain rfl | hq := List.mem_cons.mp hq
      · exact lt_irrefl _ hqr
      · have hle : r.enc ≤ q.enc := List.rel_of_pairwise_cons (List.pairwise_append.mp hs).2.1 hq
        omega

theorem ahead_lt (hp : p ∈ set) (h : p.enc < q.enc) :
    set.countP (fun r => q.enc ≤ r.enc) < set.countP fun r => p.enc ≤ r.enc := by
  have hmem : p ∈ set.filter fun r => p.enc ≤ r.enc := List.mem_filter.mpr ⟨hp, decide_eq_true le_rfl⟩
  have hlt := length_remove hmem
  rw [remove, List.filter_filter, ← List.countP_eq_length_filter, ← List.countP_eq_length_filter] at hlt
  refine lt_of_le_of_lt (List.countP_mono_left fun r _ hr => ?_) hlt
  have hr := of_decide_eq_true hr
  rw [Bool.and_eq_true, decide_eq_true_iff, decide_eq_true_iff]
  exact ⟨fun heq => by rw [heq] at hr; omega, by omega⟩

theorem countP_add {P : Frag → Bool} (h : P f = false) : (add set f).countP P = set.countP P := by
  rw [add]
  by_cases hf : f ∈ set
  · rw [if_pos hf]
  · rw [if_neg hf, (List.perm_orderedInsert CodeLe f set).countP_eq, List.countP_cons_of_neg (by simp [h])]

theorem enc_lt (hp : p.Wf) (hb : p.bits < q.bits) : p.enc < q.enc := by
  have hv : p.value < 2 ^ 24 := hp.value_lt.trans_le (Nat.pow_le_pow_right (by decide) hp.bits_le)
  rw [p.enc_eq, q.enc_eq]
  omega

/-- Two siblings make way for their parent. -/
theorem merged_spec (h : Inv set) {s : Frag} (hp : p ∈ set) (h0 : p.bits ≠ 0) (hs : p.getSibling = some s) (hm : s ∈ set) :
    ∃ parent, p.parent = some parent ∧ parent.enc < p.enc ∧ Inv (remove (add (remove set s) parent) p) ∧
      (∀ v, Covers (remove (add (remove set s) parent) p) v ↔ Covers set v) ∧
      (remove (add (remove set s) parent) p).length < set.length := by
  have hpw := h.wf p hp
  have hle : p.bits - 1 ≤ p.bits := Nat.sub_le _ _
  have hb := hpw.bits_le
  obtain ⟨s', hs', -, -, hne, -⟩ := sibling_spec hpw h0
  obtain rfl : s = s' := some.inj (hs.symm.trans hs')
  have hparw := hpw.upTo hle
  have hparb := bits_upTo hpw hle
  have hlt : (p.upTo (p.bits - 1)).enc < p.enc := enc_lt hparw (by omega)
  have hpar : p.upTo (p.bits - 1) ≠ p := fun heq => absurd hlt (by rw [heq]; exact lt_irrefl _)
  have hpm : p ∈ add (remove set s) (p.upTo (p.bits - 1)) :=
    mem_add.mpr (.inr (mem_remove.mpr ⟨hp, Ne.symm hne⟩))
  refine ⟨_, parent_eq hpw h0, hlt, ((h.remove s).add hparw).remove p, fun v => ?_, ?_⟩
  · have hhalf : (p.upTo (p.bits - 1)).contains v = true ↔ p.contains v = true ∨ s.contains v = true := by
      rw [halves_contain hparw (by omega) v]
      simp only [mem_halves hpw h0 hs, exists_eq_or_imp, exists_eq_left]
    rw [covers_remove fun hv => ⟨_, mem_remove.mpr ⟨mem_add.mpr (.inl rfl), hpar⟩, hhalf.mpr (.inl hv)⟩, covers_add]
    constructor
    · rintro (hv | ⟨g, hg, hv⟩)
      · exact (hhalf.mp hv).elim (fun hv => ⟨p, hp, hv⟩) fun hv => ⟨s, hm, hv⟩
      · exact ⟨g, (mem_remove.mp hg).1, hv⟩
    · rintro ⟨g, hg, hv⟩
      by_cases hgs : g = s
      · exact .inl (hhalf.mpr (.inr (hgs ▸ hv)))
      · exact .inr ⟨g, mem_remove.mpr ⟨hg, hgs⟩, hv⟩
  · calc (remove (add (remove set s) (p.upTo (p.bits - 1))) p).length
        < (add (remove set s) (p.upTo (p.bits - 1))).length := length_remove hpm
      _ ≤ (remove set s).length + 1 := length_add _ _
      _ ≤ set.length := length_remove hm

/-- **A pass** comes to the end, covers the same, and unless it leaves fewer
members it has found no two siblings. -/
theorem pass_spec : ∀ (n : ℕ) (set : Fragset) (cursor : Option Frag) (clean : Bool), Inv set →
    (∀ p, cursor = some p → p ∈ set ∧ set.countP (fun q => p.enc ≤ q.enc) ≤ n) →
    (clean = true → ∀ q ∈ set, Passed cursor q → ∀ s, q.getSibling = some s → s ∉ set) →
    ∃ set' clean', pass n set cursor clean = some (set', clean') ∧ Inv set' ∧ (∀ v, Covers set' v ↔ Covers set v) ∧
      set'.length ≤ set.length ∧ (clean' = true → NoSiblings set') ∧
      (clean' = false → clean = true → set'.length < set.length)
  | n, set, none, clean, h, _, hpassed => by
    refine ⟨set, clean, by cases n <;> rfl, h, fun _ => .rfl, le_rfl, fun hc q hq => ?_, fun h1 h2 => ?_⟩
    · exact hpassed hc q hq nofun
    · rw [h1] at h2
      cases h2
  | 0, set, some p, clean, _, hcur, _ => by
    obtain ⟨hp, hn⟩ := hcur p rfl
    have : 0 < set.countP fun q => p.enc ≤ q.enc := List.countP_pos_iff.mpr ⟨p, hp, decide_eq_true le_rfl⟩
    omega
  | n + 1, set, some p, clean, h, hcur, hpassed => by
    obtain ⟨hp, hn⟩ := hcur p rfl
    rw [pass]
    by_cases hsib : p.bits ≠ 0 ∧ ∃ s, p.getSibling = some s ∧ s ∈ set
    · obtain ⟨h0, s, hs, hm⟩ := hsib
      obtain ⟨parent, hpar, hlt, hinv, hcov, hlen⟩ := merged_spec h hp h0 hs hm
      rw [if_neg h0, hs, bind_some, if_pos hm, hpar, bind_some]
      have hahead : ∀ q, next (add (remove set s) parent) p = some q → q ∈ remove (add (remove set s) parent) p ∧
          (remove (add (remove set s) parent) p).countP (fun r => q.enc ≤ r.enc) ≤ n := fun q hq => by
        obtain ⟨hqm, hpq⟩ := next_some hq
        refine ⟨mem_remove.mpr ⟨hqm, fun heq => by rw [heq] at hpq; exact lt_irrefl _ hpq⟩, ?_⟩
        have hbehind : decide (q.enc ≤ parent.enc) = false := decide_eq_false (by omega)
        have hsub : ∀ (set : Fragset) (f : Frag), (remove set f).countP (fun r => q.enc ≤ r.enc) ≤
            set.countP fun r => q.enc ≤ r.enc := fun _ _ => List.Sublist.countP_le List.filter_sublist
        have := calc (remove (add (remove set s) parent) p).countP (fun r => q.enc ≤ r.enc)
            ≤ (add (remove set s) parent).countP (fun r => q.enc ≤ r.enc) := hsub _ p
          _ = (remove set s).countP (fun r => q.enc ≤ r.enc) := countP_add hbehind
          _ ≤ set.countP (fun r => q.enc ≤ r.enc) := hsub _ s
          _ < set.countP (fun r => p.enc ≤ r.enc) := ahead_lt hp hpq
        omega
      obtain ⟨set', clean', hpass, hinv', hcov', hlen', hno, -⟩ := pass_spec n _ _ false hinv hahead nofun
      exact ⟨set', clean', hpass, hinv', fun v => (hcov' v).trans (hcov v), by omega, hno, fun _ _ => by omega⟩
    · -- the iterator only moves on
      have hno : ∀ s, p.getSibling = some s → s ∉ set := fun s hs hm => by
        refine hsib ⟨fun h0 => ?_, s, hs, hm⟩
        rw [Frag.getSibling, if_neg (not_not_intro h0)] at hs
        cases hs
      have hstep : (if p.bits = 0 then pass n set (next set p) clean
          else p.getSibling.bind fun sibling =>
            if sibling ∈ set then p.parent.bind fun parent =>
              let set := add (remove set sibling) parent
              pass n (remove set p) (next set p) false
            else pass n set (next set p) clean) = pass n set (next set p) clean := by
        by_cases h0 : p.bits = 0
        · rw [if_pos h0]
        · obtain ⟨s, hs, -⟩ := sibling_spec (h.wf p hp) h0
          rw [if_neg h0, hs, bind_some, if_neg (hno s hs)]
      rw [hstep]
      refine pass_spec n set (next set p) clean h (fun q hq => ?_) fun hc q hq hpq => ?_
      · obtain ⟨hqm, hpq⟩ := next_some hq
        have := ahead_lt hp hpq
        exact ⟨hqm, by omega⟩
      · rcases (le_of_passed h hq hpq).lt_or_eq with hlt | heq
        · refine hpassed hc q hq fun p' hp' => ?_
          rw [← some.inj hp']
          exact hlt
        · rw [eq_of_enc heq]
          exact hno

end pass

/-! ### `simplify` and `contains` -/

section simplify

variable {set : Fragset} {f g : Frag}

theorem simplifyLoop_spec : ∀ (n : ℕ) (set : Fragset), Inv set → set.length < n →
    ∃ set', simplifyLoop n set = some set' ∧ Inv set' ∧ NoSiblings set' ∧ ∀ v, Covers set' v ↔ Covers set v
  | n + 1, set, h, hn => by
    obtain ⟨set', clean', hpass, hinv, hcov, hlen, hno, hless⟩ := pass_spec set.length set set.head? true h
      (fun p hp => ⟨List.mem_of_mem_head? hp, List.countP_le_length⟩) fun _ q hq hpq => by
        -- the iterator stands at the first member
        obtain ⟨p, rest, rfl⟩ : ∃ p rest, set = p :: rest := by
          cases set with
          | nil => cases hq
          | cons p rest => exact ⟨p, rest, rfl⟩
        have hlt := hpq p rfl
        obtain rfl | hq := List.mem_cons.mp hq
        · exact absurd hlt (lt_irrefl _)
        · have hle : p.enc ≤ q.enc := List.rel_of_pairwise_cons h.sorted hq
          omega
    rw [simplifyLoop, hpass, bind_some]
    cases clean' with
    | true => exact ⟨set', if_pos rfl, hinv, hno rfl, hcov⟩
    | false =>
      have := hless rfl rfl
      obtain ⟨set'', hs, hinv', hno', hcov'⟩ := simplifyLoop_spec n set' hinv (by omega)
      exact ⟨set'', (if_neg Bool.false_ne_true).trans hs, hinv', hno', fun v => (hcov' v).trans (hcov v)⟩

/-- **`simplify`** comes to an end without siblings and covers the same. -/
theorem simplify_spec (h : Inv set) :
    ∃ set', simplify set = some set' ∧ Inv set' ∧ NoSiblings set' ∧ ∀ v, Covers set' v ↔ Covers set v :=
  simplifyLoop_spec _ set h (Nat.lt_succ_self _)

theorem insert_spec (h : Inv set) (hf : f.Wf) : ∃ set', insert set f = some set' ∧ Inv set' ∧ NoSiblings set' ∧
    ∀ v, Covers set' v ↔ f.contains v = true ∨ Covers set v := by
  obtain ⟨set', hs, hinv, hno, hcov⟩ := simplify_spec (h.add hf)
  exact ⟨set', hs, hinv, hno, fun v => (hcov v).trans covers_add⟩

/-- `contains` tells whether a member is at or above the fragment. -/
theorem containsFrom_spec (h : Inv set) : ∀ (n : ℕ) (g : Frag), g.Wf → g.bits < n →
    ∃ r, containsFrom set n g = some r ∧ (r = true ↔ ∃ f ∈ set, Above f g)
  | n + 1, g, hg, hn => by
    rw [containsFrom]
    by_cases hm : g ∈ set
    · rw [if_pos hm]
      exact ⟨true, rfl, fun _ => ⟨g, hm, .refl hg⟩, fun _ => rfl⟩
    rw [if_neg hm]
    by_cases h0 : g.bits = 0
    · rw [if_pos h0]
      refine ⟨false, rfl, nofun, fun ⟨f, hf, ha⟩ => ?_⟩
      have := ha.bits_le
      rw [ha.eq_of_bits (h.wf f hf) hg (by omega)] at hf
      exact absurd hf hm
    · rw [if_neg h0, parent_eq hg h0, bind_some]
      have hle : g.bits - 1 ≤ g.bits := Nat.sub_le _ _
      have hbits := bits_upTo hg hle
      obtain ⟨r, hr, hiff⟩ := containsFrom_spec h n _ (hg.upTo hle) (by omega)
      refine ⟨r, hr, hiff.trans ⟨?_, ?_⟩⟩
      · rintro ⟨f, hf, ha⟩
        exact ⟨f, hf, ha.trans (h.wf f hf) (hg.upTo hle) (upTo_above hg hle)⟩
      · rintro ⟨f, hf, ha⟩
        have hlt := ha.bits_lt (h.wf f hf) hg fun heq => hm (heq ▸ hf)
        exact ⟨f, hf, above_upTo hg (h.wf f hf) ha hle (by omega)⟩

/-- **What is covered lies within a member**, if no two members are siblings. -/
theorem covers_spec (h : Inv set) (hno : NoSiblings set) : ∀ (k : ℕ) (g : Frag), g.Wf → g.bits + k = 24 →
    (∀ v < 2 ^ 32, g.contains v = true → Covers set v) → ∃ f ∈ set, Above f g
  | 0, g, hg, hk, hall => by
    have hv : g.value < 2 ^ 24 := hg.value_lt.trans_le (Nat.pow_le_pow_right (by decide) hg.bits_le)
    obtain ⟨f, hf, hfv⟩ := hall g.value (by omega) (contains_value hg)
    exact ⟨f, hf, above_of_common (h.wf f hf) hg hfv (contains_value hg) ((h.wf f hf).bits_le.trans hk.ge)⟩
  | k + 1, g, hg, hk, hall => by
    have hhalf : ∀ c ∈ g.split 1, c.Wf ∧ c.bits = g.bits + 1 ∧ Above g c ∧ ∃ f ∈ set, Above f c := fun c hc => by
      obtain ⟨hcw, hcb, ha⟩ := (mem_split_iff hg (by omega)).mp hc
      exact ⟨hcw, hcb, ha, covers_spec h hno k c hcw (by omega) fun v hv hcv => hall v hv (ha.contains hg hcw hcv)⟩
    -- a half lies within a member that does not contain `g` only by being one
    by_cases hself : ∀ c ∈ g.split 1, c ∈ set
    · obtain ⟨c, hc⟩ : ∃ c, c ∈ g.split 1 := ⟨_, List.mem_cons_self⟩
      obtain ⟨hcw, hcb, ha, -⟩ := hhalf c hc
      obtain ⟨s, hs, -⟩ := sibling_spec hcw (by omega)
      have hup : c.upTo (c.bits - 1) = g := by
        rw [eq_upTo hcw hg ha]
        congr 1
        omega
      have hsm : s ∈ g.split 1 := hup ▸ (mem_halves hcw (by omega) hs).mpr (.inr rfl)
      exact absurd (hself s hsm) (hno c (hself c hc) s hs)
    · obtain ⟨c, hc⟩ := not_forall.mp hself
      obtain ⟨hc, hnot⟩ := Classical.not_imp.mp hc
      obtain ⟨hcw, hcb, ha, f, hf, hfc⟩ := hhalf c hc
      have hlt := hfc.bits_lt (h.wf f hf) hcw fun heq => hnot (heq ▸ hf)
      exact ⟨f, hf, hfc.chain (h.wf f hf) hg ha (by omega)⟩

theorem insertAll_spec : ∀ (fs : List Frag) (set : Fragset), (∀ f ∈ fs, f.Wf) → Inv set → NoSiblings set →
    ∃ set', fs.foldlM insert set = some set' ∧ Inv set' ∧ NoSiblings set' ∧
      ∀ v, Covers set' v ↔ Covers set v ∨ ∃ f ∈ fs, f.contains v = true
  | [], set, _, h, hno => ⟨set, rfl, h, hno, fun v => by simp⟩
  | f :: fs, set, hf, h, hno => by
    obtain ⟨hf, hfs⟩ := List.forall_mem_cons.mp hf
    obtain ⟨set1, hs1, hinv1, hno1, hcov1⟩ := insert_spec h hf
    obtain ⟨set2, hs2, hinv2, hno2, hcov2⟩ := insertAll_spec fs set1 hfs hinv1 hno1
    refine ⟨set2, ?_, hinv2, hno2, fun v => ?_⟩
    · rw [List.foldlM_cons, hs1]
      exact hs2
    · rw [hcov2, hcov1, List.exists_mem_cons_iff, or_comm (a := f.contains v = true), or_assoc]

/-- **A `fragset_t` is what its fragments cover**: however they are inserted,
`simplify` comes to an end, no two siblings are left, and `contains` tells
whether every value in a fragment is in one of those inserted. -/
theorem fragset_covers (fs : List Frag) (h : ∀ f ∈ fs, f.Wf) : ∃ set, fs.foldlM insert [] = some set ∧ NoSiblings set ∧
    ∀ g : Frag, g.Wf → ∃ r, contains set g = some r ∧
      (r = true ↔ ∀ v < 2 ^ 32, g.contains v = true → ∃ f ∈ fs, f.contains v = true) := by
  obtain ⟨set, hset, hinv, hno, hcov⟩ := insertAll_spec fs [] h ⟨nofun, .nil⟩ nofun
  have hcov : ∀ v, Covers set v ↔ ∃ f ∈ fs, f.contains v = true := fun v => by
    rw [hcov]
    exact or_iff_right fun ⟨f, hf, _⟩ => List.not_mem_nil hf
  refine ⟨set, hset, hno, fun g hg => ?_⟩
  obtain ⟨r, hr, hiff⟩ := containsFrom_spec hinv (height g) g hg (Nat.lt_succ_self _)
  refine ⟨r, hr, hiff.trans ⟨?_, ?_⟩⟩
  · rintro ⟨f, hf, ha⟩ v - hv
    exact (hcov v).mp ⟨f, hf, ha.contains (hinv.wf f hf) hg hv⟩
  · intro hall
    have := hg.bits_le
    exact covers_spec hinv hno (24 - g.bits) g hg (by omega) fun v hv hgv => (hcov v).mpr (hall v hv hgv)

/-- Both quarters of a half after a piece of one of them. -/
theorem fragset_covers_half : [frag 2 3, frag 0 2, frag 2 2].foldlM insert [] = some [frag 0 1, frag 2 3] ∧
    ∃ set, [frag 2 3, frag 0 2, frag 2 2].foldlM insert [] = some set ∧ NoSiblings set ∧
      ∀ g : Frag, g.Wf → ∃ r, contains set g = some r ∧
        (r = true ↔ ∀ v < 2 ^ 32, g.contains v = true → ∃ f ∈ [frag 2 3, frag 0 2, frag 2 2], f.contains v = true) := by
  refine ⟨by decide +kernel, fragset_covers _ fun f hf => ?_⟩
  have hfrag : f = frag 2 3 ∨ f = frag 0 2 ∨ f = frag 2 2 := by simpa using hf
  obtain rfl | rfl | rfl := hfrag
  · exact wf_frag (by decide)
  · exact wf_frag (by decide)
  · exact wf_frag (by decide)

end simplify

end Fragset
end Frags
end Ceph
