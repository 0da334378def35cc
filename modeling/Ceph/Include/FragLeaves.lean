/-
# Queries about leaves

In a tree without loose splits the leaves are the fragments that are reached
from the root and not split: nothing is reached between a split and its
pieces, nor below a leaf. The loops that start from the branch of `x` go down
every path that comes near `x`: they list the leaves in `x`, and also those of
the branch that have fewer bits than `x`.

So `is_leaf` and `contains` agree with the list of all leaves. But
`get_leaves_under` does what its comment says only for fragments that are not
below a leaf: below one it lists that leaf, and those of its siblings that are
leaves with it.
-/
import Ceph.Include.FragPaths

namespace Ceph
namespace Frags

open List
open Relation (ReflTransGen)

/-! ### `contains` -/

/-- What the loops from the branch of `x` pass over: as specific as `x`, and not in it. -/
def beside (x f : Frag) : Bool := x.bits ≤ f.bits && !x.containsFrag f

/-- The loop of `contains`. -/
def containsLoop (t : Fragtree) (x : Frag) : ℕ → List Frag → Option Bool
  | _, [] => some false
  | 0, _ :: _ => none
  | n + 1, f :: q =>
    if beside x f then containsLoop t x n q
    else
      let nb := getSplit t f
      if nb ≠ 0 then if f = x then some false else containsLoop t x n (q ++ f.split nb)
      else if f = x then some true else containsLoop t x n q

/-- `fragtree_t::contains`. -/
def contains (t : Fragtree) (x : Frag) : Option Bool :=
  (getBranch t (height x) x).bind fun branch => containsLoop t x fuel [branch]

/-! ### Well-formed trees -/

/-- A tree that splits and merges make: no split hangs loose. -/
def WellFormed (t : Fragtree) : Prop := Inv (fun _ => False) t

/-- Reached from the root, and not split. -/
def Leaf (t : Fragtree) (x : Frag) : Prop := Reached t x ∧ getSplit t x = 0

section paths

variable {loose : Frag → Prop} {t : Fragtree} {p x g f : Frag}

theorem Inv.piece (h : Inv loose t) (hc : Child t p x) :
    p.Wf ∧ x.Wf ∧ x.bits = p.bits + getSplit t p ∧ Above p x := by
  obtain ⟨hp, hb⟩ := h.wf p hc.1
  obtain ⟨hx, hbits, ha⟩ := (mem_split_iff hp hb).mp hc.2
  exact ⟨hp, hx, hbits, ha⟩

theorem Inv.piece_above (h : Inv loose t) (hs : getSplit t p ≠ 0) (hx : x.Wf) (ha : Above p x)
    (hb : p.bits + getSplit t p ≤ x.bits) : ∃ c, Child t p c ∧ Above c x :=
  ⟨_, ⟨hs, upTo_mem_split (h.wf p hs).1 hx ha hb⟩, upTo_above hx hb⟩

theorem Inv.path_above (h : Inv loose t) (hg : g.Wf) (hp : ReflTransGen (Child t) g f) : f.Wf ∧ Above g f := by
  induction hp with
  | refl => exact ⟨hg, .refl hg⟩
  | tail _ hc ih =>
    obtain ⟨hb, hc, -, ha⟩ := h.piece hc
    exact ⟨hc, ih.2.trans hg hb ha⟩

theorem reached_iff : Reached t x ↔ ReflTransGen (Child t) root x := by
  constructor
  · intro h
    induction h with
    | root => exact .refl
    | piece _ hc ih => exact ih.tail hc
  · intro h
    induction h with
    | refl => exact .root
    | tail _ hc ih => exact .piece ih hc

theorem Reached.wf (h : Inv loose t) (hx : Reached t x) : x.Wf := (h.path_above wf_root (reached_iff.mp hx)).1

end paths

section wellFormed

variable {t : Fragtree} {p x y f g : Frag}

theorem WellFormed.reached (h : WellFormed t) (hs : getSplit t x ≠ 0) : Reached t x :=
  Inv.reached h _ x le_rfl ((h.linked x hs).resolve_right id)

/-- **Nothing is reached between a split and its pieces.** -/
theorem WellFormed.gap (h : WellFormed t) : ∀ (n : ℕ) (z : Frag), z.bits ≤ n → Reached t z →
    ∀ p, getSplit t p ≠ 0 → Above p z → p ≠ z → p.bits + getSplit t p ≤ z.bits := by
  intro n
  induction n with
  | zero =>
    intro z hn hz p hs ha hne
    have := ha.bits_lt (h.wf p hs).1 (hz.wf h) hne
    omega
  | succ n ih =>
    intro z hn hz p hs ha hne
    have hp := (h.wf p hs).1
    have hlt := ha.bits_lt hp (hz.wf h) hne
    cases hz with
    | root => exact absurd hlt (Nat.not_lt_zero _)
    | @piece d _ hd hc =>
      obtain ⟨hdw, -, hbits, hda⟩ := h.piece hc
      have hpos := hc.1
      rcases le_or_gt p.bits d.bits with hle | hgt
      · by_cases heq : p = d
        · rw [heq, hbits]
        · have := ih d (by omega) hd p hs (ha.chain hp hdw hda hle) heq
          omega
      · -- `p` would be between `d` and its piece
        have hdp := hda.chain hdw hp ha hgt.le
        have := ih p (by omega) (h.reached hs) d hc.1 hdp fun heq => by rw [heq] at hgt; omega
        omega

theorem WellFormed.below_leaf (h : WellFormed t) (hf : Leaf t f) {z : Frag} (hz : Reached t z) (ha : Above f z) :
    f = z := by
  have hfw := hf.1.wf h
  induction hz with
  | root => exact eq_root hfw (Nat.le_zero.mp ha.bits_le)
  | @piece d z hd hc ih =>
    obtain ⟨hdw, hzw, hbits, hda⟩ := h.piece hc
    rcases le_or_gt f.bits d.bits with hle | hgt
    · exact absurd (ih (ha.chain hfw hdw hda hle) ▸ hf.2) hc.1
    · have hgap := h.gap _ f le_rfl hf.1 d hc.1 (hda.chain hdw hfw ha hgt.le) fun heq => by rw [heq] at hgt; omega
      exact ha.eq_of_bits hfw hzw (by omega)

theorem WellFormed.path (h : WellFormed t) (hg : Reached t g) (hf : Reached t f) (ha : Above g f) :
    ReflTransGen (Child t) g f := by
  have hgw := hg.wf h
  induction hf with
  | root => rw [eq_root hgw (Nat.le_zero.mp ha.bits_le)]
  | @piece d f hd hc ih =>
    obtain ⟨hdw, hfw, hbits, hda⟩ := h.piece hc
    rcases le_or_gt g.bits d.bits with hle | hgt
    · exact (ih (ha.chain hgw hdw hda hle)).tail hc
    · have hgap := h.gap _ g le_rfl hg d hc.1 (hda.chain hdw hgw ha hgt.le) fun heq => by rw [heq] at hgt; omega
      rw [ha.eq_of_bits hgw hfw (by omega)]

theorem Reached.path (hg : Reached t g) (hp : ReflTransGen (Child t) g f) : Reached t f :=
  reached_iff.mpr ((reached_iff.mp hg).trans hp)

theorem Branch.reached (h : WellFormed t) {ok : Frag → Prop} {b : Frag} (hb : Branch t ok x b) : Reached t b := by
  obtain rfl | hs := hb.split
  · exact .root
  · exact h.reached hs

end wellFormed

/-! ### What the loops list -/

/-- From `g` the loops that pass over what `skip` names list `f`. -/
inductive Yields (t : Fragtree) (skip : Frag → Bool) : Frag → Frag → Prop
  | leaf {f : Frag} : skip f = false → getSplit t f = 0 → Yields t skip f f
  | piece {g c f : Frag} : skip g = false → Child t g c → Yields t skip c f → Yields t skip g f

section walk

variable {loose : Frag → Prop} {t : Fragtree} {skip : Frag → Bool} {x g f : Frag}

theorem Yields.unsplit (h : Yields t skip g f) : getSplit t f = 0 := by
  induction h with
  | leaf _ h0 => exact h0
  | piece _ _ _ ih => exact ih

theorem Yields.wf (h : Inv loose t) (hg : g.Wf) (hy : Yields t skip g f) : f.Wf := by
  induction hy with
  | leaf _ _ => exact hg
  | piece _ hc _ ih => exact ih (h.piece hc).2.1

theorem not_yields_skipped (hs : skip g = true) : ¬ Yields t skip g f := by
  intro h
  cases h with
  | leaf h' _ => rw [hs] at h'; cases h'
  | piece h' _ _ => rw [hs] at h'; cases h'

theorem yields_unsplit (hs : skip g = false) (h0 : getSplit t g = 0) : Yields t skip g f ↔ f = g := by
  constructor
  · intro h
    cases h with
    | leaf _ _ => rfl
    | piece _ hc _ => exact absurd h0 hc.1
  · rintro rfl
    exact .leaf hs h0

theorem yields_split (hs : skip g = false) (h0 : getSplit t g ≠ 0) :
    Yields t skip g f ↔ ∃ c ∈ g.split (getSplit t g), Yields t skip c f := by
  constructor
  · intro h
    cases h with
    | leaf _ h' => exact absurd h' h0
    | piece _ hc hy => exact ⟨_, hc.2, hy⟩
  · rintro ⟨c, hc, hy⟩
    exact .piece hs ⟨h0, hc⟩ hy

theorem weight_pos {f : Frag} (hf : f.Wf) : 1 ≤ 2 ^ (25 - f.bits) - 1 := by
  have hpow : 2 ^ 1 ≤ 2 ^ (25 - f.bits) := Nat.pow_le_pow_right (by decide) (by have := hf.bits_le; omega)
  omega

theorem weight_single (f : Frag) : weight [f] ≤ fuel := by
  have hpow : 2 ^ (25 - f.bits) ≤ 2 ^ 25 := Nat.pow_le_pow_right (by decide) (Nat.sub_le _ _)
  exact (Nat.add_le_add_right (Nat.sub_le _ _) _).trans hpow

theorem Inv.queue (h : Inv loose t) {n : ℕ} {q : List Frag} (hf : ∀ g ∈ f :: q, g.Wf) (hs : getSplit t f ≠ 0)
    (hn : weight (f :: q) ≤ n + 1) :
    (∀ g ∈ q ++ f.split (getSplit t f), g.Wf) ∧ weight (q ++ f.split (getSplit t f)) ≤ n := by
  obtain ⟨hf, hq⟩ := forall_mem_cons.mp hf
  obtain ⟨-, hb⟩ := h.wf f hs
  refine ⟨forall_mem_append.mpr ⟨hq, fun c hc => ((mem_split hf hb).mp hc).1⟩, ?_⟩
  have := weight_split hf hb hs
  rw [weight_cons] at hn
  rw [weight_append]
  omega

theorem weight_rest {n : ℕ} {q : List Frag} (hf : f.Wf) (hn : weight (f :: q) ≤ n + 1) : weight q ≤ n := by
  have := weight_pos hf
  rw [weight_cons] at hn
  omega

theorem exists_fuel {n : ℕ} {q : List Frag} (hf : f.Wf) (hn : weight (f :: q) ≤ n) : ∃ m, n = m + 1 := by
  have := weight_pos hf
  rw [weight_cons] at hn
  exact ⟨n - 1, by omega⟩

/-- **The loops come to an end** and list what the queue yields, no number more often than it is queued. -/
theorem walk_spec (h : Inv loose t) (skip : Frag → Bool) : ∀ (n : ℕ) (q ls : List Frag), (∀ f ∈ q, f.Wf) →
    weight q ≤ n → ∃ r, walk t skip n q ls = some r ∧ (∀ f, f ∈ r ↔ f ∈ ls ∨ ∃ g ∈ q, Yields t skip g f) ∧
      ∀ v, r.countP (fun f => f.contains v) ≤ (q ++ ls).countP fun f => f.contains v
  | n, [], ls, _, _ => ⟨ls, walk_nil n ls, fun f => by simp, fun v => le_rfl⟩
  | n, g :: q, ls, hq, hn => by
    obtain ⟨hg, hq'⟩ := forall_mem_cons.mp hq
    obtain ⟨n, rfl⟩ := exists_fuel hg hn
    have hn' := weight_rest hg hn
    simp only [exists_mem_cons_iff]
    rw [walk]
    by_cases hs : skip g = true
    · rw [if_pos hs]
      obtain ⟨r, hr, hmem, hcount⟩ := walk_spec h skip n q ls hq' hn'
      refine ⟨r, hr, fun f => ?_, fun v => (hcount v).trans ?_⟩
      · rw [hmem, or_iff_right (not_yields_skipped hs)]
      · rw [cons_append, countP_cons]
        exact Nat.le_add_right _ _
    rw [if_neg hs]
    have hs : skip g = false := Bool.eq_false_iff.mpr hs
    by_cases h0 : getSplit t g = 0
    · rw [if_neg (not_not_intro h0)]
      obtain ⟨r, hr, hmem, hcount⟩ := walk_spec h skip n q (ls ++ [g]) hq' hn'
      refine ⟨r, hr, fun f => ?_, fun v => (hcount v).trans ?_⟩
      · rw [hmem, mem_append, mem_singleton, yields_unsplit hs h0, or_assoc]
      · rw [← List.append_assoc, countP_append, countP_singleton, cons_append, countP_cons]
    · rw [if_pos h0]
      obtain ⟨hwf, hw⟩ := h.queue hq h0 hn
      obtain ⟨r, hr, hmem, hcount⟩ := walk_spec h skip n (q ++ g.split (getSplit t g)) ls hwf hw
      refine ⟨r, hr, fun f => ?_, fun v => (hcount v).trans ?_⟩
      · rw [hmem, yields_split hs h0]
        simp only [mem_append, or_and_right, exists_or]
        rw [or_comm (a := ∃ x, x ∈ q ∧ _)]
      · rw [List.append_assoc, countP_append, countP_append, countP_split hg (h.wf g h0).2,
          cons_append, countP_cons, countP_append]
        omega

/-- The loop of `contains` tells whether the queue yields `x`. -/
theorem containsLoop_spec (h : Inv loose t) (x : Frag) : ∀ (n : ℕ) (q : List Frag), (∀ f ∈ q, f.Wf) → weight q ≤ n →
    ∃ r, containsLoop t x n q = some r ∧ (r = true ↔ ∃ g ∈ q, Yields t (beside x) g x)
  | n, [], _, _ => ⟨false, by cases n <;> rfl, by simp⟩
  | n, g :: q, hq, hn => by
    obtain ⟨hg, hq'⟩ := forall_mem_cons.mp hq
    obtain ⟨n, rfl⟩ := exists_fuel hg hn
    have hn' := weight_rest hg hn
    simp only [exists_mem_cons_iff]
    rw [containsLoop]
    by_cases hs : beside x g = true
    · rw [if_pos hs]
      obtain ⟨r, hr, hiff⟩ := containsLoop_spec h x n q hq' hn'
      exact ⟨r, hr, by rw [hiff, or_iff_right (not_yields_skipped hs)]⟩
    rw [if_neg hs]
    have hs : beside x g = false := Bool.eq_false_iff.mpr hs
    by_cases h0 : getSplit t g = 0
    · rw [if_neg (not_not_intro h0)]
      by_cases hx : g = x
      · rw [if_pos hx]
        exact ⟨true, rfl, fun _ => .inl ((yields_unsplit hs h0).mpr hx.symm), fun _ => rfl⟩
      · rw [if_neg hx]
        obtain ⟨r, hr, hiff⟩ := containsLoop_spec h x n q hq' hn'
        exact ⟨r, hr, by rw [hiff, yields_unsplit hs h0, or_iff_right (Ne.symm hx)]⟩
    · rw [if_pos h0]
      by_cases hx : g = x
      · rw [if_pos hx]
        exact ⟨false, rfl, nofun, fun hy => by
          obtain ⟨d, hd⟩ : ∃ d, Yields t (beside x) d x := hy.elim (fun hy => ⟨_, hy⟩) fun ⟨d, _, hy⟩ => ⟨d, hy⟩
          exact absurd hd.unsplit (hx ▸ h0)⟩
      · rw [if_neg hx]
        obtain ⟨hwf, hw⟩ := h.queue hq h0 hn
        obtain ⟨r, hr, hiff⟩ := containsLoop_spec h x n _ hwf hw
        refine ⟨r, hr, ?_⟩
        rw [hiff, yields_split hs h0]
        simp only [mem_append, or_and_right, exists_or]
        exact or_comm

end walk

/-! ### The queries -/

section queries

variable {loose : Frag → Prop} {t : Fragtree} {x g f b : Frag}

theorem beside_eq_false : beside x f = false ↔ f.bits < x.bits ∨ Above x f := by
  rw [beside, Bool.and_eq_false_iff, decide_eq_false_iff_not, not_le, Bool.not_eq_false']
  rfl

/-- Everything on the way to a fragment that is not beside `x` is not beside it either. -/
theorem yields_beside (h : Inv loose t) (hx : x.Wf) (hg : g.Wf) : Yields t (beside x) g f ↔
    ReflTransGen (Child t) g f ∧ getSplit t f = 0 ∧ (f.bits < x.bits ∨ Above x f) := by
  constructor
  · intro hy
    induction hy with
    | @leaf f hs h0 => exact ⟨.refl, h0, beside_eq_false.mp hs⟩
    | piece _ hc _ ih =>
      obtain ⟨hp, hrest⟩ := ih (h.piece hc).2.1
      exact ⟨.head hc hp, hrest⟩
  · rintro ⟨hp, h0, hn⟩
    induction hp using ReflTransGen.head_induction_on with
    | refl => exact .leaf (beside_eq_false.mpr hn) h0
    | @head g c hc hp ih =>
      obtain ⟨hcw, -⟩ := (h.piece hc).2
      obtain ⟨hf, ha⟩ := h.path_above hg (.head hc hp)
      refine .piece (beside_eq_false.mpr ?_) hc (ih hcw)
      rcases lt_or_ge g.bits x.bits with hlt | hge
      · exact .inl hlt
      · -- `f` is in `x` then, as it is in `g`
        have hxf : Above x f := hn.resolve_left (not_lt.mpr (hge.trans ha.bits_le))
        exact .inr (hxf.chain hx hg ha hge)

theorem getLeavesUnder_eq (t : Fragtree) (x : Frag) : getLeavesUnder t x =
    (getBranch t (height x) x).bind fun branch => walk t (beside x) fuel [branch] [] := rfl

theorem forall_single {P : Frag → Prop} (hb : P b) : ∀ f ∈ [b], P f := fun _ hf => mem_singleton.mp hf ▸ hb

theorem walk_single (h : Inv loose t) (skip : Frag → Bool) (hb : b.Wf) :
    ∃ ls, walk t skip fuel [b] [] = some ls ∧ ls.Nodup ∧ ∀ f, f ∈ ls ↔ Yields t skip b f := by
  obtain ⟨ls, hls, hmem, hcount⟩ := walk_spec h skip fuel [b] [] (forall_single hb) (weight_single b)
  have hmem : ∀ f, f ∈ ls ↔ Yields t skip b f := fun f => by
    rw [hmem, or_iff_right not_mem_nil]
    simp only [mem_singleton, exists_eq_left]
  refine ⟨ls, hls, ?_, hmem⟩
  have hpair := pairwise_of_counts fun v => (hcount v).trans (countP_le_length)
  refine hpair.imp_of_mem fun {f g} hf _ hd heq => ?_
  have hself := contains_value (((hmem f).mp hf).wf h hb)
  exact hd f.value ⟨hself, heq ▸ hself⟩

/-- **What `get_leaves_under` lists**: the leaves of the branch with fewer bits than `x`, or in `x`. -/
theorem leavesUnder_spec (h : Inv loose t) (hx : x.Wf) : ∃ b ls, Branch t (fun _ => True) x b ∧
    getLeavesUnder t x = some ls ∧ ls.Nodup ∧
    ∀ f, f ∈ ls ↔ ReflTransGen (Child t) b f ∧ getSplit t f = 0 ∧ (f.bits < x.bits ∨ Above x f) := by
  obtain ⟨b, hb, hbranch⟩ := getBranch_spec t (height x) x hx (Nat.lt_succ_self _)
  obtain ⟨ls, hls, hnodup, hmem⟩ := walk_single h (beside x) hbranch.wf
  refine ⟨b, ls, hbranch, ?_, hnodup, fun f => (hmem f).trans (yields_beside h hx hbranch.wf)⟩
  rw [getLeavesUnder_eq, hb, Option.bind_some, hls]

/-- **`is_leaf`**: not split, and the root or a piece of the branch. -/
theorem isLeaf_iff (h : Inv loose t) (hx : x.Wf) (hb : Branch t (fun _ => True) x b) :
    isLeaf t x = true ↔ getSplit t x = 0 ∧ (x = root ∨ Child t b x) := by
  obtain ⟨b', ls, hb', hls, hnodup, hmem⟩ := leavesUnder_spec h hx
  obtain rfl : b = b' := hb.unique hb' trivial trivial
  have hself : isLeaf t x = true ↔ ∀ f, f ∈ ls ↔ f = x := by
    rw [isLeaf, hls, decide_eq_true_iff, Option.some_inj]
    constructor
    · rintro rfl f
      exact mem_singleton
    · intro hall
      exact perm_singleton.mp ((perm_ext_iff_of_nodup hnodup (nodup_singleton x)).mpr fun f => by
        rw [hall, mem_singleton])
  rw [hself]
  constructor
  · intro hall
    obtain ⟨hp, h0, -⟩ := (hmem x).mp ((hall x).mpr rfl)
    refine ⟨h0, ?_⟩
    obtain rfl | ⟨c, hc, hcx⟩ := hp.cases_head
    · exact .inl (hb.split.resolve_right (not_not_intro h0))
    · obtain ⟨hbw, hcw, hbits, hbc⟩ := h.piece hc
      obtain ⟨-, hca⟩ := h.path_above hcw hcx
      obtain rfl | ⟨d, hd, -⟩ := hcx.cases_head
      · exact .inr hc
      · -- a split between `x` and its branch
        have := (hb.nearest c hcw hca trivial hd.1).bits_le
        have := hc.1
        omega
  · rintro ⟨h0, hor⟩ f
    rw [hmem]
    constructor
    · rintro ⟨hp, hf0, hn⟩
      have hend : ReflTransGen (Child t) x f → f = x := fun hxf => by
        obtain rfl | ⟨d, hd, -⟩ := hxf.cases_head
        · rfl
        · exact absurd h0 hd.1
      obtain rfl | hc := hor
      · rw [eq_root hb.wf (Nat.le_zero.mp hb.above.bits_le)] at hp
        exact hend hp
      · obtain rfl | ⟨c, hcb, hcf⟩ := hp.cases_head
        · exact absurd hf0 hc.1
        · obtain ⟨-, hcw, hcbits, -⟩ := h.piece hcb
          obtain ⟨-, -, hxbits, -⟩ := h.piece hc
          obtain ⟨-, hca⟩ := h.path_above hcw hcf
          have hle := hca.bits_le
          have hxa : Above x f := hn.resolve_left (by omega)
          rw [hxa.unique hx hcw hca (by omega)] at hend ⊢
          exact hend hcf
    · rintro rfl
      refine ⟨?_, h0, .inr (.refl hx)⟩
      obtain rfl | hc := hor
      · rw [eq_root hb.wf (Nat.le_zero.mp hb.above.bits_le)]
      · exact .single hc

theorem yields_all : Yields t (fun _ => false) g f ↔ ReflTransGen (Child t) g f ∧ getSplit t f = 0 := by
  constructor
  · intro hy
    induction hy with
    | leaf _ h0 => exact ⟨.refl, h0⟩
    | piece _ hc _ ih => exact ⟨.head hc ih.1, ih.2⟩
  · rintro ⟨hp, h0⟩
    induction hp using ReflTransGen.head_induction_on with
    | refl => exact .leaf rfl h0
    | head hc _ ih => exact .piece rfl hc ih

end queries

/-! ### In a well-formed tree -/

section agree

variable {t : Fragtree} {x p f b : Frag}

theorem wellFormed_of_reach (h : Run.Reach step Allowed empty t) : WellFormed t :=
  h.inv (Inv fun _ => False) inv_empty fun _ _ _ => step_inv

section

variable (h : WellFormed t)
include h

theorem Branch.of_child (hc : Child t p x) {ok : Frag → Prop}
    (hok : ∀ g, ok g → getSplit t g ≠ 0 → g ≠ x) : Branch t ok x p := by
  obtain ⟨hp, hx, hbits, ha⟩ := h.piece hc
  refine ⟨hp, ha, .inr hc.1, fun g hg hgx ho hs => ?_⟩
  rcases le_or_gt g.bits p.bits with hle | hgt
  · exact hgx.chain hg hp ha hle
  · have hgap := h.gap _ g le_rfl (h.reached hs) p hc.1 (ha.chain hp hg hgx hgt.le) fun heq => by
      rw [heq] at hgt
      omega
    exact absurd (hgx.eq_of_bits hg hx (by omega)) (hok g ho hs)

/-- **`is_leaf` is true of the leaves**, and of nothing else. -/
theorem isLeaf_iff_leaf (hx : x.Wf) : isLeaf t x = true ↔ Leaf t x := by
  obtain ⟨b, -, hb⟩ := getBranch_spec t (height x) x hx (Nat.lt_succ_self _)
  rw [isLeaf_iff h hx hb]
  constructor
  · rintro ⟨h0, rfl | hc⟩
    · exact ⟨.root, h0⟩
    · exact ⟨.piece (hb.reached h) hc, h0⟩
  · rintro ⟨hr, h0⟩
    refine ⟨h0, ?_⟩
    cases hr with
    | root => exact .inl rfl
    | @piece p _ hp hc =>
      have hpb : Branch t (fun _ => True) x p := .of_child h hc fun g _ hs heq => hs (heq ▸ h0)
      exact .inr (hb.unique hpb trivial trivial ▸ hc)

/-- `get_leaves` lists the leaves. -/
theorem getLeaves_spec : ∃ ls, getLeaves t = some ls ∧ ls.Nodup ∧ ∀ f, f ∈ ls ↔ Leaf t f := by
  obtain ⟨ls, hls, hnodup, hmem⟩ := walk_single h (fun _ => false) wf_root
  refine ⟨ls, hls, hnodup, fun f => ?_⟩
  rw [hmem, yields_all, Leaf, reached_iff]

theorem contains_spec (hx : x.Wf) : ∃ r, contains t x = some r ∧ (r = true ↔ Leaf t x) := by
  obtain ⟨b, hb, hbranch⟩ := getBranch_spec t (height x) x hx (Nat.lt_succ_self _)
  obtain ⟨r, hr, hiff⟩ := containsLoop_spec h x fuel [b] (forall_single hbranch.wf) (weight_single b)
  refine ⟨r, by rw [contains, hb, Option.bind_some, hr], hiff.trans ?_⟩
  simp only [mem_singleton, exists_eq_left]
  rw [yields_beside h hx hbranch.wf]
  have hbr := hbranch.reached h
  constructor
  · rintro ⟨hp, h0, -⟩
    exact ⟨hbr.path hp, h0⟩
  · rintro ⟨hr, h0⟩
    exact ⟨h.path hbr hr hbranch.above, h0, .inr (.refl hx)⟩

/-- What `get_leaves_under` lists of a well-formed tree. -/
theorem mem_leavesUnder (hx : x.Wf) : ∃ b ls, Branch t (fun _ => True) x b ∧
    getLeavesUnder t x = some ls ∧ ls.Nodup ∧
    ∀ f, f ∈ ls ↔ Leaf t f ∧ Above b f ∧ (f.bits < x.bits ∨ Above x f) := by
  obtain ⟨b, ls, hb, hls, hnodup, hmem⟩ := leavesUnder_spec h hx
  have hbr := hb.reached h
  refine ⟨b, ls, hb, hls, hnodup, fun f => (hmem f).trans ?_⟩
  constructor
  · rintro ⟨hp, h0, hn⟩
    exact ⟨⟨hbr.path hp, h0⟩, (h.path_above hb.wf hp).2, hn⟩
  · rintro ⟨⟨hr, h0⟩, ha, hn⟩
    exact ⟨h.path hbr hr ha, h0, hn⟩

/-- Where the branch has a leaf with fewer bits than `x`, a leaf contains `x`. -/
theorem leaf_above (hx : x.Wf) (hb : Branch t (fun _ => True) x b) (hf : Leaf t f) (ha : Above b f)
    (hlt : f.bits < x.bits) : ∃ g, Leaf t g ∧ g ≠ x ∧ Above g x := by
  have hbr := hb.reached h
  have hbits := ha.bits_le
  have hne : ∀ g : Frag, g.bits < x.bits → g ≠ x := fun g hg heq => by
    rw [heq] at hg
    omega
  by_cases hs : getSplit t b = 0
  · exact ⟨b, ⟨hbr, hs⟩, hne b (by omega), hb.above⟩
  · have hgap := h.gap _ f le_rfl hf.1 b hs ha fun heq => hs (heq ▸ hf.2)
    obtain ⟨c, hc, hcx⟩ := h.piece_above hs hx hb.above (by omega)
    obtain ⟨-, hcw, hcb, -⟩ := h.piece hc
    refine ⟨c, ⟨.piece hbr hc, ?_⟩, hne c (by omega), hcx⟩
    by_contra hcs
    have := (hb.nearest c hcw hcx trivial hcs).bits_le
    omega

end

/-- What the queries should answer: `is_leaf` and `contains` whether `x` is
among all leaves, `get_leaves_under` the leaves in `x`, none of them twice. -/
def LeafQueries (t : Fragtree) (x : Frag) : Prop :=
  ∃ ls under r, getLeaves t = some ls ∧ getLeavesUnder t x = some under ∧ contains t x = some r ∧
    (isLeaf t x = true ↔ x ∈ ls) ∧ (r = true ↔ x ∈ ls) ∧ under.Nodup ∧
    ∀ f, f ∈ under ↔ f ∈ ls ∧ x.containsFrag f = true

/-- **The queries agree with the leaves** for the fragments that no other leaf contains. -/
theorem leaf_queries_agree (h : WellFormed t) (hx : x.Wf) :
    LeafQueries t x ↔ ¬ ∃ f, Leaf t f ∧ f ≠ x ∧ f.containsFrag x = true := by
  obtain ⟨b, under, hb, hunder, hnodup, hmem⟩ := mem_leavesUnder h hx
  obtain ⟨ls, hls, -, hleaves⟩ := getLeaves_spec h
  obtain ⟨r, hr, hcont⟩ := contains_spec h hx
  constructor
  · rintro ⟨ls', under', -, hls', hunder', -, -, -, -, hall⟩ ⟨f, hf, hne, ha⟩
    obtain rfl : under = under' := Option.some.inj (hunder.symm.trans hunder')
    have hfw := hf.1.wf h
    have hlt := Above.bits_lt hfw hx ha hne
    have hbf : Above b f := by
      rcases le_or_gt b.bits f.bits with hle | hgt
      · exact hb.above.chain hb.wf hfw ha hle
      · -- `f` is a leaf, so its branch is not below it
        rw [h.below_leaf hf (hb.reached h) (Above.chain hfw hb.wf ha hb.above hgt.le)]
        exact .refl hb.wf
    have := (hall f).mp ((hmem f).mpr ⟨hf, hbf, .inl hlt⟩)
    exact absurd (Above.bits_le this.2) (by omega)
  · intro hno
    refine ⟨ls, under, r, hls, hunder, hr, ?_, ?_, hnodup, fun f => ?_⟩
    · rw [isLeaf_iff_leaf h hx, hleaves]
    · rw [hcont, hleaves]
    · rw [hmem, hleaves]
      constructor
      · rintro ⟨hf, ha, hlt | hxf⟩
        · exact absurd (leaf_above h hx hb hf ha hlt) hno
        · exact ⟨hf, hxf⟩
      · rintro ⟨hf, hxf⟩
        exact ⟨hf, hb.above.trans hb.wf hx hxf, .inr hxf⟩

/-- The namespace in halves, one of them in quarters: the fragments of that half. -/
theorem leaf_queries_agree_half : ∃ t, Run.Reach step Allowed empty t ∧
    getLeavesUnder t (frag 1 1) = some ((frag 1 1).split 2) ∧
    (LeafQueries t (frag 1 1) ↔ ¬ ∃ f, Leaf t f ∧ f ≠ frag 1 1 ∧ f.containsFrag (frag 1 1) = true) := by
  have hrun : (Run.exec step Allowed [.split root 1, .split (frag 1 1) 2] empty).map
      (getLeavesUnder · (frag 1 1)) = some (some ((frag 1 1).split 2)) := by
    decide +kernel
  obtain ⟨t, ht, heq⟩ := Option.map_eq_some_iff.mp hrun
  have hreach := Run.reach_of_exec ht
  exact ⟨t, hreach, heq, leaf_queries_agree (wellFormed_of_reach hreach) (wf_frag (by decide))⟩

/-- Of the namespace in halves both are listed under a quarter. -/
theorem quarter_of_halves : ¬ ∀ t, Run.Reach step Allowed empty t → ∀ x : Frag, x.Wf → LeafQueries t x := by
  intro hall
  have hrun : (Run.exec step Allowed [.split root 1] empty).map (getLeavesUnder · (frag 0 2)) =
      some (some [frag 0 1, frag 1 1]) := by
    decide +kernel
  obtain ⟨t, ht, heq⟩ := Option.map_eq_some_iff.mp hrun
  obtain ⟨ls, under, r, -, hunder, -, -, -, -, hmem⟩ := hall t (Run.reach_of_exec ht) (frag 0 2) (wf_frag (by decide))
  obtain rfl : under = [frag 0 1, frag 1 1] := Option.some.inj (hunder.symm.trans heq)
  have hlisted := (hmem (frag 0 1)).mp mem_cons_self
  exact absurd hlisted.2 (by decide)

end agree

end Frags
end Ceph
