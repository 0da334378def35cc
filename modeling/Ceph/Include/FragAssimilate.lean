/-
# Simplifying keeps the leaves

Where all pieces of a split are split alike, the split takes in theirs: the
pieces of its pieces are its own pieces then, and the pieces themselves are
gone. Of what hangs together only these go, and they were split, so the leaves
stay. What `split` and `merge` do to the leaves is therefore what setting and
erasing one split does.

Key definition: `LeavesAre`.
-/
import Ceph.Include.FragLeaves

namespace Ceph
namespace Frags

section linked

variable {t : Fragtree} {p q x y : Frag} {b : ℕ}

theorem WellFormed.reached_iff (h : WellFormed t) : Reached t x ↔ Linked t x := by
  constructor
  · intro hr
    cases hr with
    | root => exact .inl rfl
    | piece _ hc => exact .inr ⟨_, hc⟩
  · exact Inv.reached h _ x le_rfl

theorem WellFormed.one_parent (h : WellFormed t) (hp : Child t p x) (hq : Child t q x) : p = q := by
  have hbp : Branch t (fun g => g ≠ x) x p := .of_child h hp fun _ hg _ => hg
  have hbq : Branch t (fun g => g ≠ x) x q := .of_child h hq fun _ hg _ => hg
  exact hbp.unique hbq (h.child_ne hp) (h.child_ne hq)

theorem Leaf.unsplit_below (h : WellFormed t) (hx : Leaf t x) (ha : Above x y) : getSplit t y = 0 := by
  by_contra hs
  exact hs (h.below_leaf hx (h.reached hs) ha ▸ hx.2)

theorem nodup_split (hx : x.Wf) (hb : x.bits + b ≤ 24) : (x.split b).Nodup := by
  have hpair : (x.split b).Pairwise fun f g => ∀ v, ¬ (f.contains v ∧ g.contains v) :=
    pairwise_of_counts fun v => by
      rw [countP_split hx hb v]
      split <;> omega
  refine hpair.imp_of_mem fun {f g} hf _ hd heq => ?_
  have hself := contains_value ((mem_split hx hb).mp hf).1
  exact hd f.value ⟨hself, heq ▸ hself⟩

theorem length_split (x : Frag) (b : ℕ) : (x.split b).length = 2 ^ b := by
  rw [Frag.split, List.length_map, List.length_range, Nat.one_shiftLeft]

end linked

section leaves

variable {t t' : Fragtree} {x f : Frag} {b : ℕ}

section

variable (h : WellFormed t)
include h

/-- **What hangs together after simplifying**: what did before, less the pieces that were taken in. -/
theorem assimilate_linked (x : Frag) : tryAssimilateChildren t x = t ∨
    ∃ k, k ≠ 0 ∧ (∀ p ∈ x.split (getSplit t x), getSplit t p = k) ∧
      getSplit (tryAssimilateChildren t x) x = getSplit t x + k ∧
      (∀ y, y ≠ x → y ∉ x.split (getSplit t x) → getSplit (tryAssimilateChildren t x) y = getSplit t y) ∧
      ∀ y, Linked (tryAssimilateChildren t x) y ↔ Linked t y ∧ y ∉ x.split (getSplit t x) := by
  obtain heq | ⟨k, hk, h0, hpieces, hget⟩ := assimilate_cases h x
  · exact .inl heq
  have hwf : WellFormed (tryAssimilateChildren t x) := (assimilate_inv h x).1
  generalize tryAssimilateChildren t x = t' at hget hwf
  obtain ⟨hx, hb⟩ := h.wf x h0
  have hself : getSplit t' x = getSplit t x + k := by
    rw [getSplit, hget, if_pos rfl]
    rfl
  have hother : ∀ y, y ≠ x → y ∉ x.split (getSplit t x) → getSplit t' y = getSplit t y := fun y hne hy => by
    rw [getSplit, hget, if_neg hne, if_neg hy]
    rfl
  have hgone : ∀ y ∈ x.split (getSplit t x), y ≠ x ∧ getSplit t' y = 0 := fun y hy => by
    have hne : y ≠ x := fun heq => by
      have := ((mem_split hx hb).mp hy).2.1
      rw [heq] at this
      omega
    refine ⟨hne, ?_⟩
    rw [getSplit, hget, if_neg hne, if_pos hy]
    rfl
  have hfit : x.bits + (getSplit t x + k) ≤ 24 := hself ▸ (hwf.wf x (by omega)).2
  refine .inr ⟨k, hk, hpieces, hself, hother, fun y => ⟨?_, ?_⟩⟩
  · rintro (rfl | ⟨p, hp0, hpy⟩)
    · refine ⟨.inl rfl, fun hy => ?_⟩
      have := ((mem_split hx hb).mp hy).2.1
      rw [bits_root] at this
      omega
    by_cases hpx : p = x
    · -- a piece of one of the old pieces
      rw [hpx, hself, mem_split_split hx hfit] at hpy
      obtain ⟨s, hs, hys⟩ := hpy
      have hc : Child t s y := ⟨by rw [hpieces s hs]; exact hk, by rwa [hpieces s hs]⟩
      refine ⟨.inr ⟨s, hc⟩, fun hy => ?_⟩
      have hys := (h.child hc).2.2.1
      have hyb := ((mem_split hx hb).mp hy).2.1
      have hsb := ((mem_split hx hb).mp hs).2.1
      omega
    · have hpm : p ∉ x.split (getSplit t x) := fun hpm => hp0 (hgone p hpm).2
      rw [hother p hpx hpm] at hp0 hpy
      exact ⟨.inr ⟨p, hp0, hpy⟩, fun hy => hpx (h.one_parent ⟨hp0, hpy⟩ ⟨h0, hy⟩)⟩
  · rintro ⟨hr | ⟨p, hp⟩, hy⟩
    · exact .inl hr
    have hpx : p ≠ x := fun heq => hy (heq ▸ hp.2)
    by_cases hpm : p ∈ x.split (getSplit t x)
    · refine .inr ⟨x, by omega, ?_⟩
      rw [hself, mem_split_split hx hfit]
      exact ⟨p, hpm, hpieces p hpm ▸ hp.2⟩
    · refine .inr ⟨p, ?_⟩
      rw [Child, hother p hpx hpm]
      exact hp

/-- **Simplifying keeps the leaves.** -/
theorem leaf_assimilate (x f : Frag) : Leaf (tryAssimilateChildren t x) f ↔ Leaf t f := by
  obtain heq | ⟨k, hk, hpieces, hself, hother, hlinked⟩ := assimilate_linked h x
  · rw [heq]
  have hwf : WellFormed (tryAssimilateChildren t x) := (assimilate_inv h x).1
  rw [Leaf, Leaf, hwf.reached_iff, h.reached_iff, hlinked]
  constructor
  · rintro ⟨⟨hl, hf⟩, h0⟩
    have hfx : f ≠ x := fun heq => by
      rw [heq, hself] at h0
      omega
    exact ⟨hl, hother f hfx hf ▸ h0⟩
  · rintro ⟨hl, h0⟩
    have hf : f ∉ x.split (getSplit t x) := fun hf => hk (hpieces f hf ▸ h0)
    by_cases hfx : f = x
    · -- an unsplit fragment has itself for its only piece
      rw [hfx] at h0 hf
      rw [h0] at hf
      have hxw := (h.reached_iff.mpr (hfx ▸ hl)).wf h
      exact absurd ((mem_split_iff hxw hxw.bits_le).mpr ⟨hxw, rfl, .refl hxw⟩) hf
    · exact ⟨⟨hl, hf⟩, (hother f hfx hf).trans h0⟩

theorem put_wellFormed (hx : Leaf t x) (hb : b ≠ 0) (hfit : x.bits + b ≤ 24) :
    WellFormed (put t x b) :=
  (put_inv h hb hfit (h.reached_iff.mp hx.1) hx.2).mono fun _ _ hy => hy.1

/-- Splitting a leaf puts its pieces in its place. -/
theorem leaf_put (hx : Leaf t x) (hb : b ≠ 0) (hfit : x.bits + b ≤ 24) (f : Frag) :
    Leaf (put t x b) f ↔ Leaf t f ∧ f ≠ x ∨ f ∈ x.split b := by
  have hxw := hx.1.wf h
  have hwf := put_wellFormed h hx hb hfit
  have hpiece : ∀ y ∈ x.split b, y ≠ x ∧ getSplit t y = 0 := fun y hy => by
    obtain ⟨-, hbits, ha⟩ := (mem_split_iff hxw hfit).mp hy
    exact ⟨fun heq => by rw [heq] at hbits; omega, hx.unsplit_below h ha⟩
  rw [Leaf, Leaf, hwf.reached_iff, h.reached_iff]
  constructor
  · rintro ⟨hl, h0⟩
    have hfx : f ≠ x := fun heq => hb (by rw [← h0, heq, getSplit_put_self])
    rw [getSplit_put_ne b hfx] at h0
    obtain hr | ⟨p, hp⟩ := hl
    · exact .inl ⟨⟨.inl hr, h0⟩, hfx⟩
    by_cases hpx : p = x
    · rw [hpx, Child, getSplit_put_self] at hp
      exact .inr hp.2
    · rw [Child, getSplit_put_ne b hpx] at hp
      exact .inl ⟨⟨.inr ⟨p, hp⟩, h0⟩, hfx⟩
  · rintro (⟨⟨hl, h0⟩, hfx⟩ | hf)
    · refine ⟨?_, (getSplit_put_ne b hfx).trans h0⟩
      obtain hr | ⟨p, hp⟩ := hl
      · exact .inl hr
      · have hpx : p ≠ x := fun heq => hp.1 (heq ▸ hx.2)
        refine .inr ⟨p, ?_⟩
        rw [Child, getSplit_put_ne b hpx]
        exact hp
    · obtain ⟨hfx, h0⟩ := hpiece f hf
      refine ⟨.inr ⟨x, ?_⟩, (getSplit_put_ne b hfx).trans h0⟩
      rw [Child, getSplit_put_self]
      exact ⟨hb, hf⟩

theorem erase_wellFormed (hc : ∀ c ∈ x.split (getSplit t x), getSplit t c = 0) :
    WellFormed (erase t x) := by
  refine (erase_inv h x).mono fun y hy hl => ?_
  obtain hl | hl := hl
  · exact hl.1
  · have hyx : y ≠ x := fun heq => hy (heq ▸ getSplit_erase_self t x)
    rw [getSplit_erase_ne hyx, hc y hl] at hy
    exact hy rfl

/-- Merging leaves puts the fragment that they are pieces of in their place. -/
theorem leaf_erase (hs : getSplit t x ≠ 0) (hc : ∀ c ∈ x.split (getSplit t x), getSplit t c = 0)
    (f : Frag) : Leaf (erase t x) f ↔ Leaf t f ∧ f ∉ x.split (getSplit t x) ∨ f = x := by
  obtain ⟨hx, hb⟩ := h.wf x hs
  have hwf := erase_wellFormed h hc
  have hxx : x ∉ x.split (getSplit t x) := fun hmem => hs (hc x hmem)
  have hlinked : ∀ y, Linked (erase t x) y ↔ Linked t y ∧ y ∉ x.split (getSplit t x) := fun y => by
    constructor
    · rintro (rfl | ⟨p, hp⟩)
      · refine ⟨.inl rfl, fun hy => ?_⟩
        have := ((mem_split hx hb).mp hy).2.1
        rw [bits_root] at this
        omega
      · have hpx : p ≠ x := fun heq => hp.1 (heq ▸ getSplit_erase_self t x)
        rw [Child, getSplit_erase_ne hpx] at hp
        exact ⟨.inr ⟨p, hp⟩, fun hy => hpx (h.one_parent hp ⟨hs, hy⟩)⟩
    · rintro ⟨hr | ⟨p, hp⟩, hy⟩
      · exact .inl hr
      · have hpx : p ≠ x := fun heq => hy (heq ▸ hp.2)
        refine .inr ⟨p, ?_⟩
        rw [Child, getSplit_erase_ne hpx]
        exact hp
  rw [Leaf, Leaf, hwf.reached_iff, h.reached_iff, hlinked]
  by_cases hfx : f = x
  · rw [hfx, getSplit_erase_self]
    exact ⟨fun _ => .inr rfl, fun _ => ⟨⟨h.reached_iff.mp (h.reached hs), hxx⟩, rfl⟩⟩
  · rw [getSplit_erase_ne hfx, or_iff_left hfx]
    exact and_right_comm

/-- The end of `split` and `merge` always comes to one, and keeps the leaves. -/
theorem simplify_spec (hx : x.Wf) :
    ∃ t', simplify t x = some t' ∧ WellFormed t' ∧ ∀ f, Leaf t' f ↔ Leaf t f := by
  obtain ⟨b, hb, -, -⟩ := getBranchAbove_spec t (height x) x hx (Nat.lt_succ_self _)
  exact ⟨_, by rw [simplify, hb, Option.map_some], (assimilate_inv h b).1, leaf_assimilate h b⟩

theorem split_leaves (hx : isLeaf t x = true) (hb : b ≠ 0) (hfit : x.bits + b ≤ 24) :
    ∃ t', split t x b = some t' ∧ WellFormed t' ∧ ∀ f, Leaf t' f ↔ Leaf t f ∧ f ≠ x ∨ f ∈ x.split b := by
  have hxw := h.wf_linked (isLeaf_spec hx).1
  have hleaf := (isLeaf_iff_leaf h hxw).mp hx
  obtain ⟨t', ht', hwf, hmem⟩ := simplify_spec (put_wellFormed h hleaf hb hfit) hxw
  exact ⟨t', by rw [split, if_pos hx, ht'], hwf, fun f => (hmem f).trans (leaf_put h hleaf hb hfit f)⟩

theorem merge_leaves (hs : getSplit t x = b) (hb : b ≠ 0)
    (hc : ∀ c ∈ x.split b, isLeaf t c = true) :
    ∃ t', merge t x b = some t' ∧ WellFormed t' ∧ ∀ f, Leaf t' f ↔ Leaf t f ∧ f ∉ x.split b ∨ f = x := by
  subst hs
  have hnot : isLeaf t x = false := Bool.eq_false_iff.mpr fun hx => hb (isLeaf_spec hx).2
  have hc0 : ∀ c ∈ x.split (getSplit t x), getSplit t c = 0 := fun c hm => (isLeaf_spec (hc c hm)).2
  obtain ⟨t', ht', hwf, hmem⟩ := simplify_spec (erase_wellFormed h hc0) (h.wf x hb).1
  exact ⟨t', by rw [merge, if_pos ⟨hnot, rfl⟩, ht'], hwf, fun f => (hmem f).trans (leaf_erase h hb hc0 f)⟩

end

end leaves

/-- `get_leaves` lists the fragments of which `P` is true, none of them twice. -/
def LeavesAre (t : Fragtree) (P : Frag → Prop) : Prop :=
  ∃ ls, getLeaves t = some ls ∧ ls.Nodup ∧ ∀ f, f ∈ ls ↔ P f

theorem leavesAre_of_leaf {t : Fragtree} {P : Frag → Prop} (h : WellFormed t) (hP : ∀ f, Leaf t f ↔ P f) :
    LeavesAre t P := by
  obtain ⟨ls, hls, hnodup, hmem⟩ := getLeaves_spec h
  exact ⟨ls, hls, hnodup, fun f => (hmem f).trans (hP f)⟩

theorem LeavesAre.leaf_iff {t : Fragtree} {P : Frag → Prop} (h : WellFormed t) (hP : LeavesAre t P) (f : Frag) :
    Leaf t f ↔ P f := by
  obtain ⟨ls, hls, -, hmem⟩ := getLeaves_spec h
  obtain ⟨ls', hls', -, hmem'⟩ := hP
  obtain rfl : ls = ls' := Option.some.inj (hls.symm.trans hls')
  rw [← hmem, hmem']

/-- **Simplifying keeps the leaves**, so that `split` puts the pieces of a
leaf in its place and `merge` a fragment in the place of its pieces. -/
theorem simplifying_keeps_leaves {t : Fragtree} {P : Frag → Prop} (h : WellFormed t) (hP : LeavesAre t P) :
    (∀ x, LeavesAre (tryAssimilateChildren t x) P) ∧
    (∀ x b, isLeaf t x = true → 0 < b → x.bits + b ≤ 24 → (x.split b).Nodup ∧ (x.split b).length = 2 ^ b ∧
      ∃ t', split t x b = some t' ∧ WellFormed t' ∧ LeavesAre t' fun f => P f ∧ f ≠ x ∨ f ∈ x.split b) ∧
    ∀ x b, getSplit t x = b → 0 < b → (∀ c ∈ x.split b, isLeaf t c = true) →
      ∃ t', merge t x b = some t' ∧ WellFormed t' ∧ LeavesAre t' fun f => P f ∧ f ∉ x.split b ∨ f = x := by
  have hleaf := hP.leaf_iff h
  refine ⟨fun x => ?_, fun x b hx hb hfit => ⟨?_, length_split x b, ?_⟩, fun x b hs hb hc => ?_⟩
  · exact leavesAre_of_leaf (assimilate_inv h x).1 fun f => (leaf_assimilate h x f).trans (hleaf f)
  · exact nodup_split (h.wf_linked (isLeaf_spec hx).1) hfit
  · obtain ⟨t', ht', hwf, hmem⟩ := split_leaves h hx (by omega) hfit
    exact ⟨t', ht', hwf, leavesAre_of_leaf hwf fun f => by rw [hmem, hleaf]⟩
  · obtain ⟨t', ht', hwf, hmem⟩ := merge_leaves h hs (by omega) hc
    exact ⟨t', ht', hwf, leavesAre_of_leaf hwf fun f => by rw [hmem, hleaf]⟩

/-- Both halves of the namespace in halves: the second split is simplified away. -/
theorem simplifying_keeps_leaves_quarters : ∃ t t', Run.Reach step Allowed empty t ∧ split t (frag 1 1) 1 = some t' ∧
    getSplit t' root = 2 ∧
    LeavesAre t' fun f => (f ∈ (frag 0 1).split 1 ∨ f = frag 1 1) ∧ f ≠ frag 1 1 ∨ f ∈ (frag 1 1).split 1 := by
  have hrun : (Run.exec step Allowed [.split root 1, .split (frag 0 1) 1] empty).map
      (fun t => (getLeaves t, isLeaf t (frag 1 1), (split t (frag 1 1) 1).map (getSplit · root))) =
      some (some [frag 1 1, frag 0 2, frag 2 2], true, some 2) := by
    decide +kernel
  obtain ⟨t, ht, heq⟩ := Option.map_eq_some_iff.mp hrun
  obtain ⟨hleaves, heq⟩ := Prod.mk.inj heq
  obtain ⟨hleaf, hsplit⟩ := Prod.mk.inj heq
  have hreach := Run.reach_of_exec ht
  have hP : LeavesAre t fun f => f ∈ (frag 0 1).split 1 ∨ f = frag 1 1 := by
    refine ⟨_, hleaves, by decide, fun f => ?_⟩
    have hlist : (frag 0 1).split 1 = [frag 0 2, frag 2 2] := by decide
    rw [hlist, List.mem_cons, or_comm]
  obtain ⟨-, hspl, -⟩ := simplifying_keeps_leaves (wellFormed_of_reach hreach) hP
  obtain ⟨-, -, t', ht', -, hls⟩ := hspl (frag 1 1) 1 hleaf (by decide) (by decide)
  rw [ht', Option.map_some] at hsplit
  exact ⟨t, t', hreach, ht', Option.some.inj hsplit, hls⟩

end Frags
end Ceph
