/-
# When `force_to_leaf` makes a leaf

A fragment below a leaf is made one by splitting that leaf, and one that is a
split by hoovering up everything in it: while the splits below it are erased
nothing is simplified, since it is a piece that is not split itself.

A fragment strictly between a split and its pieces needs an intermediary
split. `force_to_leaf` splits by the bits up to the fragment, and each of the
new pieces by the rest. With the last of these all pieces are split alike, and
`split` simplifies the intermediary split away: the tree is what it was, and
the last assertion fails. Only where the intermediary split is itself taken in
by the split above, since the siblings are split by as many bits, do the new
pieces stay, unless their cousins are then split like them as well.
-/
import Ceph.Include.FragAssimilate

namespace Ceph
namespace Frags

open List Option Function

section values

variable {loose : Frag → Prop} {t : Fragtree} {p x y b : Frag} {k : ℕ}

theorem Inv.eq_none (h : Inv loose t) (h0 : getSplit t y = 0) : t y = none := by
  cases hy : t y with
  | none => rfl
  | some v =>
    rw [getSplit, hy] at h0
    exact absurd h0 (h.key y v hy)

theorem eq_some_of_split (h : getSplit t y = k) (hk : k ≠ 0) : t y = some k := by
  cases hy : t y with
  | none =>
    rw [getSplit, hy] at h
    exact absurd h.symm hk
  | some v =>
    rw [getSplit, hy] at h
    exact congrArg some h

theorem WellFormed.unsplit_inside (h : WellFormed t) (hs : getSplit t p ≠ 0) (ha : Above p y) (hlt : p.bits < y.bits)
    (hgt : y.bits < p.bits + getSplit t p) : getSplit t y = 0 := by
  by_contra hy
  have hgap := h.gap _ y le_rfl (h.reached hy) p hs ha fun heq => by
    rw [heq] at hlt
    omega
  omega

theorem childBits_all (hk : k ≠ 0) : ∀ (ps : List Frag) (c : ℕ), (∀ p ∈ ps, getSplit t p = k) → c = 0 ∨ c = k →
    ps ≠ [] ∨ c = k → childBits t ps c = k
  | [], c, _, _, hne => hne.resolve_left fun hps => hps rfl
  | p :: ps, c, hall, hc, _ => by
    obtain ⟨hp, hps⟩ := forall_mem_cons.mp hall
    have hneg : ¬ (c ≠ 0 ∧ getSplit t p ≠ c) := by
      rintro ⟨h0, hne⟩
      exact hne (hp.trans (hc.resolve_left h0).symm)
    rw [childBits, hp, if_neg hk, if_neg (hp ▸ hneg)]
    exact childBits_all hk ps k hps (.inr rfl) (.inr rfl)

theorem exists_piece (p : Frag) (n : ℕ) : ∃ c, c ∈ p.split n := by
  refine ⟨_, List.mem_map.mpr ⟨0, ?_, rfl⟩⟩
  rw [mem_range, Nat.one_shiftLeft]
  exact Nat.two_pow_pos _

/-- What simplifying makes of pieces that are all split by `k`. -/
theorem assimilate_all (h : Inv loose t) {n : ℕ} (hn : getSplit t x = n) (h0 : n ≠ 0) (hk : k ≠ 0)
    (hall : ∀ p ∈ x.split n, getSplit t p = k) (y : Frag) :
    tryAssimilateChildren t x y = if y = x then some (n + k) else if y ∈ x.split n then none else t y := by
  subst hn
  obtain ⟨c, hc⟩ := exists_piece x (getSplit t x)
  have hbits := childBits_all hk _ 0 hall (.inl rfl) (.inl (ne_nil_of_mem hc))
  rw [assimilate_alike h h0 (by rw [hbits]; exact hk), hbits]

theorem assimilate_unlike (h : ∀ k, k ≠ 0 → ∃ p ∈ x.split (getSplit t x), getSplit t p ≠ k) :
    tryAssimilateChildren t x = t := by
  by_cases h0 : getSplit t x = 0
  · exact if_pos h0
  have hk : childBits t (x.split (getSplit t x)) 0 = 0 := by
    by_contra hk
    obtain ⟨p, hp, hne⟩ := h _ hk
    exact hne ((childBits_spec _ 0 hk).2 p hp)
  rw [tryAssimilateChildren, if_neg h0, if_pos hk]

theorem assimilate_unsplit (hp : p ∈ x.split (getSplit t x)) (h0 : getSplit t p = 0) : tryAssimilateChildren t x = t :=
  assimilate_unlike fun _ hk => ⟨p, hp, fun heq => hk (heq ▸ h0)⟩

theorem simplify_branch (hx : x.Wf) (hr : x ≠ root) (hb : Branch t (fun g => g ≠ x) x b) (hne : b ≠ x) :
    simplify t x = some (tryAssimilateChildren t b) := by
  obtain ⟨b', hb', hbranch, hne'⟩ := getBranchAbove_spec t (height x) x hx (Nat.lt_succ_self _)
  rw [simplify, hb', map_some, hbranch.unique hb (hne' hr) hne]

theorem simplify_root (t : Fragtree) : simplify t root = some (tryAssimilateChildren t root) := rfl

end values

/-! ### Hoovering up -/

/-- The tree without the splits in `x`. -/
def cleared (t : Fragtree) (x : Frag) : Fragtree := fun y => if Above x y then none else t y

section cleared

variable {t : Fragtree} {x y f p : Frag}

theorem getSplit_cleared (hy : ¬ Above x y) : getSplit (cleared t x) y = getSplit t y := by
  rw [getSplit, cleared, if_neg hy]
  rfl

theorem split_cleared (h : getSplit (cleared t x) y ≠ 0) : ¬ Above x y ∧ getSplit t y ≠ 0 := by
  have hy : ¬ Above x y := fun hy => by
    rw [getSplit, cleared, if_pos hy] at h
    exact h rfl
  exact ⟨hy, getSplit_cleared hy ▸ h⟩

/-- What is not in `x` is not a piece of what is. -/
theorem child_cleared (h : WellFormed t) (hx : x.Wf) (hc : Child t p y) (hy : ¬ Above x y) : Child (cleared t x) p y := by
  obtain ⟨hp, -, -, ha⟩ := h.piece hc
  have hpx : ¬ Above x p := fun hpx => hy (hpx.trans hx hp ha)
  rw [Child, getSplit_cleared hpx]
  exact hc

theorem cleared_wellFormed (h : WellFormed t) (hx : x.Wf) : WellFormed (cleared t x) := by
  refine ⟨fun y v hy => h.key y v (ite_none_left_eq_some.mp hy).2, fun y hs => ?_, fun y hs => .inl ?_⟩
  · obtain ⟨hy, hs⟩ := split_cleared hs
    rw [getSplit_cleared hy]
    exact h.wf y hs
  · obtain ⟨hy, hs⟩ := split_cleared hs
    exact ((h.linked y hs).resolve_right id).imp id fun ⟨p, hp⟩ => ⟨p, child_cleared h hx hp hy⟩

/-- Cleared of its splits a fragment is a leaf, and the leaves outside stay. -/
theorem leaf_cleared (h : WellFormed t) (hx : Reached t x) (f : Frag) :
    Leaf (cleared t x) f ↔ f = x ∨ Leaf t f ∧ ¬ Above x f := by
  have hxw := hx.wf h
  rw [Leaf, Leaf, (cleared_wellFormed h hxw).reached_iff, h.reached_iff]
  constructor
  · rintro ⟨hl, h0⟩
    by_cases ha : Above x f
    · refine .inl ?_
      obtain rfl | ⟨p, hp⟩ := hl
      · exact (eq_root hxw (Nat.le_zero.mp ha.bits_le)).symm
      · -- the split above `x` has nothing between itself and its pieces
        obtain ⟨hpx, hs⟩ := split_cleared hp.1
        rw [Child, getSplit_cleared hpx] at hp
        obtain ⟨hpw, hfw, hbits, hpf⟩ := h.piece hp
        have hlt : p.bits < x.bits := lt_of_not_ge fun hle => hpx (ha.chain hxw hpw hpf hle)
        have hgap := h.gap _ x le_rfl hx p hs (hpf.chain hpw hxw ha hlt.le) fun heq => by
          rw [heq] at hlt
          omega
        exact (ha.eq_of_bits hxw hfw (by omega)).symm
    · refine .inr ⟨⟨?_, getSplit_cleared ha ▸ h0⟩, ha⟩
      refine hl.imp id (Exists.imp fun p hp => ?_)
      rwa [Child, getSplit_cleared (split_cleared hp.1).1] at hp
  · rintro (rfl | ⟨⟨hl, h0⟩, ha⟩)
    · refine ⟨?_, by rw [getSplit, cleared, if_pos (.refl hxw)]; rfl⟩
      refine (h.reached_iff.mp hx).imp id (Exists.imp fun p hp => ?_)
      have hpx : ¬ Above f p := fun hpx => by
        have := (h.child hp).2.2.1
        have := hpx.bits_le
        omega
      rw [Child, getSplit_cleared hpx]
      exact hp
    · exact ⟨hl.imp id (Exists.imp fun p hp => child_cleared h hxw hp ha), (getSplit_cleared ha).trans h0⟩

/-- The tree while `q` is queued: in `x`, only what is in the queue is split. -/
def hoovered (t : Fragtree) (x : Frag) (q : List Frag) : Fragtree := fun y =>
  if Above x y ∧ ∀ f ∈ q, ¬ Above f y then none else t y

theorem hoovered_nil (t : Fragtree) (x : Frag) : hoovered t x [] = cleared t x := by
  funext y
  simp [hoovered, cleared]

theorem hoovered_self (t : Fragtree) (x : Frag) : hoovered t x [x] = t := by
  funext y
  rw [hoovered, if_neg]
  rintro ⟨ha, hno⟩
  exact hno x (mem_singleton_self x) ha

theorem getSplit_hoovered {q : List Frag} (hy : ¬ Above x y ∨ ∃ g ∈ q, Above g y) :
    getSplit (hoovered t x q) y = getSplit t y := by
  rw [getSplit, hoovered, if_neg]
  · rfl
  · rintro ⟨ha, hno⟩
    obtain hy | ⟨g, hg, hgy⟩ := hy
    · exact hy ha
    · exact hno g hg hgy

theorem split_hoovered {q : List Frag} (h : getSplit (hoovered t x q) y ≠ 0) :
    getSplit t y ≠ 0 ∧ (¬ Above x y ∨ ∃ g ∈ q, Above g y) := by
  have hy : ¬ Above x y ∨ ∃ g ∈ q, Above g y := by
    by_contra hcon
    obtain ⟨ha, hno⟩ := not_or.mp hcon
    rw [getSplit, hoovered, if_pos ⟨not_not.mp ha, fun g hg hgy => hno ⟨g, hg, hgy⟩⟩] at h
    exact h rfl
  exact ⟨getSplit_hoovered hy ▸ h, hy⟩

theorem hoovered_unsplit (h : WellFormed t) {q : List Frag} (hf : Leaf t f) : hoovered t x (f :: q) = hoovered t x q := by
  funext y
  by_cases hfy : Above f y
  · have hnone : t y = none := Inv.eq_none h (hf.unsplit_below h hfy)
    simp [hoovered, hnone]
  · simp [hoovered, hfy]

/-- Erasing the split at the front queues its pieces. -/
theorem hoovered_split (h : WellFormed t) {q : List Frag} (hs : getSplit t f ≠ 0) (hxf : Above x f)
    (hx : x.Wf) (hq : ∀ g ∈ q, ¬ Above g f) :
    erase (hoovered t x (f :: q)) f = hoovered t x (q ++ f.split (getSplit t f)) := by
  obtain ⟨hfw, hb⟩ := h.wf f hs
  have hpiece : ∀ c ∈ f.split (getSplit t f), c.Wf ∧ c.bits = f.bits + getSplit t f ∧ Above f c := fun c hc =>
    (mem_split_iff hfw hb).mp hc
  funext y
  by_cases hyf : y = f
  · have hnone : hoovered t x (q ++ f.split (getSplit t f)) f = none := by
      rw [hoovered, if_pos]
      refine ⟨hxf, fun g hg => ?_⟩
      obtain hg | hg := mem_append.mp hg
      · exact hq g hg
      · intro ha
        have := ha.bits_le
        have := (hpiece g hg).2.1
        omega
    rw [hyf, erase, update_self, hnone]
  rw [erase, update_of_ne hyf]
  simp only [hoovered, forall_mem_cons, forall_mem_append]
  by_cases hfy : Above f y
  · -- what is split in `f` is in one of its pieces
    have hxy : Above x y := hxf.trans hx hfw hfy
    by_cases hsy : getSplit t y = 0
    · rw [Inv.eq_none h hsy]
      simp
    · have hyw := (h.wf y hsy).1
      have hgap := h.gap _ y le_rfl (h.reached hsy) f hs hfy (Ne.symm hyf)
      have hmem := upTo_mem_split hfw hyw hfy hgap
      have hin : ¬ ∀ g ∈ f.split (getSplit t f), ¬ Above g y := fun hno => hno _ hmem (upTo_above hyw hgap)
      simp [hfy, hin]
  · have hout : ∀ g ∈ f.split (getSplit t f), ¬ Above g y := fun g hg ha =>
      hfy ((hpiece g hg).2.2.trans hfw (hpiece g hg).1 ha)
    simp only [hfy, not_false_eq_true, true_and]
    exact if_congr (and_congr_right fun _ => ⟨fun hno => ⟨hno, hout⟩, fun hno => hno.1⟩) rfl rfl

end cleared

section hoover

variable {t u : Fragtree} {x f : Frag} {nb : ℕ}

theorem merge_quiet (hf : f.Wf) (hs : getSplit u f = nb) (hnb : nb ≠ 0)
    (hq : ∀ b, Branch (erase u f) (fun g => g ≠ f) f b → getSplit (erase u f) b ≠ 0 →
      ∃ c ∈ b.split (getSplit (erase u f) b), getSplit (erase u f) c = 0) : merge u f nb = some (erase u f) := by
  have hnot : isLeaf u f = false := Bool.eq_false_iff.mpr fun hl => hnb (hs ▸ (isLeaf_spec hl).2)
  obtain ⟨b, hb, hbranch, -⟩ := getBranchAbove_spec (erase u f) (height f) f hf (Nat.lt_succ_self _)
  rw [merge, if_pos ⟨hnot, hs⟩, simplify, hb, map_some]
  by_cases h0 : getSplit (erase u f) b = 0
  · rw [tryAssimilateChildren, if_pos h0]
  · obtain ⟨c, hc, hc0⟩ := hq b hbranch h0
    rw [assimilate_unsplit hc hc0]

/-- With `f` at the front of the queue the merge of `f` simplifies nothing: the
branch above is that of `x`, which is not split. -/
theorem merge_hoovered (h : WellFormed t) (hx : Reached t x) {q : List Frag} (hf : f.Wf) (hs : getSplit t f ≠ 0)
    (hxf : Above x f) (hqwf : ∀ g ∈ q, g.Wf) (hnot : ∀ g ∈ q, ¬ Above g f) :
    merge (hoovered t x (f :: q)) f (getSplit t f) = some (erase (hoovered t x (f :: q)) f) := by
  have hxw := hx.wf h
  have hself : getSplit (hoovered t x (f :: q)) f = getSplit t f :=
    getSplit_hoovered (.inr ⟨f, mem_cons_self, .refl hf⟩)
  refine merge_quiet hf hself hs fun b hbr hb0 => ?_
  have hbf : b ≠ f := fun heq => hb0 (by rw [heq, getSplit_erase_self])
  rw [getSplit_erase_ne hbf] at hb0
  obtain ⟨hbt, hin⟩ := split_hoovered hb0
  -- the branch is not within `x`, where all above `f` is erased
  have hbx : ¬ Above x b := fun hxb => by
    obtain ⟨g, hg, hgb⟩ := hin.resolve_left (not_not_intro hxb)
    obtain rfl | hg := mem_cons.mp hg
    · exact hbf (hbr.above.eq_of_bits hbr.wf hf hgb.bits_le)
    · exact hnot g hg (hgb.trans (hqwf g hg) hbr.wf hbr.above)
  have hlt : b.bits < x.bits := lt_of_not_ge fun hle => hbx (hxf.chain hxw hbr.wf hbr.above hle)
  have hbxa : Above b x := hbr.above.chain hbr.wf hxw hxf hlt.le
  refine ⟨x, ?_, ?_⟩
  · rw [getSplit_erase_ne hbf, getSplit_hoovered (.inl hbx)]
    cases hx with
    | root => exact absurd hlt (Nat.not_lt_zero _)
    | @piece p _ _ hc =>
      -- the split of which `x` is a piece is the nearest above `f`, too
      obtain ⟨hpw, -, hpbits, hpx⟩ := h.piece hc
      have hplt := (h.child hc).2.2.1
      have hbp : Above b p := (Branch.of_child h hc fun _ hg _ => hg).nearest b hbr.wf hbxa
        (fun heq => by rw [heq] at hlt; exact lt_irrefl _ hlt) hbt
      have hpx' : ¬ Above x p := fun ha => by
        have := ha.bits_le
        omega
      have hpf : p ≠ f := fun heq => by
        have := hxf.bits_le
        rw [← heq] at this
        omega
      have hps : getSplit (erase (hoovered t x (f :: q)) f) p ≠ 0 := by
        rw [getSplit_erase_ne hpf, getSplit_hoovered (.inl hpx')]
        exact hc.1
      have hpb : Above p b := hbr.nearest p hpw (hpx.trans hpw hxw hxf) hpf hps
      rw [hbp.eq_of_bits hbr.wf hpw hpb.bits_le]
      exact hc.2
  · by_cases hxf' : x = f
    · rw [hxf', getSplit_erase_self]
    rw [getSplit_erase_ne hxf', getSplit, hoovered, if_pos]
    · rfl
    · refine ⟨.refl hxw, fun g hg hgx => ?_⟩
      obtain rfl | hg := mem_cons.mp hg
      · exact hxf' (hxf.eq_of_bits hxw hf hgx.bits_le)
      · exact hnot g hg (hgx.trans (hqwf g hg) hxw hxf)

/-- **Hoovering up** erases every split in `x`, and nothing else. -/
theorem hoover_spec (h : WellFormed t) (hx : Reached t x) : ∀ (n : ℕ) (q : List Frag),
    (∀ g ∈ q, Reached t g ∧ Above x g) → (∀ v, q.countP (fun g => g.contains v) ≤ 1) → weight q ≤ n →
    hoover n q (hoovered t x q) = some (cleared t x)
  | n, [], _, _, _ => by
    rw [hoovered_nil]
    cases n <;> rfl
  | n, f :: q, hq, hcount, hn => by
    have hxw := hx.wf h
    obtain ⟨⟨hf, hxf⟩, hrest⟩ := forall_mem_cons.mp hq
    have hfw := hf.wf h
    have hqwf : ∀ g ∈ q, g.Wf := fun g hg => (hrest g hg).1.wf h
    obtain ⟨n, rfl⟩ := exists_fuel hfw hn
    -- no other in the queue is above `f`
    have hnot : ∀ g ∈ q, ¬ Above g f := fun g hg ha =>
      (pairwise_cons.mp (pairwise_of_counts hcount)).1 g hg f.value
        ⟨contains_value hfw, ha.contains (hqwf g hg) hfw (contains_value hfw)⟩
    rw [hoover, getSplit_hoovered (.inr ⟨f, mem_cons_self, .refl hfw⟩)]
    by_cases hs : getSplit t f = 0
    · rw [if_pos hs, hoovered_unsplit h ⟨hf, hs⟩]
      refine hoover_spec h hx n q hrest (fun v => ?_) (weight_rest hfw hn)
      have := hcount v
      rw [countP_cons] at this
      omega
    · have hb := (h.wf f hs).2
      rw [if_neg hs, merge_hoovered h hx hfw hs hxf hqwf hnot, bind_some, hoovered_split h hs hxf hxw hnot]
      refine hoover_spec h hx n _ ?_ (fun v => ?_) (Inv.queue h (forall_mem_cons.mpr ⟨hfw, hqwf⟩) hs hn).2
      · refine forall_mem_append.mpr ⟨hrest, fun c hc => ?_⟩
        exact ⟨.piece hf ⟨hs, hc⟩, hxf.trans hxw hfw ((mem_split_iff hfw hb).mp hc).2.2⟩
      · have := hcount v
        rw [countP_cons] at this
        rw [countP_append, countP_split hfw hb]
        omega

theorem hoover_split (h : WellFormed t) (hx : Reached t x) : hoover fuel [x] t = some (cleared t x) := by
  have hspec := hoover_spec h hx fuel [x] (fun g hg => ?_) (fun v => countP_le_length) (weight_single x)
  · rwa [hoovered_self] at hspec
  · rw [mem_singleton.mp hg]
    exact ⟨hx, .refl (hx.wf h)⟩

theorem hoover_unsplit (h0 : getSplit t x = 0) : hoover fuel [x] t = some t := by
  rw [fuel, show (2 : ℕ) ^ 25 = (2 ^ 25 - 1) + 1 from rfl, hoover, h0, if_pos rfl]
  rfl

end hoover

/-! ### The intermediary split -/

/-- `p` split by `s` bits, and each of its pieces by `r`. -/
def splitTwice (t : Fragtree) (p : Frag) (s r : ℕ) : Fragtree := fun y =>
  if y = p then some s else if y ∈ p.split s then some r else t y

section sized

variable {loose : Frag → Prop} {t u : Fragtree} {p d x y : Frag} {r s : ℕ}

theorem Inv.sized (h : Inv loose t) : Inv (fun _ => True) t := h.mono fun _ _ _ => trivial

theorem sized_put (h : Inv (fun _ => True) t) (hx : x.Wf) (hr : r ≠ 0) (hb : x.bits + r ≤ 24) :
    Inv (fun _ => True) (put t x r) := by
  refine ⟨fun y v hy => ?_, fun y hy => ?_, fun _ _ => .inr trivial⟩
  · by_cases hyx : y = x
    · rw [hyx, put, update_self] at hy
      exact some.inj hy ▸ hr
    · rw [put, update_of_ne hyx] at hy
      exact h.key y v hy
  · by_cases hyx : y = x
    · rw [hyx, getSplit_put_self]
      exact ⟨hx, hb⟩
    · rw [getSplit_put_ne r hyx] at hy ⊢
      exact h.wf y hy

theorem foldl_put (r : ℕ) : ∀ (ps : List Frag) (t : Fragtree) (y : Frag),
    ps.foldl (fun u p => put u p r) t y = if y ∈ ps then some r else t y
  | [], _, _ => rfl
  | p :: ps, t, y => by
    rw [foldl_cons, foldl_put r ps]
    by_cases hy : y ∈ ps
    · rw [if_pos hy, if_pos (mem_cons_of_mem p hy)]
    · rw [if_neg hy]
      by_cases hp : y = p
      · rw [hp, put, update_self, if_pos mem_cons_self]
      · rw [put, update_of_ne hp, if_neg fun hmem => (mem_cons.mp hmem).elim hp hy]

/-- A piece of `d` that can be split by `r`, with no split between. -/
structure Splittable (t : Fragtree) (d : Frag) (r : ℕ) (p : Frag) : Prop where
  unsplit : getSplit t p = 0
  child : Child t d p
  fits : p.bits + r ≤ 24
  nearest : ∀ g : Frag, g.Wf → Above g p → g ≠ p → getSplit t g ≠ 0 → Above g d

theorem Splittable.branch (hp : Splittable t d r p) (h : Inv loose t) : Branch t (fun g => g ≠ p) p d :=
  ⟨(h.piece hp.child).1, (h.piece hp.child).2.2.2, .inr hp.child.1, hp.nearest⟩

theorem Splittable.put {q : Frag} (hp : Splittable t d r p) (hq : Splittable t d r q) (h : Inv loose t) (hne : q ≠ p) :
    Splittable (put t p r) d r q := by
  obtain ⟨-, hpw, hpb, -⟩ := h.piece hp.child
  obtain ⟨hdw, hqw, hqb, -⟩ := h.piece hq.child
  have hdp : d ≠ p := h.child_ne hp.child
  refine ⟨(getSplit_put_ne r hne).trans hq.unsplit, ?_, hq.fits, fun g hg ha hgq hs => ?_⟩
  · rw [Child, getSplit_put_ne r hdp]
    exact hq.child
  · have hgp : g ≠ p := fun heq => by
      have := ha.bits_lt hg hqw hgq
      rw [heq] at this
      omega
    rw [getSplit_put_ne r hgp] at hs
    exact hq.nearest g hg ha hgq hs

theorem Splittable.split (hp : Splittable t d r p) (h : Inv loose t) :
    split t p r = some (tryAssimilateChildren (Frags.put t p r) d) := by
  obtain ⟨hdw, hpw, hpb, hdp⟩ := h.piece hp.child
  have hbranch := hp.branch h
  have hdne : d ≠ p := h.child_ne hp.child
  have hr : p ≠ root := h.child_ne_root hp.child
  have hleaf : isLeaf t p = true := by
    refine (isLeaf_iff h hpw (hbranch.congr rfl fun g _ hs => ⟨fun heq => hs ?_, hs⟩)).mpr ⟨hp.unsplit, .inr hp.child⟩
    rw [heq, hp.unsplit]
  rw [Frags.split, if_pos hleaf]
  refine simplify_branch hpw hr (hbranch.congr (getSplit_put_ne r hdne) fun g hg hs => ⟨hg, ?_⟩) hdne
  rwa [getSplit_put_ne r hg] at hs

/-- **Splitting each piece in a list**: until the last, one of them is not
split, so only with the last may the split above simplify. -/
theorem splitEach_spec (hr : r ≠ 0) : ∀ (ps : List Frag) (t : Fragtree), Inv (fun _ => True) t → ps ≠ [] → ps.Nodup →
    (∀ p ∈ ps, Splittable t d r p) →
    splitEach r ps t = some (tryAssimilateChildren (ps.foldl (fun u p => put u p r) t) d)
  | [p], t, h, _, _, hps => by
    rw [splitEach, (hps p mem_cons_self).split h]
    rfl
  | p :: q :: ps, t, h, _, hnodup, hps => by
    obtain ⟨hp, hrest⟩ := forall_mem_cons.mp hps
    obtain ⟨hnot, hnodup⟩ := nodup_cons.mp hnodup
    have hput : ∀ c ∈ q :: ps, Splittable (put t p r) d r c := fun c hc =>
      hp.put (hrest c hc) h fun heq => hnot (heq ▸ hc)
    have hquiet : tryAssimilateChildren (put t p r) d = put t p r := by
      have hq := hput q mem_cons_self
      exact assimilate_unsplit hq.child.2 hq.unsplit
    rw [splitEach, hp.split h, bind_some, hquiet]
    exact splitEach_spec hr (q :: ps) _ (sized_put h (h.piece hp.child).2.1 hr hp.fits) (by simp) hnodup hput

end sized

section twice

variable {t : Fragtree} {p q x y : Frag} {r s : ℕ}

theorem getSplit_twice_self : getSplit (splitTwice t p s r) p = s := by
  rw [getSplit, splitTwice, if_pos rfl]
  rfl

theorem getSplit_twice_piece (hne : y ≠ p) (hy : y ∈ p.split s) : getSplit (splitTwice t p s r) y = r := by
  rw [getSplit, splitTwice, if_neg hne, if_pos hy]
  rfl

theorem getSplit_twice_ne (hne : y ≠ p) (hy : y ∉ p.split s) : getSplit (splitTwice t p s r) y = getSplit t y := by
  rw [getSplit, splitTwice, if_neg hne, if_neg hy]
  rfl

/-- What splitting by `s` bits and then by `r` rests on. -/
structure Twice (t : Fragtree) (p : Frag) (s r : ℕ) : Prop where
  wf : WellFormed t
  split : getSplit t p = s + r
  first : s ≠ 0
  second : r ≠ 0

namespace Twice

section

variable (h : Twice t p s r)
include h

theorem pos : getSplit t p ≠ 0 := by
  rw [h.split]
  have := h.first
  omega

theorem fits : p.Wf ∧ p.bits + (s + r) ≤ 24 := h.split ▸ h.wf.wf p h.pos

theorem piece (hy : y ∈ p.split s) :
    y.Wf ∧ y.bits = p.bits + s ∧ Above p y ∧ y ≠ p ∧ getSplit t y = 0 := by
  obtain ⟨hp, hb⟩ := h.fits
  have hs := h.first
  have hr := h.second
  obtain ⟨hyw, hyb, ha⟩ := (mem_split_iff hp (by omega)).mp hy
  refine ⟨hyw, hyb, ha, fun heq => by rw [heq] at hyb; omega, ?_⟩
  refine h.wf.unsplit_inside h.pos ha (by omega) ?_
  rw [h.split]
  omega

theorem not_piece (hy : getSplit t y ≠ 0) : y ∉ p.split s := fun hm => hy (h.piece hm).2.2.2.2

theorem wellFormed : WellFormed (splitTwice t p s r) := by
  obtain ⟨hp, hb⟩ := h.fits
  have hs := h.first
  have hr := h.second
  have hself : getSplit (splitTwice t p s r) p = s := getSplit_twice_self
  have hchild : ∀ z, z ∈ p.split s → Child (splitTwice t p s r) p z := fun z hz => by
    rw [Child, hself]
    exact ⟨hs, hz⟩
  have hlinked : ∀ z, Linked t z → Linked (splitTwice t p s r) z := by
    rintro z (hr' | ⟨g, hg⟩)
    · exact .inl hr'
    by_cases hgp : g = p
    · have hz := hg.2
      rw [hgp, h.split, mem_split_split hp hb] at hz
      obtain ⟨c, hc, hzc⟩ := hz
      refine .inr ⟨c, ?_⟩
      rw [Child, getSplit_twice_piece (h.piece hc).2.2.2.1 hc]
      exact ⟨hr, hzc⟩
    · refine .inr ⟨g, ?_⟩
      rw [Child, getSplit_twice_ne hgp (h.not_piece hg.1)]
      exact hg
  refine ⟨fun y v hy => ?_, fun y hy => ?_, fun y hy => .inl ?_⟩
  · rw [splitTwice] at hy
    by_cases hyp : y = p
    · rw [if_pos hyp] at hy
      exact some.inj hy ▸ hs
    · rw [if_neg hyp] at hy
      by_cases hm : y ∈ p.split s
      · rw [if_pos hm] at hy
        exact some.inj hy ▸ hr
      · rw [if_neg hm] at hy
        exact h.wf.key y v hy
  · by_cases hyp : y = p
    · rw [hyp, hself]
      exact ⟨hp, by omega⟩
    · by_cases hm : y ∈ p.split s
      · obtain ⟨hyw, hyb, -⟩ := h.piece hm
        rw [getSplit_twice_piece hyp hm]
        exact ⟨hyw, by omega⟩
      · rw [getSplit_twice_ne hyp hm] at hy ⊢
        exact h.wf.wf y hy
  · by_cases hm : y ∈ p.split s
    · exact .inr ⟨p, hchild y hm⟩
    · refine hlinked y ?_
      by_cases hyp : y = p
      · rw [hyp]
        exact (h.wf.linked p h.pos).resolve_right id
      · rw [getSplit_twice_ne hyp hm] at hy
        exact (h.wf.linked y hy).resolve_right id

theorem put_sized : Inv (fun _ => True) (put t p s) := by
  obtain ⟨hp, hb⟩ := h.fits
  have hr := h.second
  exact sized_put (Inv.sized h.wf) hp h.first (by omega)

theorem assimilate : tryAssimilateChildren (splitTwice t p s r) p = t := by
  funext y
  rw [assimilate_all h.wellFormed getSplit_twice_self h.first h.second
    fun c hc => getSplit_twice_piece (h.piece hc).2.2.2.1 hc]
  by_cases hyp : y = p
  · rw [if_pos hyp, hyp]
    exact (eq_some_of_split h.split (h.split ▸ h.pos)).symm
  rw [if_neg hyp]
  by_cases hm : y ∈ p.split s
  · rw [if_pos hm]
    exact (Inv.eq_none h.wf (h.piece hm).2.2.2.2).symm
  · rw [if_neg hm, splitTwice, if_neg hyp, if_neg hm]

theorem leaf_iff (f : Frag) : Leaf (splitTwice t p s r) f ↔ Leaf t f := by
  have hleaf := leaf_assimilate h.wellFormed p f
  rw [h.assimilate] at hleaf
  exact hleaf.symm

theorem above_of_split {c g : Frag} (hc : c ∈ p.split s) (hg : g.Wf) (ha : Above g c) (hgc : g ≠ c)
    (hs : getSplit t g ≠ 0) : Above g p := by
  obtain ⟨hcw, hcb, hpc, -⟩ := h.piece hc
  have hp := h.fits.1
  have hlt := ha.bits_lt hg hcw hgc
  rcases le_or_gt g.bits p.bits with hle | hgt
  · exact ha.chain hg hp hpc hle
  · have h0 := h.wf.unsplit_inside h.pos (hpc.chain hp hg ha hgt.le) hgt (by
      have := h.second
      rw [h.split]
      omega)
    exact absurd h0 hs

theorem splittable {c : Frag} (hc : c ∈ p.split s) : Splittable (put t p s) p r c := by
  obtain ⟨hcw, hcb, hpc, hcp, hc0⟩ := h.piece hc
  obtain ⟨hp, hb⟩ := h.fits
  refine ⟨(getSplit_put_ne s hcp).trans hc0, ?_, by omega, fun g hg ha hgc hs => ?_⟩
  · rw [Child, getSplit_put_self]
    exact ⟨h.first, hc⟩
  · by_cases hgp : g = p
    · rw [hgp]
      exact .refl hp
    · rw [getSplit_put_ne s hgp] at hs
      exact h.above_of_split hc hg ha hgc hs

theorem nodup : (p.split s).Nodup := by
  obtain ⟨hp, hb⟩ := h.fits
  exact nodup_split hp (by omega)

theorem linked : p = root ∨ ∃ q, Child t q p := (h.wf.linked p h.pos).resolve_right id

theorem branch_erase (hc : Child t q p) (ok : Frag → Prop) : Branch (erase t p) ok p q := by
  have hqp : q ≠ p := h.wf.child_ne hc
  have hbr : Branch t (fun g => g ≠ p) p q := .of_child h.wf hc fun _ hg _ => hg
  refine hbr.congr (getSplit_erase_ne hqp) fun g _ hs => ?_
  have hgp : g ≠ p := fun heq => hs (heq ▸ getSplit_erase_self t p)
  exact ⟨hgp, getSplit_erase_ne hgp ▸ hs⟩

/-- **The intermediary split up to its pieces**: the old one is merged without
simplifying anything, and is a leaf then. -/
theorem intermediate_eq :
    intermediate t p (s + r) s = (simplify (put t p s) p).bind (splitEach r (p.split s)) := by
  have hp := h.fits.1
  have hr := h.second
  have hself : getSplit (erase t p) p = 0 := getSplit_erase_self t p
  have hmerge : merge t p (s + r) = some (erase t p) := by
    refine merge_quiet hp h.split (h.split ▸ h.pos) fun b hb hb0 => ⟨p, ?_, hself⟩
    have hbp : b ≠ p := fun heq => hb0 (heq ▸ hself)
    obtain rfl | ⟨q, hc⟩ := h.linked
    · exact absurd (eq_root hb.wf (Nat.le_zero.mp hb.above.bits_le)) hbp
    · rw [hb.unique (h.branch_erase hc _) hbp (h.wf.child_ne hc), getSplit_erase_ne (h.wf.child_ne hc)]
      exact hc.2
  have hleaf : isLeaf (erase t p) p = true := by
    obtain ⟨b, -, hb⟩ := getBranch_spec (erase t p) (height p) p hp (Nat.lt_succ_self _)
    refine (isLeaf_iff (erase_inv h.wf p) hp hb).mpr ⟨hself, h.linked.imp id ?_⟩
    rintro ⟨q, hc⟩
    rw [hb.unique (h.branch_erase hc _) trivial trivial, Child, getSplit_erase_ne (h.wf.child_ne hc)]
    exact hc
  have hput : put (erase t p) p s = put t p s := update_idem _ _ _
  rw [intermediate, if_pos (by omega), hmerge, bind_some, Frags.split, if_pos hleaf, hput,
    Nat.add_sub_cancel_left]

/-- Where the split above does not take it in, the intermediary split is gone
with the last of its pieces. -/
theorem intermediate_gone (hs : simplify (put t p s) p = some (put t p s)) :
    intermediate t p (s + r) s = some t := by
  obtain ⟨c, hc⟩ := exists_piece p s
  have htwice : (p.split s).foldl (fun u c => put u c r) (put t p s) = splitTwice t p s r := by
    funext y
    rw [foldl_put, splitTwice]
    by_cases hm : y ∈ p.split s
    · rw [if_pos hm, if_neg (h.piece hm).2.2.2.1, if_pos hm]
    · rw [if_neg hm, if_neg hm]
      by_cases hyp : y = p
      · rw [hyp, put, update_self, if_pos rfl]
      · rw [put, update_of_ne hyp, if_neg hyp]
  rw [h.intermediate_eq, hs, bind_some,
    splitEach_spec h.second _ _ h.put_sized (ne_nil_of_mem hc) h.nodup fun c hc => h.splittable hc, htwice,
    h.assimilate]

end

end Twice

end twice

/-! ### Taken in by the split above -/

/-- The split above takes in the intermediary split: the other pieces are split by as much. -/
structure Taken (t : Fragtree) (q p : Frag) (s r : ℕ) : Prop extends Twice t p s r where
  child : Child t q p
  alike : ∀ c ∈ q.split (getSplit t q), c ≠ p → getSplit t c = s

namespace Taken

variable {t : Fragtree} {p q x y c : Frag} {r s : ℕ}

section

variable (h : Taken t q p s r)
include h

theorem ne : q ≠ p := h.wf.child_ne h.child

theorem not_mem : q ∉ p.split s := h.not_piece h.child.1

theorem getSplit_twice : getSplit (splitTwice t p s r) q = getSplit t q :=
  getSplit_twice_ne h.ne h.not_mem

theorem bits_piece (hy : y ∈ q.split (getSplit t q)) : y.Wf ∧ y.bits = p.bits := by
  obtain ⟨hq, hb⟩ := h.wf.wf q h.child.1
  obtain ⟨hyw, hyb, -⟩ := (mem_split_iff hq hb).mp hy
  exact ⟨hyw, hyb.trans (h.wf.child h.child).2.1.symm⟩

theorem not_new (hy : y ∈ q.split (getSplit t q)) : y ∉ p.split s := fun hm => by
  have := (h.bits_piece hy).2
  have := (h.piece hm).2.1
  have := h.first
  omega

theorem twice_apply (y : Frag) : tryAssimilateChildren (splitTwice t p s r) q y =
    if y = q then some (getSplit t q + s) else if y ∈ q.split (getSplit t q) then none else splitTwice t p s r y := by
  refine assimilate_all h.wellFormed h.getSplit_twice h.child.1 h.first (fun c hc => ?_) y
  by_cases hcp : c = p
  · rw [hcp]
    exact getSplit_twice_self
  · rw [getSplit_twice_ne hcp (h.not_new hc), h.alike c hc hcp]

theorem put_apply (y : Frag) : tryAssimilateChildren (put t p s) q y =
    if y = q then some (getSplit t q + s) else if y ∈ q.split (getSplit t q) then none else put t p s y := by
  refine assimilate_all h.put_sized (getSplit_put_ne s h.ne) h.child.1 h.first (fun c hc => ?_) y
  by_cases hcp : c = p
  · rw [hcp, getSplit_put_self]
  · rw [getSplit_put_ne s hcp, h.alike c hc hcp]

theorem fits_above : q.Wf ∧ q.bits + (getSplit t q + s) ≤ 24 := by
  have hq := (h.wf.wf q h.child.1).1
  have hpb := (h.wf.child h.child).2.1
  have := h.fits.2
  exact ⟨hq, by omega⟩

theorem mem_above (hc : c ∈ p.split s) : c ∈ q.split (getSplit t q + s) := by
  obtain ⟨hq, hb⟩ := h.fits_above
  exact (mem_split_split hq hb).mpr ⟨p, h.child.2, hc⟩

theorem new_ne (hc : c ∈ p.split s) : c ≠ q ∧ c ∉ q.split (getSplit t q) :=
  ⟨fun heq => h.not_mem (heq ▸ hc), fun hm => h.not_new hm hc⟩

theorem put_new (hc : c ∈ p.split s) : Splittable (tryAssimilateChildren (put t p s) q) q r c := by
  obtain ⟨hcw, hcb, hpc, hcp, hc0⟩ := h.piece hc
  obtain ⟨hcq, hcm⟩ := h.new_ne hc
  have hother : ∀ y, y ≠ q → y ∉ q.split (getSplit t q) →
      getSplit (tryAssimilateChildren (put t p s) q) y = getSplit (put t p s) y := fun y hyq hym => by
    rw [getSplit, h.put_apply, if_neg hyq, if_neg hym]
    rfl
  have hqs : getSplit (tryAssimilateChildren (put t p s) q) q = getSplit t q + s := by
    rw [getSplit, h.put_apply, if_pos rfl]
    rfl
  have hfits := h.fits.2
  refine ⟨?_, ?_, by omega, fun g hg ha hgc hs => ?_⟩
  · rw [hother c hcq hcm, getSplit_put_ne s hcp, hc0]
  · rw [Child, hqs]
    exact ⟨fun h0 => h.first (Nat.eq_zero_of_add_eq_zero_left h0), h.mem_above hc⟩
  · by_cases hgq : g = q
    · rw [hgq]
      exact .refl h.fits_above.1
    have hgm : g ∉ q.split (getSplit t q) := fun hm => by
      rw [getSplit, h.put_apply, if_neg hgq, if_pos hm] at hs
      exact hs rfl
    have hgp : g ≠ p := fun heq => hgm (heq ▸ h.child.2)
    rw [hother g hgq hgm, getSplit_put_ne s hgp] at hs
    have hbr : Branch t (fun g => g ≠ p) p q := .of_child h.wf h.child fun _ hg _ => hg
    exact hbr.nearest g hg (h.above_of_split hc hg ha hgc hs) hgp hs

/-- **Taken in by the split above**, the new pieces stay, unless that simplifies once more. -/
theorem intermediate_taken : intermediate t p (s + r) s =
    some (tryAssimilateChildren (tryAssimilateChildren (splitTwice t p s r) q) q) := by
  obtain ⟨c, hc⟩ := exists_piece p s
  have hp := h.fits.1
  have hr : p ≠ root := h.wf.child_ne_root h.child
  have hsimp : simplify (put t p s) p = some (tryAssimilateChildren (put t p s) q) := by
    have hbr : Branch t (fun g => g ≠ p) p q := .of_child h.wf h.child fun _ hg _ => hg
    refine simplify_branch hp hr (hbr.congr (getSplit_put_ne s h.ne) fun g hg hs => ⟨hg, ?_⟩) h.ne
    rwa [getSplit_put_ne s hg] at hs
  have hsame : (p.split s).foldl (fun u c => put u c r) (tryAssimilateChildren (put t p s) q) =
      tryAssimilateChildren (splitTwice t p s r) q := by
    funext y
    rw [foldl_put, h.put_apply, h.twice_apply]
    by_cases hm : y ∈ p.split s
    · obtain ⟨hyq, hyn⟩ := h.new_ne hm
      rw [if_pos hm, if_neg hyq, if_neg hyn, splitTwice, if_neg (h.piece hm).2.2.2.1, if_pos hm]
    · rw [if_neg hm]
      by_cases hyq : y = q
      · rw [if_pos hyq, if_pos hyq]
      rw [if_neg hyq, if_neg hyq]
      by_cases hyn : y ∈ q.split (getSplit t q)
      · rw [if_pos hyn, if_pos hyn]
      · have hyp : y ≠ p := fun heq => hyn (heq ▸ h.child.2)
        rw [if_neg hyn, if_neg hyn, put, update_of_ne hyp, splitTwice, if_neg hyp, if_neg hm]
  have hsized : Inv (fun _ => True) (tryAssimilateChildren (put t p s) q) := (assimilate_inv h.put_sized q).1
  rw [h.intermediate_eq, hsimp, bind_some,
    splitEach_spec h.second _ _ hsized (ne_nil_of_mem hc) h.nodup fun c hc => h.put_new hc, hsame]

end

/-- All cousins of the new pieces are split as they are. -/
def Cousins (t : Fragtree) (q p : Frag) (s r : ℕ) : Prop :=
  ∀ c ∈ q.split (getSplit t q), c ≠ p → ∀ d ∈ c.split s, getSplit t d = r

/-- How the tree with the intermediary split taken in splits a cousin. -/
theorem cousin (h : Taken t q p s r) {d : Frag} (hc : c ∈ q.split (getSplit t q)) (hd : d ∈ c.split s) :
    d ∈ q.split (getSplit t q + s) ∧
      getSplit (tryAssimilateChildren (splitTwice t p s r) q) d = if c = p then r else getSplit t d := by
  obtain ⟨hq, hb⟩ := h.fits_above
  have hsum := (h.wf.child h.child).2.1
  obtain ⟨hcw, hcb⟩ := h.bits_piece hc
  obtain ⟨-, hdb, hcd⟩ := (mem_split_iff hcw (by omega)).mp hd
  have hs := h.first
  have hn := h.child.1
  have hdq : d ≠ q := fun heq => by
    rw [heq] at hdb
    omega
  have hdn : d ∉ q.split (getSplit t q) := fun hm => by
    have := (h.bits_piece hm).2
    omega
  refine ⟨(mem_split_split hq hb).mpr ⟨c, hc, hd⟩, ?_⟩
  rw [getSplit, h.twice_apply, if_neg hdq, if_neg hdn]
  by_cases hcp : c = p
  · have hdp : d ≠ p := fun heq => by
      rw [heq, hcp] at hdb
      omega
    rw [if_pos hcp]
    exact getSplit_twice_piece hdp (hcp ▸ hd)
  · have hdp : d ≠ p := fun heq => by
      rw [heq] at hdb
      omega
    rw [if_neg hcp]
    refine getSplit_twice_ne hdp fun hm => hcp ?_
    obtain ⟨-, -, hpd, -⟩ := h.piece hm
    exact hcd.unique hcw h.fits.1 hpd hcb

theorem twice_above (h : Taken t q p s r) :
    getSplit (tryAssimilateChildren (splitTwice t p s r) q) q = getSplit t q + s := by
  rw [getSplit, h.twice_apply, if_pos rfl]
  rfl

theorem twice_kept (h : Taken t q p s r) (hno : ¬ Cousins t q p s r) :
    tryAssimilateChildren (tryAssimilateChildren (splitTwice t p s r) q) q =
      tryAssimilateChildren (splitTwice t p s r) q := by
  refine assimilate_unlike fun k hk => ?_
  rw [h.twice_above]
  by_cases hkr : k = r
  · by_contra hall
    refine hno fun c hc hcp d hd => ?_
    obtain ⟨hm, hget⟩ := h.cousin hc hd
    rw [if_neg hcp] at hget
    by_contra hne
    exact hall ⟨d, hm, by rw [hget, hkr]; exact hne⟩
  · obtain ⟨d, hd⟩ := exists_piece p s
    obtain ⟨hm, hget⟩ := h.cousin h.child.2 hd
    rw [if_pos rfl] at hget
    exact ⟨d, hm, by rw [hget]; exact Ne.symm hkr⟩

/-- If they are, nothing is left of the new pieces. -/
theorem twice_gone (h : Taken t q p s r) (hall : Cousins t q p s r) (hx : x ∈ p.split s) :
    let t' := tryAssimilateChildren (tryAssimilateChildren (splitTwice t p s r) q) q
    getSplit t' x = 0 ∧ isLeaf t' x = false := by
  obtain ⟨hq, hb⟩ := h.fits_above
  have hwf : WellFormed (tryAssimilateChildren (splitTwice t p s r) q) := (assimilate_inv h.wellFormed q).1
  have hwf' : WellFormed (tryAssimilateChildren (tryAssimilateChildren (splitTwice t p s r) q) q) :=
    (assimilate_inv hwf q).1
  have hs := h.first
  have hr := h.second
  have hmem := h.mem_above hx
  obtain ⟨hxw, hxb, hqx⟩ := (mem_split_iff hq hb).mp hmem
  have hxq : x ≠ q := (h.new_ne hx).1
  have happly := assimilate_all hwf h.twice_above (by omega) hr fun d hd => by
    obtain ⟨c, hc, hd⟩ := (mem_split_split hq hb).mp hd
    rw [(h.cousin hc hd).2]
    by_cases hcp : c = p
    · exact if_pos hcp
    · rw [if_neg hcp, hall c hc hcp d hd]
  have hqs : getSplit (tryAssimilateChildren (tryAssimilateChildren (splitTwice t p s r) q) q) q =
      getSplit t q + s + r := by
    rw [getSplit, happly, if_pos rfl]
    rfl
  refine ⟨by rw [getSplit, happly, if_neg hxq, if_pos hmem]; rfl, Bool.eq_false_iff.mpr fun hleaf => ?_⟩
  have hreach := ((isLeaf_iff_leaf hwf' hxw).mp hleaf).1
  have hgap := hwf'.gap _ x le_rfl hreach q (by omega) hqx (Ne.symm hxq)
  omega

end Taken

/-! ### When `force_to_leaf` succeeds -/

/-- `x` is strictly between the split `p` and its pieces. -/
def Inside (t : Fragtree) (x p : Frag) : Prop := Above p x ∧ p.bits < x.bits ∧ x.bits < p.bits + getSplit t p

/-- The intermediary split of `p` that makes `x` a piece is taken in by the
split above: the other pieces there are split by as much. And its pieces stay:
one of their cousins is not split like them. -/
def Rescued (t : Fragtree) (x p : Frag) : Prop :=
  ∃ q, Child t q p ∧ (∀ c ∈ q.split (getSplit t q), c ≠ p → getSplit t c = x.bits - p.bits) ∧
    ∃ c ∈ q.split (getSplit t q), c ≠ p ∧ ∃ d ∈ c.split (x.bits - p.bits),
      getSplit t d ≠ p.bits + getSplit t p - x.bits

section force

variable {t : Fragtree} {x p q f : Frag}

section

variable (h : WellFormed t)
include h

theorem Inside.twice (hin : Inside t x p) :
    Twice t p (x.bits - p.bits) (p.bits + getSplit t p - x.bits) :=
  ⟨h, by have := hin.2.1; have := hin.2.2; omega, by have := hin.2.1; omega, by have := hin.2.2; omega⟩

theorem Inside.mem (hx : x.Wf) (hin : Inside t x p) : x ∈ p.split (x.bits - p.bits) := by
  have hlt := hin.2.1
  have hb := hx.bits_le
  exact (mem_split_iff (hin.twice h).fits.1 (by omega)).mpr ⟨hx, by omega, hin.1⟩

theorem not_inside {z : Frag} (hz : Reached t z) (hzx : Above z x) (hor : z = x ∨ Leaf t z) :
    ¬ Inside t x p := by
  rintro ⟨ha, hlt, hgt⟩
  have hs : getSplit t p ≠ 0 := by omega
  have hp := (h.wf p hs).1
  have hzw := hz.wf h
  rcases lt_or_ge p.bits z.bits with hpz | hzp
  · have hgap := h.gap _ z le_rfl hz p hs (ha.chain hp hzw hzx hpz.le) fun heq => by
      rw [heq] at hpz
      omega
    have := hzx.bits_le
    omega
  · obtain rfl | hleaf := hor
    · omega
    · exact hs (h.below_leaf hleaf (h.reached hs) (hzx.chain hzw hp ha hzp) ▸ hleaf.2)

theorem Inside.unique (hp : Inside t x p) (hq : Inside t x q) : p = q := by
  have hps : getSplit t p ≠ 0 := by have := hp.2.1; have := hp.2.2; omega
  have hqs : getSplit t q ≠ 0 := by have := hq.2.1; have := hq.2.2; omega
  have hpw := (h.wf p hps).1
  have hqw := (h.wf q hqs).1
  have hnot : ∀ {a b : Frag}, a.Wf → b.Wf → Inside t x a → Inside t x b → getSplit t a ≠ 0 → getSplit t b ≠ 0 →
      ¬ a.bits < b.bits := fun {a b} haw hbw ha hb has hbs hlt => by
    have hgap := h.gap _ b le_rfl (h.reached hbs) a has (ha.1.chain haw hbw hb.1 hlt.le) fun heq => by
      rw [heq] at hlt
      exact lt_irrefl _ hlt
    have := ha.2.2
    have := hb.2.1
    omega
  have h1 := hnot hpw hqw hp hq hps hqs
  have h2 := hnot hqw hpw hq hp hqs hps
  exact hp.1.unique hpw hqw hq.1 (by omega)

/-- **Inside a split, and not rescued**: what the loops leave does not have `x` for a leaf. -/
theorem inside_fails (hx : x.Wf) (hin : Inside t x p) (hno : ¬ Rescued t x p) :
    ∃ t', (intermediate t p (getSplit t p) (x.bits - p.bits)).bind (hoover fuel [x]) = some t' ∧
      isLeaf t' x = false := by
  have htw := hin.twice h
  have hmem := hin.mem h hx
  have hgone : simplify (put t p (x.bits - p.bits)) p = some (put t p (x.bits - p.bits)) →
      ∃ t', (intermediate t p (getSplit t p) (x.bits - p.bits)).bind (hoover fuel [x]) = some t' ∧
        isLeaf t' x = false := fun hs => by
    rw [htw.split, htw.intermediate_gone hs, bind_some, hoover_unsplit (htw.piece hmem).2.2.2.2]
    refine ⟨t, rfl, Bool.eq_false_iff.mpr fun hleaf => ?_⟩
    exact not_inside h ((isLeaf_iff_leaf h hx).mp hleaf).1 (.refl hx) (.inl rfl) hin
  obtain rfl | ⟨q, hc⟩ := htw.linked
  · refine hgone ?_
    have hsub := htw.splittable hmem
    rw [simplify_root, assimilate_unsplit hsub.child.2 hsub.unsplit]
  · by_cases hall : ∀ c ∈ q.split (getSplit t q), c ≠ p → getSplit t c = x.bits - p.bits
    · have htaken : Taken t q p (x.bits - p.bits) (p.bits + getSplit t p - x.bits) := ⟨htw, hc, hall⟩
      have hcousins : Taken.Cousins t q p (x.bits - p.bits) (p.bits + getSplit t p - x.bits) := fun c hcm hcp d hd => by
        by_contra hne
        exact hno ⟨q, hc, hall, c, hcm, hcp, d, hd, hne⟩
      obtain ⟨h0, hleaf⟩ := htaken.twice_gone hcousins hmem
      refine ⟨_, ?_, hleaf⟩
      have hmid := htaken.intermediate_taken
      rw [← htw.split] at hmid
      rw [hmid, bind_some, hoover_unsplit h0]
    · -- a sibling that is split otherwise
      refine hgone ?_
      obtain ⟨c, hcon⟩ := not_forall.mp hall
      obtain ⟨hcm, hcon⟩ := Classical.not_imp.mp hcon
      obtain ⟨hcp, hne⟩ := Classical.not_imp.mp hcon
      have hqp : q ≠ p := h.child_ne hc
      have hr : p ≠ root := h.child_ne_root hc
      have hbr : Branch t (fun g => g ≠ p) p q := .of_child h hc fun _ hg _ => hg
      rw [simplify_branch htw.fits.1 hr (hbr.congr (getSplit_put_ne _ hqp) fun g hg hs => ⟨hg, by
        rwa [getSplit_put_ne _ hg] at hs⟩) hqp]
      refine congrArg some (assimilate_unlike fun k _ => ?_)
      rw [getSplit_put_ne _ hqp]
      by_cases hk : k = x.bits - p.bits
      · exact ⟨c, hcm, by rw [getSplit_put_ne _ hcp, hk]; exact hne⟩
      · exact ⟨p, hc.2, by rw [getSplit_put_self]; exact Ne.symm hk⟩

/-- **Inside a split, and rescued**: `x` is a piece then, and hoovered up. -/
theorem inside_rescued (hx : x.Wf) (hin : Inside t x p) (hres : Rescued t x p) :
    ∃ t', (intermediate t p (getSplit t p) (x.bits - p.bits)).bind (hoover fuel [x]) = some t' ∧ WellFormed t' ∧
      ∀ f, Leaf t' f ↔ f = x ∨ Leaf t f ∧ ¬ Above x f := by
  have htw := hin.twice h
  have hmem := hin.mem h hx
  obtain ⟨q, hc, hall, c, hcm, hcp, d, hd, hne⟩ := hres
  have htaken : Taken t q p (x.bits - p.bits) (p.bits + getSplit t p - x.bits) := ⟨htw, hc, hall⟩
  have hno : ¬ Taken.Cousins t q p (x.bits - p.bits) (p.bits + getSplit t p - x.bits) := fun hcon =>
    hne (hcon c hcm hcp d hd)
  have hwf : WellFormed (tryAssimilateChildren (splitTwice t p (x.bits - p.bits) (p.bits + getSplit t p - x.bits)) q) :=
    (assimilate_inv htw.wellFormed q).1
  have hleaf := fun f => (leaf_assimilate htw.wellFormed q f).trans (htw.leaf_iff f)
  have hreach : Reached _ x := hwf.reached (by
    rw [(htaken.cousin hc.2 hmem).2, if_pos rfl]
    exact htw.second)
  refine ⟨_, ?_, cleared_wellFormed hwf hx, fun f => ?_⟩
  · have hmid := htaken.intermediate_taken
    rw [← htw.split] at hmid
    rw [hmid, bind_some, htaken.twice_kept hno, hoover_split hwf hreach]
  · rw [leaf_cleared hwf hreach, hleaf]

/-- Where `force_to_leaf` starts: a leaf above `x`, `x` itself, or a split that `x` is inside of. -/
theorem getBranchOrLeaf_spec (hx : x.Wf) (hnot : ¬ Leaf t x) :
    ∃ p, getBranchOrLeaf t x = some p ∧ Above p x ∧
      ((Leaf t p ∧ p.bits < x.bits) ∨ (p = x ∧ getSplit t x ≠ 0) ∨ Inside t x p) := by
  obtain ⟨b, hb, hbr⟩ := getBranch_spec t (height x) x hx (Nat.lt_succ_self _)
  have hreach := hbr.reached h
  rw [getBranchOrLeaf, hb, map_some]
  have hlt : ∀ {z : Frag}, Leaf t z → Above z x → z.bits < x.bits := fun hz ha =>
    ha.bits_lt (hz.1.wf h) hx fun heq => hnot (heq ▸ hz)
  by_cases hin : 0 < getSplit t b ∧ b.bits + getSplit t b ≤ x.bits
  · obtain ⟨hs, hle⟩ := hin
    obtain ⟨hup, hua⟩ : x.upTo (b.bits + getSplit t b) ∈ b.split (getSplit t b) ∧
        Above (x.upTo (b.bits + getSplit t b)) x := ⟨upTo_mem_split hbr.wf hx hbr.above hle, upTo_above hx hle⟩
    have hleaf : Leaf t (x.upTo (b.bits + getSplit t b)) := by
      refine ⟨.piece hreach ⟨by omega, hup⟩, ?_⟩
      by_contra hus
      have := (hbr.nearest _ (hx.upTo hle) hua trivial hus).bits_le
      rw [bits_upTo hx hle] at this
      omega
    exact ⟨_, rfl, by rw [if_pos ⟨hs, hle⟩]; exact hua, .inl (by rw [if_pos ⟨hs, hle⟩]; exact ⟨hleaf, hlt hleaf hua⟩)⟩
  · refine ⟨_, rfl, by rw [if_neg hin]; exact hbr.above, ?_⟩
    rw [if_neg hin]
    by_cases h0 : getSplit t b = 0
    · exact .inl ⟨⟨hreach, h0⟩, hlt ⟨hreach, h0⟩ hbr.above⟩
    · rcases hbr.above.bits_le.lt_or_eq with hlt | heq
      · exact .inr (.inr ⟨hbr.above, hlt, by omega⟩)
      · have hbx := hbr.above.eq_of_bits hbr.wf hx heq.ge
        exact .inr (.inl ⟨hbx, hbx ▸ h0⟩)

end

/-- What `force_to_leaf` should do: without failing an assertion it makes `x`
a leaf and keeps the leaves that have no number in common with it, and it says
that it changed nothing exactly when `x` was a leaf. -/
def Forces (t : Fragtree) (x : Frag) : Prop :=
  ∃ changed t', forceToLeaf t x = some (changed, t') ∧ isLeaf t' x = true ∧
    (∀ f, isLeaf t f = true → (∀ v, ¬ (f.contains v ∧ x.contains v)) → isLeaf t' f = true) ∧
    (changed = false ↔ isLeaf t x = true) ∧ (changed = false → t' = t)

section

variable (h : WellFormed t) (hx : x.Wf)
include h hx

theorem not_isLeaf (hnot : ¬ Leaf t x) : ¬ isLeaf t x = true :=
  fun hl => hnot ((isLeaf_iff_leaf h hx).mp hl)

/-- A tree whose leaves are `x` and those outside it. -/
theorem forces_of_tree (hnot : ¬ Leaf t x) (t' : Fragtree) (ht : forceTree t x = some t')
    (hwf : WellFormed t') (hxl : Leaf t' x) (hkeep : ∀ f, Leaf t f → ¬ Above f x → ¬ Above x f → Leaf t' f) :
    Forces t x := by
  have hleaf' := (isLeaf_iff_leaf hwf hx).mpr hxl
  refine ⟨true, t', ?_, hleaf', fun f hf hdis => ?_, ?_, nofun⟩
  · rw [forceToLeaf, if_neg (not_isLeaf h hx hnot), ht, bind_some, if_pos hleaf']
  · have hfw := h.wf_linked (isLeaf_spec hf).1
    refine (isLeaf_iff_leaf hwf hfw).mpr (hkeep f ((isLeaf_iff_leaf h hfw).mp hf) (fun ha => ?_) fun ha => ?_)
    · exact hdis x.value ⟨ha.contains hfw hx (contains_value hx), contains_value hx⟩
    · exact hdis f.value ⟨contains_value hfw, ha.contains hx hfw (contains_value hfw)⟩
  · rw [Bool.eq_false_iff.mpr (not_isLeaf h hx hnot)]
    exact ⟨nofun, nofun⟩

theorem force_below (hnot : ¬ Leaf t x) (hp : Leaf t p) (ha : Above p x)
    (hlt : p.bits < x.bits) (hparent : getBranchOrLeaf t x = some p) : Forces t x := by
  have hpw := hp.1.wf h
  have hb := hx.bits_le
  obtain ⟨t', ht', hwf, hmem⟩ := split_leaves h ((isLeaf_iff_leaf h hpw).mpr hp) (b := x.bits - p.bits) (by omega)
    (by omega)
  refine forces_of_tree h hx hnot t' ?_ hwf ?_ fun f hf hfx _ => ?_
  · rw [forceTree, if_neg (not_isLeaf h hx hnot), hparent, bind_some, if_pos hlt]
    exact (if_pos hp.2).trans ht'
  · exact (hmem x).mpr (.inr ((mem_split_iff hpw (by omega)).mpr ⟨hx, by omega, ha⟩))
  · exact (hmem f).mpr (.inl ⟨hf, fun heq => hfx (heq ▸ ha)⟩)

theorem force_split (hs : getSplit t x ≠ 0) (hparent : getBranchOrLeaf t x = some x) :
    Forces t x := by
  have hreach := h.reached hs
  have hnot : ¬ Leaf t x := fun hl => hs hl.2
  have hmem := leaf_cleared h hreach
  refine forces_of_tree h hx hnot (cleared t x) ?_ (cleared_wellFormed h hx) ((hmem x).mpr (.inl rfl))
    fun f hf _ hxf => (hmem f).mpr (.inr ⟨hf, hxf⟩)
  rw [forceTree, if_neg (not_isLeaf h hx hnot), hparent, bind_some, if_neg (lt_irrefl _),
    if_pos rfl, hoover_split h hreach]

theorem forceTree_inside (hin : Inside t x p) (hparent : getBranchOrLeaf t x = some p) :
    forceTree t x = (intermediate t p (getSplit t p) (x.bits - p.bits)).bind (hoover fuel [x]) := by
  have hleaf : ¬ isLeaf t x = true := fun hl =>
    not_inside h ((isLeaf_iff_leaf h hx).mp hl).1 (.refl hx) (.inl rfl) hin
  have hs : getSplit t p ≠ 0 := (hin.twice h).pos
  rw [forceTree, if_neg hleaf, hparent, bind_some, if_pos hin.2.1]
  exact if_neg hs

end

/-- **`force_to_leaf` does its job** for the fragments that are not inside a
split, and for those whose intermediary split is taken in and whose cousins
are not all split like the new pieces. -/
theorem force_to_leaf_forces (h : WellFormed t) (hx : x.bits ≤ 24) :
    Forces t x ↔ x.Wf ∧ ∀ p, Inside t x p → Rescued t x p := by
  constructor
  · rintro ⟨changed, t', hforce, hleaf, -⟩
    have hwf : WellFormed t' := by
      rw [forceToLeaf] at hforce
      by_cases hl : isLeaf t x = true
      · rw [if_pos hl] at hforce
        exact (Prod.mk.inj (some.inj hforce)).2 ▸ h
      · rw [if_neg hl] at hforce
        obtain ⟨u, hu, hforce⟩ := bind_eq_some_iff.mp hforce
        obtain ⟨-, hforce⟩ := ite_none_right_eq_some.mp hforce
        exact (Prod.mk.inj (some.inj hforce)).2 ▸ forceTree_inv h hx hu
    have hxw := hwf.wf_linked (isLeaf_spec hleaf).1
    refine ⟨hxw, fun p hin => ?_⟩
    have hnot : ¬ Leaf t x := fun hl => not_inside h hl.1 (.refl hxw) (.inl rfl) hin
    obtain ⟨p', hparent, ha, hp' | ⟨rfl, hs⟩ | hin'⟩ := getBranchOrLeaf_spec h hxw hnot
    · exact absurd hin (not_inside h hp'.1.1 ha (.inr hp'.1))
    · exact absurd hin (not_inside h (h.reached hs) (.refl hxw) (.inl rfl))
    · obtain rfl := hin.unique h hin'
      by_contra hno
      obtain ⟨u, hu, hul⟩ := inside_fails h hxw hin hno
      have hl : ¬ isLeaf t x = true := fun hl => hnot ((isLeaf_iff_leaf h hxw).mp hl)
      rw [forceToLeaf, if_neg hl, forceTree_inside h hxw hin hparent, hu, bind_some, hul,
        if_neg Bool.false_ne_true] at hforce
      cases hforce
  · rintro ⟨hxw, hres⟩
    by_cases hl : Leaf t x
    · have hleaf := (isLeaf_iff_leaf h hxw).mpr hl
      refine ⟨false, t, by rw [forceToLeaf, if_pos hleaf], hleaf, fun f hf _ => hf, ⟨fun _ => hleaf, fun _ => rfl⟩,
        fun _ => rfl⟩
    · obtain ⟨p, hparent, ha, ⟨hp, hlt⟩ | ⟨rfl, hs⟩ | hin⟩ := getBranchOrLeaf_spec h hxw hl
      · exact force_below h hxw hl hp ha hlt hparent
      · exact force_split h hxw hs hparent
      · obtain ⟨t', ht', hwf, hmem⟩ := inside_rescued h hxw hin (hres p hin)
        exact forces_of_tree h hxw hl t' (by rw [forceTree_inside h hxw hin hparent, ht']) hwf ((hmem x).mpr (.inl rfl))
          fun f hf _ hxf => (hmem f).mpr (.inr ⟨hf, hxf⟩)

/-- Halves, split by two bits and by one: a half of the first half is forced. -/
theorem force_to_leaf_forces_half : ∃ t, Run.Reach step Allowed empty t ∧ getSplit t (frag 0 1) = 2 ∧
    (forceToLeaf t (frag 0 2)).isSome = true ∧
    (Forces t (frag 0 2) ↔ (frag 0 2).Wf ∧ ∀ p, Inside t (frag 0 2) p → Rescued t (frag 0 2) p) := by
  have hrun : (Run.exec step Allowed [.split root 1, .split (frag 0 1) 2, .split (frag 1 1) 1] empty).map
      (fun t => (getSplit t (frag 0 1), (forceToLeaf t (frag 0 2)).isSome)) = some (2, true) := by
    decide +kernel
  obtain ⟨t, ht, heq⟩ := map_eq_some_iff.mp hrun
  obtain ⟨h1, h2⟩ := Prod.mk.inj heq
  have hreach := Run.reach_of_exec ht
  exact ⟨t, hreach, h1, h2, force_to_leaf_forces (wellFormed_of_reach hreach) (by decide)⟩

/-- The namespace in eighths: a half of it fails the last assertion. -/
theorem half_of_eighths : ¬ ∀ t, Run.Reach step Allowed empty t → ∀ x : Frag, x.Wf → Forces t x := by
  intro hall
  have hrun : (Run.exec step Allowed [.split root 3] empty).map
      (fun t => (forceToLeaf t (frag 1 1)).isNone) = some true := by
    decide +kernel
  obtain ⟨t, ht, heq⟩ := map_eq_some_iff.mp hrun
  obtain ⟨changed, t', hforce, -⟩ := hall t (Run.reach_of_exec ht) (frag 1 1) (wf_frag (by decide))
  rw [hforce] at heq
  cases heq

end force

end Frags
end Ceph
