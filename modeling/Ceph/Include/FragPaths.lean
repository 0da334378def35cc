/-
# Fragments within fragments

A fragment contains another when the other has all its bits and more of them.
The fragments that contain a given one are its first bits, one for each number
of bits: they form a chain, the way up that `parent` takes a step at a time.
-/
import Ceph.Include.FragTree

namespace Ceph
namespace Frags

/-- `x` contains `y`, or is it. -/
def Above (x y : Frag) : Prop := x.containsFrag y = true

instance (x y : Frag) : Decidable (Above x y) := inferInstanceAs (Decidable (_ = _))

/-- The first `b` bits of a fragment. -/
def Frag.upTo (x : Frag) (b : ℕ) : Frag := frag x.value b

section above

variable {x y z : Frag}

theorem above_iff (hx : x.bits ≤ 24) : Above x y ↔ x.bits ≤ y.bits ∧ y.value % 2 ^ x.bits = x.value := by
  rw [Above, Frag.containsFrag, Frag.mask_eq hx, Nat.and_two_pow_sub_one_eq_mod]
  exact decide_eq_true_iff

theorem Above.bits_le (h : Above x y) : x.bits ≤ y.bits := (of_decide_eq_true h).1

theorem Above.refl (hx : x.Wf) : Above x x :=
  (above_iff hx.bits_le).mpr ⟨le_rfl, Nat.mod_eq_of_lt hx.value_lt⟩

theorem root_above (x : Frag) : Above root x := by
  refine (above_iff (by decide)).mpr ⟨Nat.zero_le _, ?_⟩
  rw [bits_root, pow_zero, Nat.mod_one]
  rfl

section

variable (hx : x.Wf) (hy : y.Wf)
include hx hy

theorem Above.trans (h : Above x y) (h' : Above y z) : Above x z := by
  obtain ⟨hb, hv⟩ := (above_iff hx.bits_le).mp h
  obtain ⟨hb', hv'⟩ := (above_iff hy.bits_le).mp h'
  refine (above_iff hx.bits_le).mpr ⟨hb.trans hb', ?_⟩
  calc z.value % 2 ^ x.bits = z.value % 2 ^ y.bits % 2 ^ x.bits :=
        (Nat.mod_mod_of_dvd _ (pow_dvd_pow 2 hb)).symm
    _ = y.value % 2 ^ x.bits := by rw [hv']
    _ = x.value := hv

theorem Above.eq_of_bits (h : Above x y) (hb : y.bits ≤ x.bits) : x = y := by
  obtain ⟨hle, hv⟩ := (above_iff hx.bits_le).mp h
  have heq : x.bits = y.bits := le_antisymm hle hb
  refine Frag.ext_bits heq ?_
  rw [← hv, heq, Nat.mod_eq_of_lt hy.value_lt]

theorem Above.bits_lt (h : Above x y) (hne : x ≠ y) : x.bits < y.bits :=
  lt_of_not_ge fun hb => hne (h.eq_of_bits hx hy hb)

/-- **What contains one fragment forms a chain.** -/
theorem Above.chain (h : Above x z) (h' : Above y z) (hb : x.bits ≤ y.bits) : Above x y := by
  obtain ⟨-, hv⟩ := (above_iff hx.bits_le).mp h
  obtain ⟨-, hv'⟩ := (above_iff hy.bits_le).mp h'
  refine (above_iff hx.bits_le).mpr ⟨hb, ?_⟩
  rw [← hv', Nat.mod_mod_of_dvd _ (pow_dvd_pow 2 hb), hv]

theorem Above.unique (h : Above x z) (h' : Above y z) (hb : x.bits = y.bits) : x = y :=
  (h.chain hx hy h' hb.le).eq_of_bits hx hy hb.ge

theorem Above.contains {v : ℕ} (h : Above x y) (hv : y.contains v = true) :
    x.contains v = true := by
  obtain ⟨hb, hxy⟩ := (above_iff hx.bits_le).mp h
  rw [Frag.contains_iff hy.bits_le] at hv
  rw [Frag.contains_iff hx.bits_le, ← hxy, ← hv, Nat.mod_mod_of_dvd _ (pow_dvd_pow 2 hb)]

end

theorem contains_value (hx : x.Wf) : x.contains x.value = true :=
  (Frag.contains_iff hx.bits_le _).mpr (Nat.mod_eq_of_lt hx.value_lt)

theorem above_of_common {v : ℕ} (hx : x.Wf) (hy : y.Wf) (hxv : x.contains v = true) (hyv : y.contains v = true)
    (hb : x.bits ≤ y.bits) : Above x y := by
  rw [Frag.contains_iff hx.bits_le] at hxv
  rw [Frag.contains_iff hy.bits_le] at hyv
  refine (above_iff hx.bits_le).mpr ⟨hb, ?_⟩
  rw [← hyv, Nat.mod_mod_of_dvd _ (pow_dvd_pow 2 hb), hxv]

end above

section upTo

variable {x y : Frag} {b c nb : ℕ}

theorem Frag.Wf.upTo (hx : x.Wf) (hb : b ≤ x.bits) : (x.upTo b).Wf := wf_frag (hb.trans hx.bits_le)

theorem bits_upTo (hx : x.Wf) (hb : b ≤ x.bits) : (x.upTo b).bits = b := bits_frag (hb.trans hx.bits_le)

theorem upTo_above (hx : x.Wf) (hb : b ≤ x.bits) : Above (x.upTo b) x := by
  refine (above_iff (hx.upTo hb).bits_le).mpr ⟨(bits_upTo hx hb).trans_le hb, ?_⟩
  rw [bits_upTo hx hb, Frag.upTo, value_frag (hb.trans hx.bits_le)]

theorem eq_upTo (hx : x.Wf) (hy : y.Wf) (h : Above y x) : y = x.upTo y.bits :=
  h.unique hy (hx.upTo h.bits_le) (upTo_above hx h.bits_le) (bits_upTo hx h.bits_le).symm

theorem above_upTo (hx : x.Wf) (hy : y.Wf) (h : Above y x) (hb : b ≤ x.bits) (hle : y.bits ≤ b) :
    Above y (x.upTo b) :=
  h.chain hy (hx.upTo hb) (upTo_above hx hb) (hle.trans (bits_upTo hx hb).ge)

theorem mem_split_iff (hx : x.Wf) (hb : x.bits + nb ≤ 24) :
    y ∈ x.split nb ↔ y.Wf ∧ y.bits = x.bits + nb ∧ Above x y := by
  rw [mem_split hx hb, above_iff hx.bits_le]
  constructor
  · rintro ⟨hy, hbits, hval⟩
    exact ⟨hy, hbits, by omega, hval⟩
  · rintro ⟨hy, hbits, -, hval⟩
    exact ⟨hy, hbits, hval⟩

theorem upTo_mem_split (hx : x.Wf) (hy : y.Wf) (h : Above x y) (hb : x.bits + nb ≤ y.bits) :
    y.upTo (x.bits + nb) ∈ x.split nb :=
  (mem_split_iff hx (hb.trans hy.bits_le)).mpr ⟨hy.upTo hb, bits_upTo hy hb, above_upTo hy hx h hb (by omega)⟩

theorem parent_eq (hx : x.Wf) (h0 : x.bits ≠ 0) : x.parent = some (x.upTo (x.bits - 1)) := by
  have hb := hx.bits_le
  have hmask : x.mask >>> 1 = 2 ^ (x.bits - 1) - 1 := by
    rw [Frag.mask, ← Nat.shiftRight_add, show 32 - x.bits + 1 = 32 - (x.bits - 1) by omega]
    exact full_shift _ (by omega)
  rw [Frag.parent, if_pos (pos_of_ne_zero h0), hmask, Nat.and_two_pow_sub_one_eq_mod]
  refine congrArg some (Frag.ext_bits ?_ ?_)
  · rw [bits_frag (by omega), bits_upTo hx (by omega)]
  · rw [value_frag (by omega), Frag.upTo, value_frag (by omega), Nat.mod_mod]

end upTo

/-! ### Branches -/

/-- `b` is a split, or the root, and no split that contains `x` and passes `ok` comes between. -/
structure Branch (t : Fragtree) (ok : Frag → Prop) (x b : Frag) : Prop where
  wf : b.Wf
  above : Above b x
  split : b = root ∨ getSplit t b ≠ 0
  nearest : ∀ g : Frag, g.Wf → Above g x → ok g → getSplit t g ≠ 0 → Above g b

section branch

variable {t : Fragtree} {x b : Frag}

theorem Branch.up (hx : x.Wf) {ok ok' : Frag → Prop} (h : Branch t ok (x.upTo (x.bits - 1)) b)
    (hok : ∀ g, ok' g → getSplit t g ≠ 0 → g ≠ x ∧ ok g) : Branch t ok' x b where
  wf := h.wf
  above := h.above.trans h.wf (hx.upTo (Nat.sub_le _ _)) (upTo_above hx (Nat.sub_le _ _))
  split := h.split
  nearest g hg ha ho hs := by
    obtain ⟨hne, ho⟩ := hok g ho hs
    have hlt := ha.bits_lt hg hx hne
    exact h.nearest g hg (above_upTo hx hg ha (Nat.sub_le _ _) (by omega)) ho hs

theorem Branch.congr {t' : Fragtree} {ok ok' : Frag → Prop} (h : Branch t ok x b) (hb : getSplit t' b = getSplit t b)
    (hok : ∀ g, ok' g → getSplit t' g ≠ 0 → ok g ∧ getSplit t g ≠ 0) : Branch t' ok' x b where
  wf := h.wf
  above := h.above
  split := hb ▸ h.split
  nearest g hg ha ho hs := h.nearest g hg ha (hok g ho hs).1 (hok g ho hs).2

theorem Branch.above_other {ok : Frag → Prop} {b' : Frag} (h : Branch t ok x b) (h' : Branch t ok x b') (hok : ok b) :
    Above b b' := by
  obtain rfl | hs := h.split
  · exact root_above b'
  · exact h'.nearest b h.wf h.above hok hs

theorem Branch.unique {ok : Frag → Prop} {b' : Frag} (h : Branch t ok x b) (h' : Branch t ok x b') (hok : ok b)
    (hok' : ok b') : b = b' :=
  (h.above_other h' hok).eq_of_bits h.wf h'.wf (h'.above_other h hok').bits_le

/-- **`get_branch`** finds the nearest split at or above a fragment. -/
theorem getBranch_spec (t : Fragtree) : ∀ (n : ℕ) (x : Frag), x.Wf → x.bits < n →
    ∃ b, getBranch t n x = some b ∧ Branch t (fun _ => True) x b
  | n + 1, x, hx, hn => by
    have hself : x = root ∨ getSplit t x ≠ 0 → Branch t (fun _ => True) x x := fun h =>
      ⟨hx, .refl hx, h, fun _ _ ha _ _ => ha⟩
    rw [getBranch]
    by_cases hr : x = root
    · rw [if_pos hr]
      exact ⟨x, rfl, hself (.inl hr)⟩
    rw [if_neg hr]
    by_cases hs : getSplit t x ≠ 0
    · rw [if_pos hs]
      exact ⟨x, rfl, hself (.inr hs)⟩
    have h0 : x.bits ≠ 0 := fun h0 => hr (eq_root hx h0)
    rw [if_neg hs, parent_eq hx h0, Option.bind_some]
    have hwf := hx.upTo (Nat.sub_le x.bits 1)
    obtain ⟨b, hb, hbranch⟩ := getBranch_spec t n _ hwf (by rw [bits_upTo hx (Nat.sub_le _ _)]; omega)
    exact ⟨b, hb, hbranch.up hx fun g _ hg => ⟨fun heq => hs (heq ▸ hg), trivial⟩⟩

/-- **`get_branch_above`** finds the nearest split that is not the fragment itself. -/
theorem getBranchAbove_spec (t : Fragtree) : ∀ (n : ℕ) (x : Frag), x.Wf → x.bits < n →
    ∃ b, getBranchAbove t n x = some b ∧ Branch t (fun g => g ≠ x) x b ∧ (x ≠ root → b ≠ x)
  | n + 1, x, hx, hn => by
    rw [getBranchAbove]
    by_cases hr : x = root
    · rw [if_pos hr]
      exact ⟨x, rfl, ⟨hx, .refl hx, .inl hr, fun _ _ ha _ _ => ha⟩, fun hne => absurd hr hne⟩
    have h0 : x.bits ≠ 0 := fun h0 => hr (eq_root hx h0)
    rw [if_neg hr, parent_eq hx h0, Option.bind_some]
    have hwf := hx.upTo (Nat.sub_le x.bits 1)
    have hbits := bits_upTo hx (Nat.sub_le x.bits 1)
    have hbelow : ∀ b : Frag, Above b (x.upTo (x.bits - 1)) → b ≠ x := fun b hb heq => by
      have := hb.bits_le
      rw [hbits, heq] at this
      omega
    by_cases hs : getSplit t (x.upTo (x.bits - 1)) ≠ 0
    · rw [if_pos hs]
      have hself := Above.refl hwf
      have hbr : Branch t (fun _ => True) (x.upTo (x.bits - 1)) (x.upTo (x.bits - 1)) :=
        ⟨hwf, hself, .inr hs, fun _ _ ha _ _ => ha⟩
      exact ⟨_, rfl, hbr.up hx fun g hne _ => ⟨hne, trivial⟩, fun _ => hbelow _ hself⟩
    · rw [if_neg hs]
      obtain ⟨b, hb, hbranch, -⟩ := getBranchAbove_spec t n _ hwf (by omega)
      refine ⟨b, hb, hbranch.up hx fun g hne hg => ⟨hne, fun heq => hs (heq ▸ hg)⟩, fun _ => hbelow b hbranch.above⟩

end branch

end Frags
end Ceph
