/-
# Placement groups when their number grows

An object falls into one of `pg_num` placement groups by `ceph_stable_mod`: the
low bits of a number, as many as `pg_num` needs, or one fewer where that gives
no group. One more group takes its objects from one other, and no object moves
between groups that were there.

The numbers are `int`s of 32 bits here as in the source. With more than `2 ^ 30`
groups the mask needs all bits but the sign, and `(1 << 31) - 1` is what it is
in two's complement.
-/
import Mathlib.Data.Nat.Bitwise

namespace Ceph
namespace Osd
namespace Pgs

/-! ### What the map and the layout compute -/

/-- The loop of `calc_bits_of`, with the bits counted so far. -/
def calcBitsOf : ℕ → Int32 → ℕ → Option ℕ
  | 0, _, _ => none
  | k + 1, t, b => if t = 0 then some b else calcBitsOf k (t >>> 1) (b + 1)

/-- The mask that `calc_pg_masks` makes for a number of groups. A number that is
not positive has the loop of `calc_bits_of` shift the sign for ever. -/
def countMask (n : Int32) : Option Int32 := (calcBitsOf 32 (n - 1) 0).map fun bits => (1 <<< Int32.ofNat bits) - 1

structure OSDMap where
  pgNum : Int32
  pgNumMask : Int32
  localizedPgNum : Int32
  localizedPgNumMask : Int32

/-- `calc_pg_masks`. -/
def OSDMap.calcPgMasks (m : OSDMap) : Option OSDMap :=
  (countMask m.pgNum).bind fun mask => (countMask m.localizedPgNum).map fun localized =>
    { m with pgNumMask := mask, localizedPgNumMask := localized }

/-- `ceph_stable_mod`. -/
def cephStableMod (x b bmask : Int32) : Int32 := if x &&& bmask < b then x &&& bmask else x &&& (bmask >>> 1)

/-! ### Masks -/

/-- The mask of `k` bits. -/
def mask (k : ℕ) : Int32 := (1 <<< Int32.ofNat k) - 1

theorem mask_half : ∀ k ≤ 31, mask k >>> 1 = mask (k - 1) := by decide

theorem toNat_mask : ∀ k ≤ 31, (mask k).toBitVec.toNat = 2 ^ k - 1 := by decide

/-- The low bits of a number, taken without its sign. -/
def low (x : Int32) (k : ℕ) : ℕ := x.toBitVec.toNat % 2 ^ k

theorem toInt_and_mask (x : Int32) {k : ℕ} (hk : k ≤ 31) : (x &&& mask k).toInt = low x k := by
  have hnat : (x &&& mask k).toBitVec.toNat = low x k := by
    rw [Int32.toBitVec_and, BitVec.toNat_and, toNat_mask k hk, Nat.and_two_pow_sub_one_eq_mod, low]
  have hlt : low x k < 2 ^ 31 :=
    lt_of_lt_of_le (Nat.mod_lt _ (Nat.two_pow_pos k)) (Nat.pow_le_pow_right (by decide) hk)
  have hint : (x &&& mask k).toBitVec.toInt = ((x &&& mask k).toBitVec.toNat : ℤ) :=
    BitVec.toInt_eq_toNat_of_lt (by omega)
  rw [← hnat]
  exact hint

theorem toInt_half (t : Int32) : (t >>> 1).toInt = t.toInt / 2 := by
  have hbits : (t >>> 1).toBitVec = t.toBitVec.sshiftRight 1 := by
    rfl
  have hint : (t >>> 1).toInt = t.toBitVec.toInt >>> (1 : ℕ) := by
    rw [← BitVec.toInt_sshiftRight, ← hbits]
    rfl
  rw [hint, Int.shiftRight_eq_div_pow]
  rfl

/-- The bits that a number needs. -/
def Needs (t k : ℕ) : Prop := t < 2 ^ k ∧ (k = 0 ∨ 2 ^ (k - 1) ≤ t)

theorem calcBitsOf_spec : ∀ (k : ℕ) (t : Int32) (b n : ℕ), t.toInt = (n : ℤ) → n < 2 ^ k →
    ∃ j, Needs n j ∧ calcBitsOf (k + 1) t b = some (b + j)
  | 0, t, b, n, ht, hn => by
    obtain rfl : n = 0 := by omega
    have h0 : t = 0 := Int32.toInt.inj ht
    exact ⟨0, ⟨by decide, .inl rfl⟩, by rw [calcBitsOf, if_pos h0]; rfl⟩
  | k + 1, t, b, n, ht, hn => by
    by_cases h0 : t = 0
    · obtain rfl : n = 0 := by
        rw [h0] at ht
        exact (Int.natCast_eq_zero.mp ht.symm)
      exact ⟨0, ⟨by decide, .inl rfl⟩, by rw [calcBitsOf, if_pos h0]; rfl⟩
    · have hpos : n ≠ 0 := fun hn0 => h0 (Int32.toInt.inj (by rw [ht, hn0]; rfl))
      have hhalf : (t >>> 1).toInt = ((n / 2 : ℕ) : ℤ) := by
        rw [toInt_half, ht]
        omega
      obtain ⟨j, ⟨hlt, hge⟩, hj⟩ := calcBitsOf_spec k (t >>> 1) (b + 1) (n / 2) hhalf (by omega)
      refine ⟨j + 1, ⟨by omega, .inr ?_⟩, ?_⟩
      · rw [Nat.add_sub_cancel]
        obtain rfl | hge := hge
        · rw [pow_zero]
          omega
        · obtain _ | j := j
          · rw [pow_zero]
            omega
          · rw [Nat.add_sub_cancel] at hge
            omega
      · rw [calcBitsOf, if_neg h0, hj]
        congr 1
        omega

theorem countMask_spec {b : Int32} {n : ℕ} (hb : b.toInt = n) (hn : 0 < n) :
    ∃ k ≤ 31, Needs (n - 1) k ∧ countMask b = some (mask k) := by
  have hlt : n < 2 ^ 31 := by
    have := b.toInt_lt
    omega
  have hpred : (b - 1).toInt = ((n - 1 : ℕ) : ℤ) := by
    rw [Int32.toInt_sub, hb, Int.bmod_eq_of_le]
    · change (n : ℤ) - 1 = _
      omega
    · change _ ≤ (n : ℤ) - 1
      omega
    · change (n : ℤ) - 1 < _
      omega
  obtain ⟨k, hk, heq⟩ := calcBitsOf_spec 31 (b - 1) 0 (n - 1) hpred (by omega)
  refine ⟨k, ?_, hk, by rw [countMask, heq, zero_add]; rfl⟩
  obtain ⟨-, rfl | hge⟩ := hk
  · decide
  · by_contra hgt
    have hpow : 2 ^ 31 ≤ 2 ^ (k - 1) := Nat.pow_le_pow_right (by decide) (by omega)
    omega

/-! ### Groups -/

theorem cephStableMod_eq (x : Int32) {b : Int32} {n k : ℕ} (hb : b.toInt = n) (hk : k ≤ 31) :
    (cephStableMod x b (mask k)).toInt = if low x k < n then low x k else low x (k - 1) := by
  have hlt : x &&& mask k < b ↔ low x k < n := by
    rw [Int32.lt_iff_toInt_lt, toInt_and_mask x hk, hb]
    exact Int.ofNat_lt
  rw [cephStableMod, mask_half k hk]
  by_cases h : low x k < n
  · rw [if_pos (hlt.mpr h), if_pos h, toInt_and_mask x hk]
  · rw [if_neg (mt hlt.mp h), if_neg h, toInt_and_mask x (by omega)]

theorem low_lt (x : Int32) (k : ℕ) : low x k < 2 ^ k := Nat.mod_lt _ (Nat.two_pow_pos k)

theorem low_succ (x : Int32) (k : ℕ) : low x (k + 1) = low x k ∨ low x (k + 1) = 2 ^ k + low x k := by
  have hmod : low x (k + 1) % 2 ^ k = low x k := Nat.mod_mod_of_dvd _ (pow_dvd_pow 2 (Nat.le_succ k))
  have hlt := low_lt x (k + 1)
  by_cases h : low x (k + 1) < 2 ^ k
  · exact .inl (by rw [← hmod, Nat.mod_eq_of_lt h])
  · refine .inr ?_
    rw [← hmod, Nat.mod_eq_sub_mod (by omega), Nat.mod_eq_of_lt (by omega)]
    omega

section groups

variable {n k : ℕ}

theorem group_lt (x : Int32) (hn : 0 < n) (hk : Needs (n - 1) k) :
    (if low x k < n then low x k else low x (k - 1)) < n := by
  obtain ⟨hlt, hge⟩ := hk
  by_cases h : low x k < n
  · rw [if_pos h]
    exact h
  · rw [if_neg h]
    have hlow := low_lt x (k - 1)
    obtain rfl | hge := hge
    · have := low_lt x 0
      omega
    · omega

/-- One group more: an object stays where it is, or falls into the new one. -/
theorem group_grows (x : Int32) {k' : ℕ} (hn : 0 < n) (hk : Needs (n - 1) k) (hk' : Needs n k') :
    (if low x k' < n + 1 then low x k' else low x (k' - 1)) = (if low x k < n then low x k else low x (k - 1)) ∨
      (if low x k' < n + 1 then low x k' else low x (k' - 1)) = n := by
  obtain ⟨hlt, hge⟩ := hk
  obtain ⟨hlt', hge'⟩ := hk'
  have hge' : 2 ^ (k' - 1) ≤ n := hge'.resolve_left fun h0 => by
    rw [h0, pow_zero] at hlt'
    omega
  by_cases hfull : n = 2 ^ k
  · -- the mask was full, and gets one bit more
    obtain rfl : k' = k + 1 := by
      have hle : k' - 1 ≤ k := (Nat.pow_le_pow_iff_right (by decide)).mp (hfull ▸ hge')
      have hlt2 : k < k' := (Nat.pow_lt_pow_iff_right (by decide)).mp (hfull ▸ hlt')
      omega
    have hlow := low_lt x k
    rw [Nat.add_sub_cancel, if_pos (show low x k < n by omega)]
    obtain heq | heq := low_succ x k
    · rw [if_pos (by omega)]
      exact .inl heq
    · by_cases h0 : low x k = 0
      · rw [if_pos (by omega)]
        exact .inr (by omega)
      · rw [if_neg (by omega)]
        exact .inl rfl
  · -- the mask stays as it is
    obtain rfl : k' = k := by
      have hlt2 : k' - 1 < k := (Nat.pow_lt_pow_iff_right (by decide)).mp (lt_of_le_of_lt hge' (by omega : n < 2 ^ k))
      have hle : 2 ^ (k - 1) < 2 ^ k' := by
        obtain rfl | hge := hge
        · omega
        · omega
      have hlt3 : k - 1 < k' := (Nat.pow_lt_pow_iff_right (by decide)).mp hle
      omega
    by_cases h : low x k' < n
    · rw [if_pos h, if_pos (by omega)]
      exact .inl rfl
    · rw [if_neg h]
      by_cases heq : low x k' = n
      · rw [if_pos (by omega)]
        exact .inr heq
      · rw [if_neg (by omega)]
        exact .inl rfl

end groups

theorem calcPgMasks_eq {m m' : OSDMap} (h : m.calcPgMasks = some m') :
    countMask m.pgNum = some m'.pgNumMask ∧ countMask m.localizedPgNum = some m'.localizedPgNumMask := by
  obtain ⟨mask, hmask, h⟩ := Option.bind_eq_some_iff.mp h
  obtain ⟨localized, hlocalized, rfl⟩ := Option.map_eq_some_iff.mp h
  exact ⟨hmask, hlocalized⟩

/-- **Placement groups grow stably.** For each number of groups `calc_pg_masks` has a
mask, with which any number falls into one of the groups; and with one group more it
stays there or falls into the new one. -/
theorem stable_growth (b : Int32) (hb : 0 < b) : ∃ bmask, countMask b = some bmask ∧
    (∀ m m' : OSDMap, m.calcPgMasks = some m' →
      (m.pgNum = b → m'.pgNumMask = bmask) ∧ (m.localizedPgNum = b → m'.localizedPgNumMask = bmask)) ∧
    (∀ x, 0 ≤ cephStableMod x b bmask ∧ cephStableMod x b bmask < b) ∧
    (b < Int32.maxValue → ∃ bmask', countMask (b + 1) = some bmask' ∧
      ∀ x, cephStableMod x (b + 1) bmask' = cephStableMod x b bmask ∨ cephStableMod x (b + 1) bmask' = b) := by
  obtain ⟨n, hn⟩ : ∃ n : ℕ, b.toInt = n := Int.eq_ofNat_of_zero_le (Int.le_of_lt (Int32.lt_iff_toInt_lt.mp hb))
  have hpos : 0 < n := by
    have hlt := Int32.lt_iff_toInt_lt.mp hb
    rw [hn] at hlt
    exact Int.ofNat_lt.mp hlt
  obtain ⟨k, hk, hneeds, hmask⟩ := countMask_spec hn hpos
  refine ⟨mask k, hmask, fun m m' hm => ?_, fun x => ?_, fun hmax => ?_⟩
  · obtain ⟨hpg, hlocalized⟩ := calcPgMasks_eq hm
    refine ⟨fun heq => ?_, fun heq => ?_⟩
    · rw [heq, hmask] at hpg
      exact (Option.some.inj hpg).symm
    · rw [heq, hmask] at hlocalized
      exact (Option.some.inj hlocalized).symm
  · have heq := cephStableMod_eq x hn hk
    refine ⟨Int32.le_iff_toInt_le.mpr ?_, Int32.lt_iff_toInt_lt.mpr ?_⟩
    · rw [heq]
      exact Int.natCast_nonneg _
    · rw [heq, hn]
      exact Int.ofNat_lt.mpr (group_lt x hpos hneeds)
  · have hsucc : (b + 1).toInt = ((n + 1 : ℕ) : ℤ) := by
      have hlt := Int32.lt_iff_toInt_lt.mp hmax
      rw [hn] at hlt
      change (n : ℤ) < 2147483647 at hlt
      rw [Int32.toInt_add, hn, Int.bmod_eq_of_le]
      · rfl
      · change _ ≤ (n : ℤ) + 1
        omega
      · change (n : ℤ) + 1 < _
        omega
    obtain ⟨k', hk', hneeds', hmask'⟩ := countMask_spec hsucc (Nat.succ_pos n)
    refine ⟨mask k', hmask', fun x => ?_⟩
    have hold := cephStableMod_eq x hn hk
    have hnew := cephStableMod_eq x hsucc hk'
    obtain heq | heq := group_grows x hpos hneeds hneeds'
    · exact .inl (Int32.toInt.inj (by rw [hnew, hold, heq]))
    · exact .inr (Int32.toInt.inj (by rw [hnew, heq, hn]))

/-- Eight groups and a ninth: the mask gets a bit. -/
theorem stable_growth_eight : ∃ bmask, countMask 8 = some bmask ∧
    (∀ m m' : OSDMap, m.calcPgMasks = some m' →
      (m.pgNum = 8 → m'.pgNumMask = bmask) ∧ (m.localizedPgNum = 8 → m'.localizedPgNumMask = bmask)) ∧
    (∀ x, 0 ≤ cephStableMod x 8 bmask ∧ cephStableMod x 8 bmask < 8) ∧
    ((8 : Int32) < Int32.maxValue → ∃ bmask', countMask (8 + 1) = some bmask' ∧
      ∀ x, cephStableMod x (8 + 1) bmask' = cephStableMod x 8 bmask ∨ cephStableMod x (8 + 1) bmask' = 8) :=
  stable_growth 8 (by decide)

end Pgs
end Osd
end Ceph
