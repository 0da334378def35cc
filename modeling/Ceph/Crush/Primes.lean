/-
# The primes of a uniform bucket

The search for primes comes to an end: there is a prime between a number and its
double, so each prime found is less than twice the one before. A number that the
inner loop lets pass is a prime, and the primes of a bucket are larger than its
size.
-/
import Ceph.Crush.Builder

namespace Ceph
namespace Crush

open List

theorem noDivisor_iff {x : ℕ} (hx : 2 ≤ x) : noDivisor x = true ↔ x.Prime := by
  unfold noDivisor
  simp only [List.all_eq_true, mem_range, Bool.or_eq_true, decide_eq_true_eq]
  constructor
  · intro hall
    by_contra hprime
    have hsq := Nat.minFac_sq_le_self (Nat.zero_lt_of_lt hx) hprime
    have htwo := (Nat.minFac_prime (ne_of_gt hx)).two_le
    have hlt : x.minFac < x := lt_of_le_of_ne (Nat.minFac_le (Nat.zero_lt_of_lt hx)) fun heq =>
      hprime (heq ▸ Nat.minFac_prime (ne_of_gt hx))
    have hdvd : x % x.minFac = 0 := Nat.mod_eq_zero_of_dvd (Nat.minFac_dvd x)
    rcases hall x.minFac hlt with (h2 | hbig) | hne
    · omega
    · rw [sq] at hsq
      omega
    · exact hne hdvd
  · intro hprime j hj
    by_cases hj2 : j < 2
    · exact .inl (.inl hj2)
    · refine .inr fun hmod => ?_
      rcases (Nat.dvd_prime hprime).mp (Nat.dvd_of_mod_eq_zero hmod) with h1 | hself
      · omega
      · omega

/-- The search goes on to a prime `p` at the latest, and from there for the others. -/
theorem primesFrom_gap {n p : ℕ} (hp : p.Prime)
    (hrest : ∀ fuel x, 3 ≤ x → x % 2 = 1 → x * 4 ^ n ≤ fuel → ∃ primes, primesFrom fuel n x = some primes) :
    ∀ gap fuel x : ℕ, 3 ≤ x → x % 2 = 1 → x + 2 * gap = p → gap + 1 + (p + 2) * 4 ^ n ≤ fuel →
      ∃ primes, primesFrom fuel (n + 1) x = some primes
  | gap, 0, _, _, _, _, hfuel => by omega
  | gap, fuel + 1, x, hx, hodd, hgap, hfuel => by
    rw [primesFrom]
    by_cases hpass : noDivisor x
    · have hle : (x + 2) * 4 ^ n ≤ (p + 2) * 4 ^ n := Nat.mul_le_mul_right _ (by omega)
      obtain ⟨primes, hprimes⟩ := hrest fuel (x + 2) (by omega) (by omega) (by omega)
      rw [if_pos hpass, hprimes]
      exact ⟨x :: primes, rfl⟩
    · rw [if_neg hpass]
      cases gap with
      | zero =>
        rw [Nat.mul_zero, add_zero] at hgap
        exact absurd ((noDivisor_iff (by omega)).mpr (hgap ▸ hp)) hpass
      | succ gap => exact primesFrom_gap hp hrest gap fuel (x + 2) (by omega) (by omega) (by omega) (by omega)

/-- **The search from an odd number finds all the primes it is to.** -/
theorem primesFrom_some : ∀ n fuel x : ℕ, 3 ≤ x → x % 2 = 1 → x * 4 ^ n ≤ fuel → ∃ primes, primesFrom fuel n x = some primes
  | 0, _, _, _, _, _ => ⟨[], by rw [primesFrom]⟩
  | n + 1, fuel, x, hx, hodd, hfuel => by
    obtain ⟨p, hp, hlt, hle⟩ := Nat.exists_prime_lt_and_le_two_mul x (by omega)
    have hpodd : p % 2 = 1 := by
      rcases hp.eq_two_or_odd with h2 | h1
      · omega
      · exact h1
    have hpow : 1 ≤ 4 ^ n := Nat.one_le_pow _ _ (by omega)
    refine primesFrom_gap hp (primesFrom_some n) ((p - x) / 2) fuel x hx hodd (by omega) (le_trans ?_ hfuel)
    have hmul : (p + 2) * 4 ^ n ≤ (2 * x + 2) * 4 ^ n := Nat.mul_le_mul_right _ (by omega)
    have hmain : x + 1 + (2 * x + 2) * 4 ^ n ≤ x * 4 ^ (n + 1) := by
      have hslack : x + 1 ≤ (2 * x - 2) * 4 ^ n := le_trans (by omega) (Nat.le_mul_of_pos_right _ hpow)
      have hsplit : x * 4 ^ (n + 1) = (2 * x - 2) * 4 ^ n + (2 * x + 2) * 4 ^ n := by
        rw [← add_mul, show 2 * x - 2 + (2 * x + 2) = 4 * x by omega, pow_succ]
        ring
      omega
    omega

theorem primesFrom_prime : ∀ (fuel n x : ℕ) (primes : List ℕ), 2 ≤ x → primesFrom fuel n x = some primes →
    ∀ p ∈ primes, p.Prime ∧ x ≤ p ∧ p ≤ x + 2 * fuel
  | _, 0, _, _, _, hp => by
    rw [primesFrom] at hp
    cases hp
    exact nofun
  | 0, _ + 1, _, _, _, hp => nomatch hp
  | fuel + 1, n + 1, x, primes, hx, hp => by
    rw [primesFrom] at hp
    split_ifs at hp with hpass
    · obtain ⟨rest, hrest, rfl⟩ := Option.map_eq_some_iff.mp hp
      refine forall_mem_cons.mpr ⟨⟨(noDivisor_iff hx).mp hpass, by omega, by omega⟩, fun q hq => ?_⟩
      obtain ⟨hprime, hlow, hhigh⟩ := primesFrom_prime fuel n (x + 2) rest (by omega) hrest q hq
      exact ⟨hprime, by omega, by omega⟩
    · intro q hq
      obtain ⟨hprime, hlow, hhigh⟩ := primesFrom_prime fuel (n + 1) (x + 2) primes (by omega) hp q hq
      exact ⟨hprime, by omega, by omega⟩

theorem length_primesFrom : ∀ (k n x : ℕ) (primes : List ℕ), primesFrom k n x = some primes → primes.length = n
  | _, 0, _, _, hp => by
    rw [primesFrom] at hp
    cases hp
    rfl
  | 0, _ + 1, _, _, hp => nomatch hp
  | k + 1, n + 1, x, primes, hp => by
    rw [primesFrom] at hp
    split_ifs at hp
    · obtain ⟨rest, hrest, rfl⟩ := Option.map_eq_some_iff.mp hp
      rw [length_cons, length_primesFrom k n _ rest hrest]
    · exact length_primesFrom k (n + 1) _ primes hp

/-- `x |= 1`. -/
theorem or_one (n : ℕ) : (n ||| 1) % 2 = 1 ∧ n ≤ n ||| 1 ∧ n ||| 1 ≤ n + 1 := by
  have hdiv : (n ||| 1) / 2 = n / 2 := by
    rw [Nat.or_div_two]
    simp
  have hmod : (n ||| 1) % 2 = 1 := by
    simp
  omega

/-- **A uniform bucket is made of any items**, one at least. -/
theorem makeUniformBucket_some (h : Hashes) (type : ℕ) {items : List ℤ} (itemWeight : ℕ) (hne : items ≠ []) :
    ∃ primes : List ℕ, makeUniformBucket h type items itemWeight = some ⟨0, type % 2 ^ 16, u32 (items.length * itemWeight),
      items.length, items, .uniform (primes.map u32) (u32 itemWeight)⟩ ∧ primes.length = items.length ∧
      ∀ p ∈ primes, p.Prime ∧ items.length < p ∧ p ≤ (4 * items.length + 1) * (1 + 2 * 4 ^ items.length) := by
  have hlen : items.length ≠ 0 := mt length_eq_zero_iff.mp hne
  obtain ⟨y, hy⟩ : ∃ y, y = items.length + 1 + (h.hash32 (UInt32.ofNat items.length)).toNat % (3 * items.length) := ⟨_, rfl⟩
  have hmod : (h.hash32 (UInt32.ofNat items.length)).toNat % (3 * items.length) < 3 * items.length :=
    Nat.mod_lt _ (by omega)
  obtain ⟨hodd, hlow, hhigh⟩ := or_one y
  obtain ⟨primes, hprimes⟩ := primesFrom_some items.length ((y ||| 1) * 4 ^ items.length) (y ||| 1) (by omega) hodd le_rfl
  refine ⟨primes, ?_, length_primesFrom _ _ _ _ hprimes, fun p hp => ?_⟩
  · unfold makeUniformBucket
    simp only [if_neg hlen, ← hy, hprimes, Option.map_some]
  · obtain ⟨hprime, hge, hle⟩ := primesFrom_prime _ _ _ _ (by omega) hprimes p hp
    refine ⟨hprime, by omega, hle.trans ?_⟩
    have hx : y ||| 1 ≤ 4 * items.length + 1 := by omega
    calc (y ||| 1) + 2 * ((y ||| 1) * 4 ^ items.length) = (y ||| 1) * (1 + 2 * 4 ^ items.length) := by ring
      _ ≤ (4 * items.length + 1) * (1 + 2 * 4 ^ items.length) := Nat.mul_le_mul_right _ hx

end Crush
end Ceph
