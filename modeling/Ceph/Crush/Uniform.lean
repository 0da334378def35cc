/-
# Uniform buckets permute

`crush_make_uniform_bucket` looks for its primes with `int`s, and the square of
a divisor tried is one of them: the search passes no prime from `46340 * 46340`
on, for the next square is too large. `crushMakeUniformBucket` is the builder
with these numbers checked; where it comes to an end it makes the bucket that
`makeUniformBucket` makes.

A prime above the size of the bucket has no divisor in common with it. So the
trials `r` take each place of the bucket once, from wherever they start, as
long as the sum that is divided stays within 32 bits.
-/
import Ceph.Crush.Mapper
import Ceph.Crush.Primes

namespace Ceph
namespace Crush

open List Option

/-! ### The builder, in `int`s -/

/-- `INT_MAX`. -/
def intMax : ℕ := 2 ^ 31 - 1

/-- A number as an `int`; beyond `INT_MAX` the source says nothing. -/
def int (n : ℕ) : Option ℕ := if n ≤ intMax then some n else none

/-- The inner loop of the search for primes, from `j` on: the `j` it leaves off at. -/
def stopAt (x : ℕ) : ℕ → ℕ → Option ℕ
  | 0, _ => none
  | k + 1, j =>
    (int (j * j)).bind fun square => if square ≤ x then if x % j = 0 then some j else stopAt x k (j + 1) else some j

/-- The search for `n` primes from `x` on. -/
def searchFrom : ℕ → ℕ → ℕ → Option (List ℕ)
  | _, 0, _ => some []
  | 0, _ + 1, _ => none
  | k + 1, n + 1, x =>
    (stopAt x x 2).bind fun j => (int (x + 2)).bind fun next =>
      if x < j * j then (searchFrom k n next).map (x :: ·) else searchFrom k (n + 1) next

/-- `crush_make_uniform_bucket`. -/
def crushMakeUniformBucket (h : Hashes) (type : ℕ) (items : List ℤ) (itemWeight : ℕ) : Option Bucket :=
  let size := items.length
  if size = 0 then none
  else
    (int (size + 1)).bind fun x => (int (3 * size)).bind fun triple =>
      (int (x + (h.hash32 (UInt32.ofNat size)).toNat % triple)).bind fun x =>
        (searchFrom intMax size (x ||| 1)).map fun primes =>
          { id := 0, type := type % 2 ^ 16, weight := u32 (size * itemWeight), size, items
            alg := .uniform (primes.map u32) (u32 itemWeight) }

/-- Where the search starts. -/
def searchStart (h : Hashes) (size : ℕ) : ℕ := (size + 1 + (h.hash32 (UInt32.ofNat size)).toNat % (3 * size)) ||| 1

/-- The square that no divisor tried has: the next one is beyond `INT_MAX`. -/
def squareEnd : ℕ := 46340 * 46340

/-- The primes of the numbers from `x` to the end of the squares. -/
def primesIn (x : ℕ) : Finset ℕ := (Finset.Ico x squareEnd).filter Nat.Prime

/-- There are primes enough for a bucket of so many items. -/
def Roomy (h : Hashes) (size : ℕ) : Prop := size ≤ (primesIn (searchStart h size)).card

/-! ### The inner loop -/

section loop

variable {x : ℕ}

theorem int_eq_some {n m : ℕ} : int n = some m ↔ n ≤ intMax ∧ n = m := by
  rw [int, ite_none_right_eq_some, some.injEq]

theorem int_of_le {n : ℕ} (h : n ≤ intMax) : int n = some n := int_eq_some.mpr ⟨h, rfl⟩

theorem stopAt_spec : ∀ {k j i : ℕ}, stopAt x k j = some i →
    i * i ≤ intMax ∧ j ≤ i ∧ (∀ d, j ≤ d → d < i → x % d ≠ 0) ∧ (x < i * i ∨ i * i ≤ x ∧ x % i = 0)
  | 0, _, _, h => nomatch h
  | k + 1, j, i, h => by
    rw [stopAt] at h
    obtain ⟨square, hint, h⟩ := bind_eq_some_iff.mp h
    obtain ⟨hle, rfl⟩ := int_eq_some.mp hint
    split_ifs at h with hsq hdvd
    · cases h
      exact ⟨hle, le_rfl, fun d hd hlt => absurd hd (by omega), .inr ⟨hsq, hdvd⟩⟩
    · obtain ⟨hi, hji, hpassed, hend⟩ := stopAt_spec h
      refine ⟨hi, by omega, fun d hd hlt => ?_, hend⟩
      rcases eq_or_lt_of_le hd with rfl | hd
      · exact hdvd
      · exact hpassed d hd hlt
    · cases h
      exact ⟨hle, le_rfl, fun d hd hlt => absurd hd (by omega), .inl (by omega)⟩

theorem stopAt_prime {k i : ℕ} (hx : 2 ≤ x) (h : stopAt x k 2 = some i) : x < i * i ↔ x.Prime := by
  obtain ⟨-, hi, hpassed, hend⟩ := stopAt_spec h
  rw [← noDivisor_iff hx, noDivisor]
  simp only [List.all_eq_true, mem_range, Bool.or_eq_true, decide_eq_true_eq]
  constructor
  · intro hlt j hj
    by_cases hji : j < i
    · by_cases hj2 : j < 2
      · exact .inl (.inl hj2)
      · exact .inr (hpassed j (by omega) hji)
    · exact .inl (.inr (lt_of_lt_of_le hlt (Nat.mul_self_le_mul_self (by omega))))
  · intro hall
    refine hend.resolve_right fun ⟨hle, hdvd⟩ => ?_
    have hlt : i < x := by nlinarith
    rcases hall i hlt with (h2 | hbig) | hne
    · omega
    · omega
    · exact hne hdvd

theorem stopAt_some (hx : x < squareEnd) : ∀ {k j : ℕ}, 2 ≤ j → j ≤ x → j ≤ 46340 → x < k + j →
    ∃ i, stopAt x k j = some i
  | 0, j, _, hjx, _, hk => by omega
  | k + 1, j, hj, hjx, hroot, hk => by
    have hsq : j * j ≤ 46340 * 46340 := Nat.mul_self_le_mul_self hroot
    rw [stopAt, int_of_le (le_trans hsq (by decide)), bind_some]
    split_ifs with hle hdvd
    · exact ⟨j, rfl⟩
    · have hlt : j < 46340 := by
        by_contra hge
        have := Nat.mul_self_le_mul_self (Nat.le_of_not_lt hge)
        unfold squareEnd at hx
        omega
      have hmul : j * 2 ≤ j * j := Nat.mul_le_mul_left j hj
      exact stopAt_some hx (by omega) (by omega) hlt (by omega)
    · exact ⟨j, rfl⟩

end loop

/-! ### The search -/

/-- From an odd number on, the primes after it are those from the next odd number on. -/
theorem primesIn_next {x : ℕ} (hx : 3 ≤ x) (hodd : x % 2 = 1) :
    primesIn x = if x < squareEnd ∧ x.Prime then insert x (primesIn (x + 2)) else primesIn (x + 2) := by
  ext p
  have hskip : p.Prime → p ≠ x + 1 := fun hp heq => by
    rcases hp.eq_two_or_odd with h2 | h1
    · omega
    · omega
  split_ifs with hcase
  · rw [Finset.mem_insert]
    simp only [primesIn, Finset.mem_filter, Finset.mem_Ico]
    constructor
    · rintro ⟨⟨hle, hlt⟩, hp⟩
      have := hskip hp
      by_cases heq : p = x
      · exact .inl heq
      · exact .inr ⟨⟨by omega, hlt⟩, hp⟩
    · rintro (rfl | ⟨⟨hle, hlt⟩, hp⟩)
      · exact ⟨⟨le_rfl, hcase.1⟩, hcase.2⟩
      · exact ⟨⟨by omega, hlt⟩, hp⟩
  · simp only [primesIn, Finset.mem_filter, Finset.mem_Ico]
    constructor
    · rintro ⟨⟨hle, hlt⟩, hp⟩
      have := hskip hp
      have hne : p ≠ x := fun heq => hcase ⟨heq ▸ hlt, heq ▸ hp⟩
      exact ⟨⟨by omega, hlt⟩, hp⟩
    · rintro ⟨⟨hle, hlt⟩, hp⟩
      exact ⟨⟨by omega, hlt⟩, hp⟩

theorem not_mem_primesIn {x : ℕ} : x ∉ primesIn (x + 2) := fun hmem => by
  have := (Finset.mem_Ico.mp (Finset.mem_filter.mp hmem).1).1
  omega

theorem searchFrom_step {k n x j : ℕ} (hx : 2 ≤ x) (hstop : stopAt x x 2 = some j) (hnext : x + 2 ≤ intMax) :
    searchFrom (k + 1) (n + 1) x =
      if x.Prime then (searchFrom k n (x + 2)).map (x :: ·) else searchFrom k (n + 1) (x + 2) := by
  rw [searchFrom, hstop, bind_some, int_of_le hnext, bind_some]
  exact if_congr (stopAt_prime hx hstop) rfl rfl

/-- A round that does not end the search has its numbers in bounds; the prime it
passes has a root below the last square's. -/
theorem searchFrom_inv {k n x : ℕ} {primes : List ℕ} (hx : 2 ≤ x) (h : searchFrom (k + 1) (n + 1) x = some primes) :
    (∃ j, stopAt x x 2 = some j) ∧ x + 2 ≤ intMax ∧ (x.Prime → x < squareEnd) := by
  obtain ⟨j, hstop, h⟩ := bind_eq_some_iff.mp h
  obtain ⟨next, hnext, -⟩ := bind_eq_some_iff.mp h
  refine ⟨⟨j, hstop⟩, (int_eq_some.mp hnext).1, fun hp => ?_⟩
  have hlt := (stopAt_prime hx hstop).mpr hp
  have hroot : j ≤ 46340 := by
    by_contra hgt
    have hsq := Nat.mul_self_le_mul_self (show 46341 ≤ j by omega)
    have hmax := (stopAt_spec hstop).1
    have : intMax < 46341 * 46341 := by decide
    omega
  exact lt_of_lt_of_le hlt (Nat.mul_self_le_mul_self hroot)

theorem searchFrom_card : ∀ {k n x : ℕ} {primes : List ℕ}, 3 ≤ x → x % 2 = 1 → searchFrom k n x = some primes →
    n ≤ (primesIn x).card ∧ (∀ p ∈ primes, p < squareEnd) ∧ primesFrom k n x = some primes
  | k, 0, x, primes, _, _, h => by
    have h : some [] = some primes := by
      cases k <;> exact h
    cases h
    refine ⟨Nat.zero_le _, nofun, ?_⟩
    cases k <;> rfl
  | 0, n + 1, _, _, _, _, h => nomatch h
  | k + 1, n + 1, x, primes, hx, hodd, h => by
    obtain ⟨⟨j, hstop⟩, hnext, hlt⟩ := searchFrom_inv (by omega) h
    rw [searchFrom_step (by omega) hstop hnext] at h
    rw [primesIn_next hx hodd, primesFrom]
    by_cases hp : x.Prime
    · rw [if_pos hp] at h
      obtain ⟨rest, hrest, rfl⟩ := map_eq_some_iff.mp h
      obtain ⟨hcard, hbelow, heq⟩ := searchFrom_card (by omega) (by omega) hrest
      rw [if_pos ⟨hlt hp, hp⟩, Finset.card_insert_of_notMem not_mem_primesIn,
        if_pos ((noDivisor_iff (by omega)).mpr hp), heq]
      exact ⟨by omega, forall_mem_cons.mpr ⟨hlt hp, hbelow⟩, rfl⟩
    · rw [if_neg hp] at h
      rw [if_neg fun hcase => hp hcase.2, if_neg (mt (noDivisor_iff (by omega)).mp hp)]
      exact searchFrom_card (by omega) (by omega) h

theorem searchFrom_some : ∀ {k n x : ℕ}, 3 ≤ x → x % 2 = 1 → n ≤ (primesIn x).card → squareEnd ≤ x + 2 * k →
    ∃ primes, searchFrom k n x = some primes
  | k, 0, _, _, _, _, _ => ⟨[], by cases k <;> rfl⟩
  | 0, n + 1, x, _, _, hcard, hk => by
    have hnone : primesIn x = ∅ := by
      rw [primesIn, Finset.Ico_eq_empty (by omega), Finset.filter_empty]
    rw [hnone, Finset.card_empty] at hcard
    omega
  | k + 1, n + 1, x, hx, hodd, hcard, hk => by
    have hlt : x < squareEnd := by
      by_contra hge
      rw [primesIn, Finset.Ico_eq_empty (by omega), Finset.filter_empty, Finset.card_empty] at hcard
      omega
    obtain ⟨j, hstop⟩ := stopAt_some hlt (k := x) (j := 2) le_rfl (by omega) (by decide) (by omega)
    have hmax : squareEnd + 2 ≤ intMax := by decide
    rw [searchFrom_step (by omega) hstop (by omega)]
    rw [primesIn_next hx hodd] at hcard
    by_cases hp : x.Prime
    · rw [if_pos ⟨hlt, hp⟩, Finset.card_insert_of_notMem not_mem_primesIn] at hcard
      obtain ⟨primes, hprimes⟩ := searchFrom_some (k := k) (n := n) (x := x + 2) (by omega) (by omega) (by omega) (by omega)
      exact ⟨x :: primes, by rw [if_pos hp, hprimes, map_some]⟩
    · rw [if_neg fun hcase => hp hcase.2] at hcard
      rw [if_neg hp]
      exact searchFrom_some (by omega) (by omega) hcard (by omega)

/-! ### The builder -/

theorem card_primesIn {x : ℕ} (hx : 3 ≤ x) : (primesIn x).card ≤ squareEnd / 2 - x / 2 := by
  have hodd : ∀ p ∈ primesIn x, p % 2 = 1 ∧ x ≤ p ∧ p < squareEnd := fun p hp => by
    obtain ⟨hmem, hprime⟩ := Finset.mem_filter.mp hp
    obtain ⟨hle, hlt⟩ := Finset.mem_Ico.mp hmem
    exact ⟨hprime.eq_two_or_odd.resolve_left (by omega), hle, hlt⟩
  rw [← Nat.card_Ico]
  refine Finset.card_le_card_of_injOn (· / 2) (fun p hp => ?_) fun p hp q hq heq => ?_
  · obtain ⟨hp, hle, hlt⟩ := hodd p hp
    have hhalf : p / 2 < squareEnd / 2 := by omega
    exact Finset.mem_coe.mpr (Finset.mem_Ico.mpr ⟨Nat.div_le_div_right hle, hhalf⟩)
  · have hp := (hodd p hp).1
    have hq := (hodd q hq).1
    have heq : p / 2 = q / 2 := heq
    omega

theorem searchStart_spec (h : Hashes) (size : ℕ) : searchStart h size % 2 = 1 ∧
    size + 1 + (h.hash32 (UInt32.ofNat size)).toNat % (3 * size) ≤ searchStart h size :=
  have hor := or_one (size + 1 + (h.hash32 (UInt32.ofNat size)).toNat % (3 * size))
  ⟨hor.1, hor.2.1⟩

/-- A bucket there is room for has its numbers within `int`s. -/
theorem Roomy.le {h : Hashes} {size : ℕ} (hroom : Roomy h size) (hpos : 0 < size) :
    3 * size ≤ intMax ∧ size + 1 ≤ intMax ∧
      size + 1 + (h.hash32 (UInt32.ofNat size)).toNat % (3 * size) ≤ intMax := by
  obtain ⟨hodd, hle⟩ := searchStart_spec h size
  have hcard := card_primesIn (x := searchStart h size) (by omega)
  have hend : squareEnd = 2147395600 := by decide
  have hmax : intMax = 2147483647 := by decide
  unfold Roomy at hroom
  omega

section builder

variable {h : Hashes} {type : ℕ} {items : List ℤ} {itemWeight : ℕ} {b : Bucket}

theorem made_iff (hne : items ≠ []) : crushMakeUniformBucket h type items itemWeight = some b ↔
    (3 * items.length ≤ intMax ∧ items.length + 1 ≤ intMax ∧
      items.length + 1 + (h.hash32 (UInt32.ofNat items.length)).toNat % (3 * items.length) ≤ intMax) ∧
    ∃ primes, searchFrom intMax items.length (searchStart h items.length) = some primes ∧
      ⟨0, type % 2 ^ 16, u32 (items.length * itemWeight), items.length, items,
        .uniform (primes.map u32) (u32 itemWeight)⟩ = b := by
  have hlen : items.length ≠ 0 := mt length_eq_zero_iff.mp hne
  unfold crushMakeUniformBucket
  simp only [if_neg hlen, bind_eq_some_iff, int_eq_some, map_eq_some_iff]
  constructor
  · rintro ⟨_, ⟨hsize, rfl⟩, _, ⟨htriple, rfl⟩, _, ⟨hsum, rfl⟩, primes, hprimes, hb⟩
    exact ⟨⟨htriple, hsize, hsum⟩, primes, hprimes, hb⟩
  · rintro ⟨⟨htriple, hsize, hsum⟩, primes, hprimes, hb⟩
    exact ⟨_, ⟨hsize, rfl⟩, _, ⟨htriple, rfl⟩, _, ⟨hsum, rfl⟩, primes, hprimes, hb⟩

theorem made_roomy (hne : items ≠ []) : (crushMakeUniformBucket h type items itemWeight).isSome ↔
    Roomy h items.length := by
  have hpos : 0 < items.length := length_pos_iff.mpr hne
  obtain ⟨hodd, hstart⟩ := searchStart_spec h items.length
  constructor
  · intro hsome
    obtain ⟨b, hb⟩ := isSome_iff_exists.mp hsome
    obtain ⟨-, primes, hprimes, -⟩ := (made_iff hne).mp hb
    exact (searchFrom_card (by omega) hodd hprimes).1
  · intro hroom
    have hend : squareEnd ≤ 2 * intMax := by decide
    obtain ⟨primes, hprimes⟩ := searchFrom_some (k := intMax) (by omega) hodd hroom (by omega)
    exact isSome_iff_exists.mpr ⟨_, (made_iff hne).mpr ⟨hroom.le hpos, primes, hprimes, rfl⟩⟩

theorem made_spec (hne : items ≠ []) (hb : crushMakeUniformBucket h type items itemWeight = some b) :
    ∃ primes, b = ⟨0, type % 2 ^ 16, u32 (items.length * itemWeight), items.length, items,
        .uniform primes (u32 itemWeight)⟩ ∧
      primes.length = items.length ∧ ∀ p ∈ primes, p.Prime ∧ items.length < p := by
  obtain ⟨hodd, hstart⟩ := searchStart_spec h items.length
  obtain ⟨-, primes, hprimes, rfl⟩ := (made_iff hne).mp hb
  have hpos : 0 < items.length := length_pos_iff.mpr hne
  obtain ⟨-, hbelow, hfrom⟩ := searchFrom_card (by omega) hodd hprimes
  have hsmall : primes.map u32 = primes := by
    refine (map_congr_left fun p hp => ?_).trans (List.map_id _)
    have hend : squareEnd ≤ 2 ^ 32 := by decide
    exact Nat.mod_eq_of_lt (lt_of_lt_of_le (hbelow p hp) hend)
  refine ⟨primes, by rw [hsmall], length_primesFrom _ _ _ _ hfrom, fun p hp => ?_⟩
  obtain ⟨hprime, hge, -⟩ := primesFrom_prime _ _ _ _ (by omega) hfrom p hp
  exact ⟨hprime, by omega⟩

end builder

/-! ### Trials -/

/-- Steps coprime to `n` reach each residue once. -/
theorem steps_injective {n p : ℕ} (hp : p.Coprime n) (c : ℕ) {a b : ℕ} (ha : a < n) (hb : b < n)
    (heq : (c + (a + 1) * p) % n = (c + (b + 1) * p) % n) : a = b := by
  have hmul : (a + 1) * p ≡ (b + 1) * p [MOD n] := Nat.ModEq.add_left_cancel' c heq
  have hsucc : a + 1 ≡ b + 1 [MOD n] := Nat.ModEq.cancel_right_of_coprime (Nat.Coprime.symm hp) hmul
  exact Nat.ModEq.eq_of_lt_of_lt (Nat.ModEq.add_right_cancel' 1 hsucc) ha hb

theorem uniform_sum {x : ℤ} {o p r n : ℕ} (hr : r < n) (hbound : (UInt32.ofInt x).toNat + o + n * p ≤ 2 ^ 32 - 1) :
    (UInt32.ofInt (x + o + ((r : ℤ) + 1) * p)).toNat = (UInt32.ofInt x).toNat + o + (r + 1) * p := by
  have hof : ∀ y : ℤ, (UInt32.ofInt y).toNat = (y % 2 ^ 32).toNat := fun y => by
    have hlt : (y % 2 ^ 32).toNat < 2 ^ 32 := by omega
    rw [UInt32.ofInt, UInt32.toNat_ofNat', Nat.mod_eq_of_lt hlt]
  have hmul : (r + 1) * p ≤ n * p := Nat.mul_le_mul_right p hr
  rw [hof] at hbound ⊢
  rw [hof]
  have hcast : ((r : ℤ) + 1) * p = (((r + 1) * p : ℕ) : ℤ) := by push_cast; ring
  omega

/-- **Uniform buckets permute.** The builder comes to an end where there is room for the
primes, and there only; and what it makes yields, for trials `0` to `n - 1`, each of
its items once, if no sum goes beyond 32 bits. -/
theorem uniform_permutes (h : Hashes) (type itemWeight : ℕ) (items : List ℤ) (hne : items ≠ []) :
    ((crushMakeUniformBucket h type items itemWeight).isSome ↔ Roomy h items.length) ∧
    ∀ b, crushMakeUniformBucket h type items itemWeight = some b → ∃ primes,
      b.alg = .uniform primes (u32 itemWeight) ∧ b.items = items ∧ b.size = items.length ∧
      primes.length = items.length ∧ (∀ p ∈ primes, p.Prime ∧ items.length < p) ∧
      ∀ id x : ℤ, ∀ p,
        primes[(h.hash32_2 (UInt32.ofInt id) (UInt32.ofInt x)).toNat % items.length]? = some p →
        (UInt32.ofInt x).toNat + low16 (h.hash32_2 (UInt32.ofInt x) (UInt32.ofInt id)) + items.length * p ≤ 2 ^ 32 - 1 →
        ∃ σ : Equiv.Perm (Fin items.length), ∀ r : Fin items.length,
          bucketChoose h { b with id } x (r : ℕ) = some (items.get (σ r)) := by
  refine ⟨made_roomy hne, fun b hb => ?_⟩
  obtain ⟨primes, rfl, hlen, hprimes⟩ := made_spec hne hb
  refine ⟨primes, rfl, rfl, rfl, hlen, hprimes, fun id x p hp hbound => ?_⟩
  have hpos : 0 < items.length := length_pos_iff.mpr hne
  obtain ⟨hprime, hlt⟩ := hprimes p (mem_of_getElem? hp)
  have hcop : p.Coprime items.length := Nat.coprime_of_lt_prime (ne_of_gt hpos) hlt hprime
  let c := (UInt32.ofInt x).toNat + low16 (h.hash32_2 (UInt32.ofInt x) (UInt32.ofInt id))
  let place : Fin items.length → Fin items.length := fun r => ⟨(c + (r + 1) * p) % items.length, Nat.mod_lt _ hpos⟩
  have hinj : Function.Injective place := fun a b heq =>
    Fin.ext (steps_injective hcop c a.isLt b.isLt (congrArg Fin.val heq))
  refine ⟨Equiv.ofBijective place (Finite.injective_iff_bijective.mp hinj), fun r => ?_⟩
  simp only [bucketChoose, uniformChoose, if_neg (ne_of_gt hpos), hp, bind_some]
  rw [uniform_sum r.isLt hbound]
  exact getElem?_eq_getElem _

/-- Three items, whose bucket is made. -/
theorem uniform_permutes_three : ∃ b primes, crushMakeUniformBucket crushHashes 1 [5, 6, 7] 0x10000 = some b ∧
    b.alg = .uniform primes 0x10000 ∧ primes.length = 3 ∧ (∀ p ∈ primes, p.Prime ∧ 3 < p) ∧ Roomy crushHashes 3 := by
  have hmain := uniform_permutes crushHashes 1 0x10000 [5, 6, 7] (by decide)
  have hsome : (crushMakeUniformBucket crushHashes 1 [5, 6, 7] 0x10000).isSome = true := by decide +kernel
  obtain ⟨b, hb⟩ := isSome_iff_exists.mp hsome
  obtain ⟨primes, halg, -, -, hlen, hprimes, -⟩ := hmain.2 b hb
  exact ⟨b, primes, hb, halg, hlen, hprimes, hmain.1.mp hsome⟩

/-- For the largest size an `int` is, the number to start from is none. -/
theorem uniform_too_large : ¬ ∀ (h : Hashes) (type itemWeight : ℕ) (items : List ℤ), items ≠ [] →
    (crushMakeUniformBucket h type items itemWeight).isSome = true := by
  intro hall
  have hlen : (List.replicate intMax (0 : ℤ)).length = intMax := length_replicate
  have hne : List.replicate intMax (0 : ℤ) ≠ [] := fun heq => by
    rw [heq] at hlen
    cases hlen
  have hsome := hall crushHashes 1 0x10000 _ hne
  rw [made_roomy hne, hlen] at hsome
  have hle := (hsome.le (by decide)).2.1
  omega

end Crush
end Ceph
