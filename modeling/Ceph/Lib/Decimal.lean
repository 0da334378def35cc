/-
# Numbers as decimal text

The text of a number is its decimal digits in ASCII; `value` reads the digits
at the head of a text.

Key definitions: `text`, `value`.
Key theorems: `value_text`, `length_text_le`.
-/
import Mathlib.Data.Nat.Digits.Lemmas
import Ceph.Lib.Wire

namespace Ceph
namespace Decimal

open List
open Wire (Bytes)

/-- The digit `d`. -/
def digit (d : ℕ) : UInt8 := UInt8.ofNat (48 + d)

/-- The digits of `n`, the highest first. -/
def text (n : ℕ) : Bytes := if n = 0 then [digit 0] else ((Nat.digits 10 n).map digit).reverse

def isDigit (b : UInt8) : Bool := 48 ≤ b.toNat ∧ b.toNat ≤ 57

/-- The number at the head of a text; 0 if there is none. -/
def value (bs : Bytes) : ℕ := (bs.takeWhile isDigit).foldl (fun n b => 10 * n + (b.toNat - 48)) 0

theorem toNat_digit {d : ℕ} (h : d < 10) : (digit d).toNat = 48 + d := by
  rw [digit, UInt8.toNat_ofNat']
  omega

theorem isDigit_digit {d : ℕ} (h : d < 10) : isDigit (digit d) = true := by
  simp only [isDigit, toNat_digit h, decide_eq_true_eq]
  omega

theorem text_digits (n : ℕ) : text n ≠ [] ∧ ∀ b ∈ text n, ∃ d < 10, b = digit d := by
  unfold text
  split_ifs with h
  · exact ⟨by simp, fun b hb => ⟨0, by norm_num, by simpa using hb⟩⟩
  · refine ⟨by simpa [Nat.digits_eq_nil_iff_eq_zero] using h, fun b hb => ?_⟩
    obtain ⟨d, hd, rfl⟩ := List.mem_map.mp (mem_reverse.mp hb)
    exact ⟨d, Nat.digits_lt_base (by norm_num) hd, rfl⟩

theorem foldl_digits : ∀ ds : List ℕ, (∀ d ∈ ds, d < 10) →
    ((ds.map digit).reverse).foldl (fun n b => 10 * n + (b.toNat - 48)) 0 = Nat.ofDigits 10 ds
  | [], _ => rfl
  | d :: ds, h => by
    have ih := foldl_digits ds fun d' hd' => h d' (mem_cons_of_mem _ hd')
    rw [map_cons, reverse_cons, foldl_append, ih, Nat.ofDigits_cons]
    simp only [foldl_cons, foldl_nil, toNat_digit (h d mem_cons_self)]
    omega

/-- **A text is read back**, if no digit follows it. -/
theorem value_text (n : ℕ) {rest : Bytes} (h : ∀ b ∈ rest.head?, isDigit b = false) :
    value (text n ++ rest) = n := by
  have hall : ∀ b ∈ text n, isDigit b = true := fun b hb => by
    obtain ⟨d, hd, rfl⟩ := (text_digits n).2 b hb
    exact isDigit_digit hd
  have hrest : rest.takeWhile isDigit = [] := by
    cases rest with
    | nil => rfl
    | cons b bs => simp [h b (by simp)]
  rw [value, takeWhile_append_of_pos hall, hrest, append_nil]
  unfold text
  split_ifs with h0
  · rw [h0]
    rfl
  · rw [foldl_digits _ fun d hd => Nat.digits_lt_base (by norm_num) hd, Nat.ofDigits_digits]

theorem length_text_le {n k : ℕ} (hk : 0 < k) : (text n).length ≤ k ↔ n < 10 ^ k := by
  unfold text
  split_ifs with h
  · subst h
    simpa using Nat.succ_le_of_lt hk
  · simp only [length_reverse, length_map]
    exact Nat.digits_length_le_iff (by norm_num) n

end Decimal
end Ceph
