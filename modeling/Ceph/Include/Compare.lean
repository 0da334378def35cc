/-
# Comparing bufferlists

The operators of `include/buffer.h` go along both lists with a counter that each round of the loop counts up
twice, so that only the bytes at even positions are compared, and the ends of the lists are noticed at even positions
only. `>=` does not ask whether the left list alone has ended.

A byte is compared as a `char`, and `val` says what number that is. Where an operator fails an
assertion it gives `none`.
-/
import Ceph.Include.ByteString
import Mathlib.Data.List.Lex

namespace Ceph
namespace Buffer

open List Option
open Wire (Bytes)

variable {n : ℕ} (val : UInt8 → ℤ)

/-! ### The code -/

/-- A list as the operators read it: `length()` and `operator[]`. -/
structure Reads where
  length : ℕ
  at' : ℕ → Option UInt8

def State.reads (s : State n) (i : Fin n) : Reads := ⟨s.length i, getByte s i⟩

/-- The loops of `>` and `>=`, which differ in the second test of a round, `ends`. -/
def compareLoop (ends : ℕ → Option Bool) (l r : Reads) : ℕ → ℕ → Option Bool
  | 0, _ => none
  | fuel + 1, p =>
    if p < l.length ∧ r.length = p then some true
    else (ends p).or ((l.at' p).bind fun x => (r.at' p).bind fun y =>
      if val y < val x then some true
      else if val x < val y then some false
      else compareLoop ends l r fuel (p + 2))

/-- The loop of `operator>`. -/
def gtLoop (l r : Reads) : Option Bool :=
  compareLoop val (fun p => if l.length = p then some false else none) l r (l.length + 1) 0

/-- The loop of `operator>=`. -/
def geLoop (l r : Reads) : Option Bool :=
  compareLoop val (fun p => if r.length = p ∧ l.length = p then some true else none) l r (l.length + 1) 0

/-- `operator>` -/
def gt (s : State n) (i j : Fin n) : Option Bool := gtLoop val (s.reads i) (s.reads j)

/-- `operator>=` -/
def ge (s : State n) (i j : Fin n) : Option Bool := geLoop val (s.reads i) (s.reads j)

/-- `operator<` -/
def lt (s : State n) (i j : Fin n) : Option Bool := gt val s j i

/-- `operator<=` -/
def le (s : State n) (i j : Fin n) : Option Bool := ge val s j i

/-! ### What they should say -/

/-- The operators give the lexicographic order of the strings `a` and `b`, and one of `<`, equality and `>` holds. -/
structure Compares (s : State n) (i j : Fin n) (a b : List ℤ) : Prop where
  gt_eq : gt val s i j = some (decide (b < a))
  ge_eq : ge val s i j = some (decide (b ≤ a))
  lt_eq : lt val s i j = some (decide (a < b))
  le_eq : le val s i j = some (decide (a ≤ b))
  one : lt val s i j = some true ∧ a ≠ b ∧ gt val s i j = some false ∨
    lt val s i j = some false ∧ a = b ∧ gt val s i j = some false ∨
    lt val s i j = some false ∧ a ≠ b ∧ gt val s i j = some true

/-- The strings have the same byte at position `2 * k`. -/
def SameAt (a b : Bytes) (k : ℕ) : Prop := ∃ x, a[2 * k]? = some x ∧ b[2 * k]? = some x

/-- The strings are the same, of an even length; or they differ at an even position, and at the first one the bytes are
in the order of the strings. -/
def Comparable (a b : Bytes) : Prop :=
  a = b ∧ 2 ∣ a.length ∨ ∃ k x y, (∀ j < k, SameAt a b j) ∧ a[2 * k]? = some x ∧ b[2 * k]? = some y ∧ x ≠ y ∧
    (val x < val y ↔ a.map val < b.map val)

/-! ### What they do -/

/-- A byte string, read. -/
def ofBytes (a : Bytes) : Reads := ⟨a.length, (a[·]?)⟩

section loops

variable {val} {a b : Bytes} {k : ℕ} {ends : ℕ → Option Bool}

theorem reads_eq {s : State n} (h : WF s) (hs : (abs s).Small) (i : Fin n) : s.reads i = ofBytes (s.content i) := by
  unfold State.reads ofBytes
  rw [h.length_eq hs]
  refine congrArg _ (funext fun k => ?_)
  by_cases hk : k < (s.content i).length
  · exact getByte_spec h hs hk
  · rw [getByte, h.length_eq hs, if_neg hk, getElem?_eq_none (not_lt.mp hk)]

theorem exists_first (a b : Bytes) : ∃ k ≤ a.length, (∀ j < k, SameAt a b j) ∧ ¬ SameAt a b k := by
  classical
  have hex : ∃ k, ¬ SameAt a b k := ⟨a.length, fun ⟨x, hx, _⟩ => by
    have := (List.getElem?_eq_some_iff.mp hx).1
    omega⟩
  refine ⟨Nat.find hex, Nat.find_min' hex fun ⟨x, hx, _⟩ => ?_, fun j hj => not_not.mp (Nat.find_min hex hj), Nat.find_spec hex⟩
  have := (List.getElem?_eq_some_iff.mp hx).1
  omega

theorem SameAt.lt (h : SameAt a b k) : 2 * k < a.length ∧ 2 * k < b.length := by
  obtain ⟨x, ha, hb⟩ := h
  exact ⟨(List.getElem?_eq_some_iff.mp ha).1, (List.getElem?_eq_some_iff.mp hb).1⟩

/-- The loop comes to the first even position at which the strings are not the same. -/
theorem compareLoop_skip (hends : ∀ p, p < a.length → p < b.length → ends p = none) (h : ∀ j < k, SameAt a b j) (fuel : ℕ) :
    compareLoop val ends (ofBytes a) (ofBytes b) (k + fuel) 0 = compareLoop val ends (ofBytes a) (ofBytes b) fuel (2 * k) := by
  induction k generalizing fuel with
  | zero => rw [zero_add]
  | succ k ih =>
    have hk := h k (Nat.lt_succ_self k)
    obtain ⟨x, hx, hy⟩ := hk
    have hlt := SameAt.lt ⟨x, hx, hy⟩
    rw [add_assoc, add_comm 1, ih (fun j hj => h j (by omega)), compareLoop, if_neg (fun hc => by
      simp only [ofBytes] at hc
      omega), hends _ hlt.1 hlt.2]
    simp only [ofBytes, hx, hy, none_or, bind_some, lt_irrefl, if_false]
    rfl

theorem SameAt.symm (h : SameAt a b k) : SameAt b a k := h.imp fun _ hx => hx.symm

variable (h : ∀ j < k, SameAt a b j)
include h

theorem le_length : k ≤ a.length := by
  rcases eq_zero_or_pos k with rfl | hk
  · exact Nat.zero_le _
  · have := (h (k - 1) (by omega)).lt
    omega

theorem gtLoop_skip : gtLoop val (ofBytes a) (ofBytes b) = compareLoop val
    (fun p => if a.length = p then some false else none) (ofBytes a) (ofBytes b) (a.length - k + 1) (2 * k) := by
  rw [← compareLoop_skip (fun p hp _ => if_neg (by omega)) h, ← add_assoc, Nat.add_sub_cancel' (le_length h)]
  rfl

theorem geLoop_skip : geLoop val (ofBytes a) (ofBytes b) = compareLoop val
    (fun p => if b.length = p ∧ a.length = p then some true else none) (ofBytes a) (ofBytes b)
      (a.length - k + 1) (2 * k) := by
  rw [← compareLoop_skip (fun p hp _ => if_neg (by omega)) h, ← add_assoc, Nat.add_sub_cancel' (le_length h)]
  rfl

/-- Where the strings have different bytes there, these decide. -/
theorem loops_differ (hval : Function.Injective val) {x y : UInt8} (hx : a[2 * k]? = some x) (hy : b[2 * k]? = some y)
    (hne : x ≠ y) : gtLoop val (ofBytes a) (ofBytes b) = some (decide (val y < val x)) ∧
      geLoop val (ofBytes a) (ofBytes b) = some (decide (val y < val x)) := by
  have hla := (List.getElem?_eq_some_iff.mp hx).1
  have hlb := (List.getElem?_eq_some_iff.mp hy).1
  have hround (ends : ℕ → Option Bool) (hends : ends (2 * k) = none) (fuel : ℕ) :
      compareLoop val ends (ofBytes a) (ofBytes b) (fuel + 1) (2 * k) = some (decide (val y < val x)) := by
    rw [compareLoop, hends, if_neg (fun hc => hlb.ne' hc.2)]
    simp only [ofBytes, hx, hy, none_or, bind_some]
    by_cases hyx : val y < val x
    · simp [hyx]
    · simp [hyx, lt_of_le_of_ne (not_lt.mp hyx) fun he => hne (hval he)]
  rw [gtLoop_skip h, geLoop_skip h]
  exact ⟨hround _ (if_neg (by omega)) _, hround _ (if_neg (by omega)) _⟩

/-- Where the left string has ended, `>=` takes notice only if both have ended just there. -/
theorem geLoop_ended (hla : a.length ≤ 2 * k) (hne : ¬ (b.length = 2 * k ∧ a.length = 2 * k)) :
    geLoop val (ofBytes a) (ofBytes b) = none := by
  rw [geLoop_skip h, compareLoop, if_neg (fun hc => absurd hc.1 (not_lt.mpr hla)), if_neg hne]
  simp only [ofBytes, getElem?_eq_none hla, bind_none, none_or]

theorem loops_ended (hla : a.length = 2 * k) (hlb : b.length = 2 * k) :
    gtLoop val (ofBytes a) (ofBytes b) = some false ∧ geLoop val (ofBytes a) (ofBytes b) = some true := by
  have hend : ¬ (2 * k < (ofBytes a).length ∧ (ofBytes b).length = 2 * k) := fun hc => hc.1.ne hla.symm
  rw [gtLoop_skip h, geLoop_skip h, compareLoop, compareLoop, if_neg hend, if_neg hend, if_pos hla, if_pos ⟨hlb, hla⟩]
  exact ⟨rfl, rfl⟩

/-- There is one first even position at which the bytes differ. -/
theorem first_unique (hne : ¬ SameAt a b k) {k' : ℕ} {x y : UInt8} (h' : ∀ j < k', SameAt a b j)
    (hx : a[2 * k']? = some x) (hy : b[2 * k']? = some y) (hxy : x ≠ y) : k' = k := by
  rcases lt_trichotomy k' k with hlt | rfl | hlt
  · obtain ⟨z, hz, hz'⟩ := h k' hlt
    exact absurd (some.inj (hx.symm.trans (hz.trans (hz'.symm.trans hy)))) hxy
  · rfl
  · exact absurd (h' k hlt) hne

end loops

section results

variable {val} {s : State n} {i j : Fin n} {a b : Bytes} {k : ℕ}

theorem not_compares (h : ge val s i j = none ∨ le val s i j = none) {a b : List ℤ} : ¬ Compares val s i j a b := by
  rintro hc
  rcases h with h | h
  · nomatch h.symm.trans hc.ge_eq
  · nomatch h.symm.trans hc.le_eq

theorem compares_self (hg : gt val s i j = some false) (hl : lt val s i j = some false)
    (hge : ge val s i j = some true) (hle : le val s i j = some true) (a : List ℤ) : Compares val s i j a a :=
  ⟨by rw [hg, decide_eq_false (lt_irrefl a)], by rw [hge, decide_eq_true le_rfl],
    by rw [hl, decide_eq_false (lt_irrefl a)], by rw [hle, decide_eq_true le_rfl], .inr (.inl ⟨hl, rfl, hg⟩)⟩

/-- Where the operators go by two numbers that differ, they compare strings that are in the order of the numbers. -/
theorem compares_of_differ {u v : ℤ} (hne : u ≠ v) (hg : gt val s i j = some (decide (v < u)))
    (hl : lt val s i j = some (decide (u < v))) (hge : ge val s i j = some (decide (v < u)))
    (hle : le val s i j = some (decide (u < v))) {a b : List ℤ} :
    Compares val s i j a b ↔ a ≠ b ∧ (u < v ↔ a < b) := by
  refine ⟨fun hc => ⟨?_, decide_eq_decide.mp (some.inj (hl.symm.trans hc.lt_eq))⟩, fun ⟨hab, hiff⟩ => ?_⟩
  · rintro rfl
    have hgt := decide_eq_decide.mp (some.inj (hg.symm.trans hc.gt_eq))
    have hlt := decide_eq_decide.mp (some.inj (hl.symm.trans hc.lt_eq))
    rcases lt_or_gt_of_ne hne with huv | huv
    · exact lt_irrefl _ (hlt.mp huv)
    · exact lt_irrefl _ (hgt.mp huv)
  rcases lt_or_gt_of_ne hne with huv | huv
  · have hlt := hiff.mp huv
    rw [decide_eq_false huv.not_gt] at hg hge
    rw [decide_eq_true huv] at hl hle
    exact ⟨by rw [hg, decide_eq_false hlt.not_gt], by rw [hge, decide_eq_false hlt.not_ge],
      by rw [hl, decide_eq_true hlt], by rw [hle, decide_eq_true hlt.le], .inl ⟨hl, hab, hg⟩⟩
  · have hgt : b < a := lt_of_le_of_ne (not_lt.mp fun hc => huv.not_gt (hiff.mpr hc)) hab.symm
    rw [decide_eq_true huv] at hg hge
    rw [decide_eq_false huv.not_gt] at hl hle
    exact ⟨by rw [hg, decide_eq_true hgt], by rw [hge, decide_eq_true hgt.le],
      by rw [hl, decide_eq_false hgt.not_gt], by rw [hle, decide_eq_false hgt.not_ge], .inr (.inr ⟨hl, hab, hg⟩)⟩

/-- **When the operators compare**: when the strings are the same and of an even length, or the first bytes that differ
at an even position are in the order of the strings. -/
theorem compares_iff (h : WF s) (hs : (abs s).Small) (hval : Function.Injective val) (i j : Fin n) :
    Compares val s i j ((s.content i).map val) ((s.content j).map val) ↔
      Comparable val (s.content i) (s.content j) := by
  obtain ⟨k, -, hsame, hfirst⟩ := exists_first (s.content i) (s.content j)
  have hsame' : ∀ p < k, SameAt (s.content j) (s.content i) p := fun p hp => (hsame p hp).symm
  have hops : gt val s i j = gtLoop val (ofBytes (s.content i)) (ofBytes (s.content j)) ∧
      ge val s i j = geLoop val (ofBytes (s.content i)) (ofBytes (s.content j)) ∧
      lt val s i j = gtLoop val (ofBytes (s.content j)) (ofBytes (s.content i)) ∧
      le val s i j = geLoop val (ofBytes (s.content j)) (ofBytes (s.content i)) := by
    simp only [gt, ge, lt, le, reads_eq h hs, and_self]
  obtain ⟨hgt, hge, hlt, hle⟩ := hops
  generalize s.content i = a at *
  generalize s.content j = b at *
  by_cases hboth : a.length = 2 * k ∧ b.length = 2 * k
  · -- both have ended there
    obtain ⟨hg, hg'⟩ := @loops_ended val _ _ _ hsame hboth.1 hboth.2
    obtain ⟨hl, hl'⟩ := @loops_ended val _ _ _ hsame' hboth.2 hboth.1
    refine ⟨fun hc => .inl ⟨?_, hboth.1 ▸ dvd_mul_right 2 k⟩, ?_⟩
    · have h₁ := decide_eq_false_iff_not.mp (some.inj (hc.gt_eq.symm.trans (hgt.trans hg)))
      have h₂ := decide_eq_false_iff_not.mp (some.inj (hc.lt_eq.symm.trans (hlt.trans hl)))
      exact hval.list_map (le_antisymm (not_lt.mp h₁) (not_lt.mp h₂))
    · rintro (⟨rfl, -⟩ | ⟨k', x, y, hs', hx, hy, hxy, -⟩)
      · exact compares_self (hgt.trans hg) (hlt.trans hl) (hge.trans hg') (hle.trans hl') _
      · obtain rfl := first_unique hsame hfirst hs' hx hy hxy
        rw [getElem?_eq_none hboth.1.le] at hx
        nomatch hx
  by_cases hlen : 2 * k < a.length ∧ 2 * k < b.length
  · -- the bytes there differ
    have hx := getElem?_eq_getElem hlen.1
    have hy := getElem?_eq_getElem hlen.2
    generalize a[2 * k] = x at hx
    generalize b[2 * k] = y at hy
    have hxy : x ≠ y := fun he => hfirst ⟨x, hx, he ▸ hy⟩
    obtain ⟨hg, hg'⟩ := loops_differ hsame hval hx hy hxy
    obtain ⟨hl, hl'⟩ := loops_differ hsame' hval hy hx hxy.symm
    have hab : a ≠ b := by
      rintro rfl
      exact hxy (some.inj (hx.symm.trans hy))
    rw [compares_of_differ (hval.ne hxy) (hgt.trans hg) (hlt.trans hl) (hge.trans hg') (hle.trans hl')]
    refine ⟨fun hc => .inr ⟨k, x, y, hsame, hx, hy, hxy, hc.2⟩, ?_⟩
    rintro (⟨he, -⟩ | ⟨k', x', y', hs', hx', hy', hxy', hiff⟩)
    · exact absurd he hab
    · obtain rfl := first_unique hsame hfirst hs' hx' hy' hxy'
      obtain rfl := some.inj (hx.symm.trans hx')
      obtain rfl := some.inj (hy.symm.trans hy')
      exact ⟨hval.list_map.ne hab, hiff⟩
  · -- one has ended, and the other has not or ended a byte before
    refine iff_of_false (not_compares ?_) ?_
    · rcases lt_or_ge (2 * k) a.length with hla | hla
      · have hlb : b.length ≤ 2 * k := not_lt.mp fun hlb => hlen ⟨hla, hlb⟩
        exact .inr (hle.trans (geLoop_ended hsame' hlb hboth))
      · exact .inl (hge.trans (geLoop_ended hsame hla fun hc => hboth hc.symm))
    · rintro (⟨rfl, hdvd⟩ | ⟨k', x, y, hs', hx, hy, hxy, -⟩)
      · rcases eq_zero_or_pos k with rfl | hk
        · omega
        · have := (hsame (k - 1) (by omega)).lt
          omega
      · obtain rfl := first_unique hsame hfirst hs' hx hy hxy
        exact hlen ⟨(List.getElem?_eq_some_iff.mp hx).1, (List.getElem?_eq_some_iff.mp hy).1⟩

end results

/-- A `char` of the machines the code was written on. -/
def signedChar (c : UInt8) : ℤ := c.toInt8.toInt

theorem signedChar_injective : Function.Injective signedChar := fun a b hab => by
  rw [← a.toUInt8_toInt8, Int8.toInt_inj.mp hab, b.toUInt8_toInt8]

/-- Two zero bytes compare with themselves. -/
theorem two_zeros_compare : Compares signedChar (appendZero (.init 1) 0 2) 0 0
    (((appendZero (.init 1) 0 2).content 0).map signedChar) (((appendZero (.init 1) 0 2).content 0).map signedChar) :=
  (compares_iff (appendZero_spec (init_wf 1) (by decide)).1 (fun i => by rw [Subsingleton.elim i 0]; decide)
    signedChar_injective 0 0).mpr (.inl ⟨rfl, by decide⟩)

/-- One does not. -/
theorem one_zero_fails : WF (appendZero (.init 1) 0 1) ∧ (appendZero (.init 1) 0 1).content 0 = [0] ∧
    ge signedChar (appendZero (.init 1) 0 1) 0 0 = none :=
  ⟨(appendZero_spec (init_wf 1) (by decide)).1, by decide, by decide⟩

end Buffer
end Ceph
