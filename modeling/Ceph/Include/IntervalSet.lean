/-
# Interval sets

`interval_set<T>` keeps a set of numbers as a map from the start of each
interval to its length. `insert` joins the new interval to the one that ends
where it starts and to the one that starts where it ends; `erase` cuts a piece
out of one interval. Both look for the interval with `lower_bound` and one
step back, and both assert that what they were asked fits what they found.

The map is a list by increasing start, an iterator is an index into it (the
length stands for `end()`), and numbers are those of `inodeno_t`, 64 bits
wide. `_size` is an `int` that lengths are added to as they are.
-/
import Mathlib.Data.List.TakeWhile
import Mathlib.Order.Interval.Finset.Nat
import Mathlib.Tactic.Ring

namespace Ceph
namespace IntervalSet

open List Finset

/-- Sums of `inodeno_t` are sums of `uint64_t`. -/
def u64 (n : ℕ) : ℕ := n % 2 ^ 64

/-- `map<T,T>`: where an interval starts, and its length. -/
abbrev Intervals := List (ℕ × ℕ)

/-- `lower_bound`: the first interval that does not start before `start`. -/
def lowerBound (m : Intervals) (start : ℕ) : ℕ := (m.takeWhile fun p => p.1 < start).length

/-- The search of `find_inc` and `find_adj`: one step back, and forward again
if that interval ends `short` of the start. -/
def findBy (short : ℕ → Bool) (m : Intervals) (start : ℕ) : ℕ :=
  let p := lowerBound m start
  if p ≠ 0 ∧ m[p]?.all (fun q => start < q.1) then
    if m[p - 1]?.all (fun q => short (u64 (q.1 + q.2))) then p else p - 1
  else p

/-- `find_inc`: the interval that contains `start`, or the next. -/
def findInc (m : Intervals) (start : ℕ) : ℕ := findBy (fun e => e ≤ start) m start

/-- `find_adj`: the interval that contains or touches `start`, or the next. -/
def findAdj (m : Intervals) (start : ℕ) : ℕ := findBy (fun e => e < start) m start

/-- `m[k] = v`. -/
def put (m : Intervals) (k v : ℕ) : Intervals :=
  m.takeWhile (fun p => p.1 < k) ++ (k, v) :: m.dropWhile fun p => p.1 ≤ k

/-- `interval_set<inodeno_t>`. -/
structure IntervalSet where
  m : Intervals
  size : BitVec 32
deriving DecidableEq, Repr

def empty : IntervalSet := ⟨[], 0⟩

/-- `clear`. -/
def IntervalSet.clear (_ : IntervalSet) : IntervalSet := empty

/-- `start`: the lowest number of the set; an empty set asserts. -/
def IntervalSet.start (s : IntervalSet) : Option ℕ := s.m.head?.map Prod.fst

/-- `insert(start, len)`; `none` is a failed assertion. -/
def IntervalSet.insert (s : IntervalSet) (start len : ℕ) : Option IntervalSet :=
  if len = 0 then none else
  let size := s.size + BitVec.ofNat 32 len
  let p := findAdj s.m start
  match s.m[p]? with
  | none => some ⟨put s.m start len, size⟩
  | some (f, l) =>
    if f < start then
      if u64 (f + l) ≠ start then none else
      match s.m[p + 1]? with
      | none => some ⟨s.m.set p (f, u64 (l + len)), size⟩
      | some (f', l') =>
        if u64 (start + len) = f' then some ⟨(s.m.set p (f, u64 (u64 (l + len) + l'))).eraseIdx (p + 1), size⟩
        else some ⟨s.m.set p (f, u64 (l + len)), size⟩
    else if u64 (start + len) = f then some ⟨put (s.m.eraseIdx p) start (u64 (len + l)), size⟩
    else if u64 (start + len) < f then some ⟨put s.m start len, size⟩
    else none

/-- `erase(start, len)`. -/
def IntervalSet.erase (s : IntervalSet) (start len : ℕ) : Option IntervalSet :=
  let p := findInc s.m start
  match s.m[p]? with
  | none => none
  | some (f, l) =>
    if f ≤ start ∧ u64 (start - f + len) ≤ l then
      let before := start - f
      let after := l - before - len
      let m := if before ≠ 0 then s.m.set p (f, before) else s.m.eraseIdx p
      some ⟨if after ≠ 0 then put m (u64 (start + len)) after else m, s.size - BitVec.ofNat 32 len⟩
    else none

/-! ### What the map stands for -/

/-- The intervals are not empty, do not reach the end of the numbers, and lie
apart from each other. -/
structure Wf (m : Intervals) : Prop where
  pos : ∀ p ∈ m, 0 < p.2
  bound : ∀ p ∈ m, p.1 + p.2 < 2 ^ 64
  apart : m.Pairwise fun p q => p.1 + p.2 < q.1

/-- Interval `p` contains `x`. -/
def Holds (x : ℕ) (p : ℕ × ℕ) : Prop := p.1 ≤ x ∧ x < p.1 + p.2

/-- `x` is in the set. -/
def Covers (m : Intervals) (x : ℕ) : Prop := ∃ p ∈ m, Holds x p

instance (x : ℕ) (p : ℕ × ℕ) : Decidable (Holds x p) := inferInstanceAs (Decidable (_ ∧ _))

instance (m : Intervals) (x : ℕ) : Decidable (Covers m x) := inferInstanceAs (Decidable (∃ p ∈ m, Holds x p))

theorem u64_eq {n : ℕ} (h : n < 2 ^ 64) : u64 n = n := Nat.mod_eq_of_lt h

theorem covers_nil (x : ℕ) : ¬ Covers [] x := nofun

@[simp] theorem covers_cons (p : ℕ × ℕ) (m : Intervals) (x : ℕ) : Covers (p :: m) x ↔ Holds x p ∨ Covers m x := by
  simp [Covers]

@[simp] theorem covers_append (m m' : Intervals) (x : ℕ) : Covers (m ++ m') x ↔ Covers m x ∨ Covers m' x := by
  simp only [Covers, List.mem_append, or_and_right, exists_or]

theorem wf_nil : Wf [] := ⟨nofun, nofun, .nil⟩

theorem Wf.sublist {m m' : Intervals} (h : Wf m) (hs : m'.Sublist m) : Wf m' :=
  ⟨fun p hp => h.pos p (hs.subset hp), fun p hp => h.bound p (hs.subset hp), h.apart.sublist hs⟩

theorem wf_singleton {a n : ℕ} (hn : 0 < n) (hbound : a + n < 2 ^ 64) : Wf [(a, n)] :=
  ⟨forall_mem_singleton.mpr hn, forall_mem_singleton.mpr hbound, pairwise_singleton _ _⟩

theorem covers_singleton {a n x : ℕ} : Covers [(a, n)] x ↔ a ≤ x ∧ x < a + n := by
  rw [covers_cons, Holds]
  exact or_iff_left (covers_nil x)

theorem Wf.sides {lo hi : Intervals} {p : ℕ × ℕ} (h : Wf (lo ++ p :: hi)) :
    (∀ q ∈ lo, q.1 + q.2 < p.1) ∧ ∀ q ∈ hi, p.1 + p.2 < q.1 := by
  obtain ⟨-, hpw, hcross⟩ := pairwise_append.mp h.apart
  exact ⟨fun q hq => hcross q hq p mem_cons_self, fun q hq => rel_of_pairwise_cons hpw hq⟩

/-- The intervals `blk` are replaced by `ps`. -/
theorem Wf.replace {lo hi ps : Intervals} (blk : Intervals) (h : Wf (lo ++ (blk ++ hi))) (hps : Wf ps)
    (hlo : ∀ p ∈ lo, ∀ q ∈ ps, p.1 + p.2 < q.1) (hhi : ∀ q ∈ ps, ∀ p ∈ hi, q.1 + q.2 < p.1) : Wf (lo ++ (ps ++ hi)) := by
  have h' : Wf (lo ++ hi) := h.sublist ((sublist_append_right blk hi).append_left lo)
  refine ⟨fun p hp => ?_, fun p hp => ?_, ?_⟩
  · rcases List.mem_append.mp hp with hp | hp
    · exact h'.pos p (mem_append_left hi hp)
    · exact (List.mem_append.mp hp).elim (hps.pos p) fun hp => h'.pos p (mem_append_right lo hp)
  · rcases List.mem_append.mp hp with hp | hp
    · exact h'.bound p (mem_append_left hi hp)
    · exact (List.mem_append.mp hp).elim (hps.bound p) fun hp => h'.bound p (mem_append_right lo hp)
  · obtain ⟨h1, h2, h12⟩ := pairwise_append.mp h'.apart
    refine pairwise_append.mpr ⟨h1, pairwise_append.mpr ⟨hps.apart, h2, hhi⟩, fun p hp q hq => ?_⟩
    exact (List.mem_append.mp hq).elim (hlo p hp q) (h12 p hp q)

/-- The sum of the lengths. -/
def total (m : Intervals) : ℕ := (m.map Prod.snd).sum

/-- `_size` is right, as far as an `int` goes. -/
def IntervalSet.Sized (s : IntervalSet) : Prop := s.size = BitVec.ofNat 32 (total s.m)

/-- The set `s` becomes `t`, of the numbers `P`. -/
structure Becomes (s t : IntervalSet) (P : ℕ → Prop) : Prop where
  wf : Wf t.m
  covers : ∀ x, Covers t.m x ↔ P x
  sized : s.Sized → t.Sized

theorem Becomes.trans {s t u : IntervalSet} {P Q : ℕ → Prop} (h : Becomes s t P) (h' : Becomes t u Q) : Becomes s u Q :=
  ⟨h'.wf, h'.covers, fun hs => h'.sized (h.sized hs)⟩

theorem Becomes.congr {s t : IntervalSet} {P Q : ℕ → Prop} (h : Becomes s t P) (hpq : ∀ x, P x ↔ Q x) : Becomes s t Q :=
  ⟨h.wf, fun x => (h.covers x).trans (hpq x), h.sized⟩

/-- The numbers of the set. -/
def numbers (m : Intervals) : Finset ℕ := m.toFinset.biUnion fun p => Finset.Ico p.1 (p.1 + p.2)

theorem mem_numbers {m : Intervals} {x : ℕ} : x ∈ numbers m ↔ Covers m x := by
  simp [numbers, Covers, Holds]

theorem card_numbers {m : Intervals} (h : Wf m) : (numbers m).card = total m := by
  induction m with
  | nil => rfl
  | cons p m ih =>
    have hnext := (@Wf.sides [] _ _ h).2
    have hsplit : numbers (p :: m) = Finset.Ico p.1 (p.1 + p.2) ∪ numbers m := by simp [numbers]
    have hdisj : Disjoint (Finset.Ico p.1 (p.1 + p.2)) (numbers m) := by
      refine disjoint_left.mpr fun x hx hm => ?_
      obtain ⟨q, hq, hle, -⟩ := mem_numbers.mp hm
      have := hnext q hq
      have := (mem_Ico.mp hx).2
      omega
    rw [hsplit, card_union_of_disjoint hdisj, ih (h.sublist (sublist_cons_self p m)), Nat.card_Ico, total, total,
      List.map_cons, List.sum_cons, Nat.add_sub_cancel_left]

theorem total_add {m m' : Intervals} {start len : ℕ} (hm : Wf m) (hm' : Wf m')
    (hcov : ∀ x, Covers m' x ↔ Covers m x ∨ start ≤ x ∧ x < start + len)
    (hd : ∀ x, start ≤ x → x < start + len → ¬ Covers m x) : total m' = total m + len := by
  have hsplit : numbers m' = numbers m ∪ Finset.Ico start (start + len) := by
    ext x
    simp only [mem_union, mem_numbers, hcov, mem_Ico]
  have hdisj : Disjoint (numbers m) (Finset.Ico start (start + len)) :=
    disjoint_right.mpr fun x hx hcon => hd x (mem_Ico.mp hx).1 (mem_Ico.mp hx).2 (mem_numbers.mp hcon)
  rw [← card_numbers hm, ← card_numbers hm', hsplit, card_union_of_disjoint hdisj, Nat.card_Ico,
    Nat.add_sub_cancel_left]

/-- Cut at `start`: the intervals that start before it, and the others. -/
theorem exists_cut (m : Intervals) (start : ℕ) (h : m.Pairwise fun p q => p.1 + p.2 < q.1) :
    ∃ lo hi, m = lo ++ hi ∧ (∀ p ∈ lo, p.1 < start) ∧ ∀ p ∈ hi, start ≤ p.1 := by
  refine ⟨m.takeWhile (fun p => p.1 < start), m.dropWhile fun p => p.1 < start, takeWhile_append_dropWhile.symm,
    fun p hp => of_decide_eq_true (mem_takeWhile_imp hp :), fun p hp => ?_⟩
  have hsub : (m.dropWhile fun p => p.1 < start).Pairwise fun p q => p.1 + p.2 < q.1 :=
    h.sublist (dropWhile_sublist _)
  cases hd : m.dropWhile fun p => p.1 < start with
  | nil => rw [hd] at hp; cases hp
  | cons q rest =>
    have hq : start ≤ q.1 := by
      have := head?_dropWhile_not (fun p : ℕ × ℕ => decide (p.1 < start)) m
      rw [hd] at this
      simpa using this
    rw [hd] at hp hsub
    obtain rfl | hp := mem_cons.mp hp
    · exact hq
    · have := rel_of_pairwise_cons hsub hp
      omega

section cut

variable {lo hi : Intervals} {start : ℕ}

theorem lowerBound_cut (hlo : ∀ p ∈ lo, p.1 < start) (hhi : ∀ p ∈ hi, start ≤ p.1) :
    lowerBound (lo ++ hi) start = lo.length := by
  have hnil : hi.takeWhile (fun p => decide (p.1 < start)) = [] := by
    cases hi with
    | nil => rfl
    | cons q rest =>
      have := hhi q mem_cons_self
      simpa using this
  rw [lowerBound, takeWhile_append_of_pos (by simpa using hlo), hnil, append_nil]

theorem put_cut (v : ℕ) (hlo : ∀ p ∈ lo, p.1 < start) (hhi : ∀ p ∈ hi, start < p.1) :
    put (lo ++ hi) start v = lo ++ (start, v) :: hi := by
  have htake : hi.takeWhile (fun p => decide (p.1 < start)) = [] := by
    cases hi with
    | nil => rfl
    | cons q rest =>
      have := hhi q mem_cons_self
      simpa using this.le
  have hdrop : hi.dropWhile (fun p => decide (p.1 ≤ start)) = hi := by
    cases hi with
    | nil => rfl
    | cons q rest =>
      have := hhi q mem_cons_self
      simpa using this
  rw [put, takeWhile_append_of_pos (by simpa using hlo), htake, append_nil,
    dropWhile_append_of_pos (by simpa using fun a b hp => (hlo (a, b) hp).le), hdrop]

theorem foldl_put : ∀ (m acc : Intervals), (acc ++ m).Pairwise (fun p q => p.1 < q.1) →
    m.foldl (fun m p => put m p.1 p.2) acc = acc ++ m
  | [], acc, _ => (append_nil acc).symm
  | p :: m, acc, h => by
    have hput : put acc p.1 p.2 = acc ++ [p] := by
      have hlt : ∀ q ∈ acc, q.1 < p.1 := fun q hq =>
        (pairwise_append.mp h).2.2 q hq p mem_cons_self
      have hcut : put (acc ++ []) p.1 p.2 = acc ++ [(p.1, p.2)] := put_cut p.2 hlt nofun
      rwa [append_nil] at hcut
    rw [append_cons] at h
    rw [foldl_cons, hput, foldl_put m _ h, append_assoc, singleton_append]

theorem findBy_first (short : ℕ → Bool) (hhi : ∀ p ∈ hi, start ≤ p.1) : findBy short hi start = 0 := by
  have h0 : lowerBound ([] ++ hi) start = 0 := lowerBound_cut nofun hhi
  rw [nil_append] at h0
  simp [findBy, h0]

theorem findBy_back (short : ℕ → Bool) {q : ℕ × ℕ} (hlo : ∀ p ∈ lo ++ [q], p.1 < start) (hhi : ∀ p ∈ hi, start < p.1) :
    findBy short (lo ++ [q] ++ hi) start = if short (u64 (q.1 + q.2)) then lo.length + 1 else lo.length := by
  have hlb : lowerBound (lo ++ [q] ++ hi) start = lo.length + 1 := by
    rw [lowerBound_cut hlo fun p hp => (hhi p hp).le, length_append]
    rfl
  have hhead : (lo ++ [q] ++ hi)[lo.length + 1]?.all (fun q => decide (start < q.1)) = true := by
    cases hi with
    | nil => simp
    | cons r rest =>
      have := hhi r mem_cons_self
      simp [this]
  simp only [findBy, hlb]
  rw [if_pos ⟨Nat.succ_ne_zero _, hhead⟩]
  simp

theorem findBy_stay (short : ℕ → Bool) {q : ℕ × ℕ} (hlo : ∀ p ∈ lo, p.1 < start) (hhi : ∀ p ∈ hi, start ≤ p.1)
    (hq : q.1 = start) : findBy short (lo ++ q :: hi) start = lo.length := by
  have hhi' : ∀ p ∈ q :: hi, start ≤ p.1 := forall_mem_cons.mpr ⟨hq.ge, hhi⟩
  have hstay : ¬ (lo.length ≠ 0 ∧ (lo ++ q :: hi)[lo.length]?.all (fun q => decide (start < q.1)) = true) := by
    simp [hq]
  simp only [findBy, lowerBound_cut hlo hhi']
  exact if_neg hstay

/-- The search finds the first interval that does not end `short`. -/
theorem findBy_cut {m : Intervals} (hw : Wf m) (short : ℕ → Bool) (hlow : ∀ e < start, short e = true)
    (hhigh : ∀ e, short e = true → e ≤ start) : ∃ lo hi, m = lo ++ hi ∧ findBy short m start = lo.length ∧
      (∀ p ∈ lo, short (p.1 + p.2) = true) ∧ ∀ p ∈ hi, ¬ short (p.1 + p.2) = true := by
  obtain ⟨lo, hi, rfl, hlo, hhi⟩ := exists_cut m start hw.apart
  have hlong : ∀ p ∈ hi, ¬ short (p.1 + p.2) = true := fun p hp hs => by
    have := hw.pos p (mem_append_right lo hp)
    have := hhi p hp
    have := hhigh _ hs
    omega
  obtain rfl | ⟨lo, q, rfl⟩ := eq_nil_or_concat' lo
  · exact ⟨[], hi, rfl, findBy_first short hhi, nofun, hlong⟩
  by_cases hat : ∃ r rest, hi = r :: rest ∧ r.1 = start
  · obtain ⟨r, rest, rfl, hr⟩ := hat
    refine ⟨_, _, rfl, findBy_stay short hlo (fun p hp => hhi p (mem_cons_of_mem r hp)) hr, fun p hp => ?_, hlong⟩
    exact hlow _ (hr ▸ hw.sides.1 p hp)
  have hhi' : ∀ p ∈ hi, start < p.1 := by
    cases hi with
    | nil => exact nofun
    | cons r rest =>
      have hr : start < r.1 := lt_of_le_of_ne (hhi r mem_cons_self) fun h => hat ⟨r, rest, rfl, h.symm⟩
      refine forall_mem_cons.mpr ⟨hr, fun p hp => ?_⟩
      have := hw.sides.2 p hp
      omega
  have hfind := findBy_back short hlo hhi'
  rw [u64_eq (hw.bound q (by simp))] at hfind
  rw [append_assoc] at hw
  have hbefore : ∀ p ∈ lo, short (p.1 + p.2) = true := fun p hp =>
    hlow _ ((hw.sides.1 p hp).trans (hlo q (by simp)))
  by_cases hq : short (q.1 + q.2) = true
  · rw [if_pos hq] at hfind
    refine ⟨lo ++ [q], hi, rfl, by rw [hfind, length_append]; rfl, fun p hp => ?_, hlong⟩
    exact (List.mem_append.mp hp).elim (hbefore p) fun hp => List.mem_singleton.mp hp ▸ hq
  · rw [if_neg hq] at hfind
    exact ⟨lo, q :: hi, append_assoc .., hfind, hbefore, forall_mem_cons.mpr ⟨hq, hlong⟩⟩

end cut

/-- `find_adj` comes to the first interval that does not end before `start`. -/
theorem findAdj_cut {m : Intervals} (hw : Wf m) (start : ℕ) : ∃ lo hi, m = lo ++ hi ∧ findAdj m start = lo.length ∧
    (∀ p ∈ lo, p.1 + p.2 < start) ∧ ∀ p ∈ hi, start ≤ p.1 + p.2 := by
  obtain ⟨lo, hi, rfl, hfind, hlo, hhi⟩ := @findBy_cut start _ hw (fun e => e < start)
    (fun e he => decide_eq_true he) fun e he => (of_decide_eq_true he).le
  exact ⟨lo, hi, rfl, hfind, fun p hp => of_decide_eq_true (hlo p hp), fun p hp => by simpa using hhi p hp⟩

/-- `find_inc` comes to the first interval that ends behind `start`. -/
theorem findInc_cut {m : Intervals} (hw : Wf m) (start : ℕ) : ∃ lo hi, m = lo ++ hi ∧ findInc m start = lo.length ∧
    (∀ p ∈ lo, p.1 + p.2 ≤ start) ∧ ∀ p ∈ hi, start < p.1 + p.2 := by
  obtain ⟨lo, hi, rfl, hfind, hlo, hhi⟩ := @findBy_cut start _ hw (fun e => e ≤ start)
    (fun e he => decide_eq_true he.le) fun e he => of_decide_eq_true he
  exact ⟨lo, hi, rfl, hfind, fun p hp => of_decide_eq_true (hlo p hp), fun p hp => by simpa using hhi p hp⟩

/-- The new interval touches one on its left that ends there, and overlaps another one. -/
def Slips (m : Intervals) (start len : ℕ) : Prop :=
  0 < start ∧ Covers m (start - 1) ∧ ¬ Covers m start ∧ ∃ x, start ≤ x ∧ x < start + len ∧ Covers m x

section change

variable {s : IntervalSet} {start len : ℕ} {lo hi : Intervals}

/-- The new interval and those it touches become one. -/
theorem Wf.join (blk : Intervals) {a n : ℕ} (h : Wf (lo ++ (blk ++ hi))) (hn : 0 < n) (hbound : a + n < 2 ^ 64)
    (hlo : ∀ p ∈ lo, p.1 + p.2 < a) (hhi : ∀ p ∈ hi, a + n < p.1)
    (hx : ∀ x, a ≤ x ∧ x < a + n ↔ Covers blk x ∨ start ≤ x ∧ x < start + len) :
    Wf (lo ++ (a, n) :: hi) ∧ ∀ x, Covers (lo ++ (a, n) :: hi) x ↔
      Covers (lo ++ (blk ++ hi)) x ∨ start ≤ x ∧ x < start + len := by
  refine ⟨h.replace blk (wf_singleton hn hbound) (fun p hp q hq => ?_) fun q hq p hp => ?_, fun x => ?_⟩
  · exact List.mem_singleton.mp hq ▸ hlo p hp
  · exact List.mem_singleton.mp hq ▸ hhi p hp
  · simp only [covers_append, covers_cons, Holds, hx]
    tauto

theorem Becomes.of_added {s t : IntervalSet} (hw : Wf s.m) (hd : ∀ x, start ≤ x → x < start + len → ¬ Covers s.m x)
    (hsize : t.size = s.size + BitVec.ofNat 32 len)
    (h : Wf t.m ∧ ∀ x, Covers t.m x ↔ Covers s.m x ∨ start ≤ x ∧ x < start + len) :
    Becomes s t fun x => Covers s.m x ∨ start ≤ x ∧ x < start + len :=
  ⟨h.1, h.2, fun hs => by
    rw [IntervalSet.Sized, hsize, hs, total_add hw h.1 h.2 hd, BitVec.ofNat_add]⟩

theorem Becomes.of_removed {s t : IntervalSet} (hw : Wf s.m) (hin : ∀ x, start ≤ x → x < start + len → Covers s.m x)
    (hsize : t.size = s.size - BitVec.ofNat 32 len)
    (h : Wf t.m ∧ ∀ x, Covers t.m x ↔ Covers s.m x ∧ ¬ (start ≤ x ∧ x < start + len)) :
    Becomes s t fun x => Covers s.m x ∧ ¬ (start ≤ x ∧ x < start + len) := by
  refine ⟨h.1, h.2, fun hs => ?_⟩
  have hback : ∀ x, Covers s.m x ↔ Covers t.m x ∨ start ≤ x ∧ x < start + len := fun x => by
    rw [h.2]
    have := hin x
    tauto
  rw [IntervalSet.Sized, hsize, hs, total_add h.1 hw hback fun x h1 h2 hx => ((h.2 x).mp hx).2 ⟨h1, h2⟩, BitVec.ofNat_add,
    BitVec.add_sub_cancel]

/-- **What `insert` does** with an interval that the set has nothing of, and with another one. -/
theorem insert_cases (hw : Wf s.m) (hlen : 0 < len) (hbound : start + len < 2 ^ 64) :
    ((∀ x, start ≤ x → x < start + len → ¬ Covers s.m x) ∧ ∃ t, s.insert start len = some t ∧
      Becomes s t fun x => Covers s.m x ∨ start ≤ x ∧ x < start + len) ∨
    (∃ x, start ≤ x ∧ x < start + len ∧ Covers s.m x) ∧ (s.insert start len = none ∨ Slips s.m start len) := by
  obtain ⟨m, size⟩ := s
  obtain ⟨lo, hi, rfl, hfind, hlo, hhi⟩ := findAdj_cut hw start
  rw [IntervalSet.insert, if_neg hlen.ne']
  have hlo' : ∀ p ∈ lo, p.1 < start := fun p hp => Nat.lt_of_le_of_lt (Nat.le_add_right _ _) (hlo p hp)
  have hbelow : ∀ x, start ≤ x → ¬ Covers lo x := by
    rintro x hx ⟨p, hp, -, hlt⟩
    have := hlo p hp
    omega
  have hbehind : ∀ {hi : Intervals}, (∀ p ∈ hi, start + len ≤ p.1) → ∀ x, x < start + len → ¬ Covers hi x := by
    rintro hi hhi x hx ⟨p, hp, hle, -⟩
    have := hhi p hp
    omega
  simp only [hfind, getElem?_append_right (Nat.le_refl _), Nat.sub_self]
  cases hi with
  | nil =>
    have hput : put (lo ++ []) start len = lo ++ [(start, len)] := put_cut len hlo' nofun
    have hdisj : ∀ x, start ≤ x → x < start + len → ¬ Covers (lo ++ []) x := fun x h1 _ => by simpa using hbelow x h1
    refine .inl ⟨hdisj, _, rfl, .of_added hw hdisj rfl ?_⟩
    rw [hput]
    exact hw.join [] hlen hbound hlo nofun fun x => by simp [covers_nil]
  | cons p hi =>
    obtain ⟨f, l⟩ := p
    obtain ⟨hbef, hnext⟩ := hw.sides
    have hl : 0 < l := hw.pos (f, l) (by simp)
    have hfl : f + l < 2 ^ 64 := hw.bound (f, l) (by simp)
    have hend : start ≤ f + l := hhi (f, l) mem_cons_self
    have hset : ∀ v, (lo ++ (f, l) :: hi).set lo.length v = lo ++ v :: hi := fun v => by simp
    simp only [getElem?_cons_zero, u64_eq hbound, u64_eq hfl, hset]
    by_cases hback : f < start
    · rw [if_pos hback]
      by_cases htouch : f + l = start
      · rw [if_neg (not_not_intro htouch), u64_eq (by omega)]
        by_cases hover : ∃ x, start ≤ x ∧ x < start + len ∧ Covers (lo ++ (f, l) :: hi) x
        · refine .inr ⟨hover, .inr ⟨by omega, ⟨(f, l), by simp, ?_, ?_⟩, ?_, hover⟩⟩
          · show f ≤ start - 1
            omega
          · show start - 1 < f + l
            omega
          · rw [covers_append, covers_cons, Holds, not_or, not_or]
            exact ⟨hbelow start le_rfl, by omega, fun ⟨p, hp, hle, _⟩ => by have := hnext p hp; omega⟩
        have hdisj : ∀ x, start ≤ x → x < start + len → ¬ Covers (lo ++ (f, l) :: hi) x := fun x h1 h2 h3 => hover ⟨x, h1, h2, h3⟩
        refine .inl ⟨hdisj, ?_⟩
        have hsucc : (lo ++ (f, l) :: hi)[lo.length + 1]? = hi[0]? := by
          rw [getElem?_append_right (Nat.le_succ _)]
          simp
        have hfree : ∀ p ∈ hi, start + len ≤ p.1 := fun p hp => by
          by_contra hcon
          have := hnext p hp
          exact hdisj p.1 (by omega) (by omega) ⟨p, by simp [hp], le_rfl, by have := hw.pos p (by simp [hp]); omega⟩
        rw [hsucc]
        cases hi with
        | nil =>
          refine ⟨_, rfl, .of_added hw hdisj rfl (hw.join [(f, l)] (by omega) (by omega) hbef nofun fun x => ?_)⟩
          simp only [covers_cons, covers_nil, or_false, Holds]
          omega
        | cons q hi =>
          obtain ⟨f', l'⟩ := q
          have hf' : start + len ≤ f' := hfree (f', l') mem_cons_self
          have hfl' : f' + l' < 2 ^ 64 := hw.bound (f', l') (by simp)
          have hw' : Wf ((lo ++ [(f, l)]) ++ (f', l') :: hi) := by simpa using hw
          have hnext' := hw'.sides.2
          simp only [getElem?_cons_zero]
          by_cases hjoin : start + len = f'
          · rw [if_pos hjoin, eraseIdx_append_of_length_le (Nat.le_add_right _ 1), Nat.add_sub_cancel_left,
              eraseIdx_cons_succ, eraseIdx_cons_zero, u64_eq (by omega)]
            refine ⟨_, rfl, .of_added hw hdisj rfl (hw.join [(f, l), (f', l')] (by omega) (by omega) hbef (fun p hp => ?_)
              fun x => ?_)⟩
            · have := hnext' p hp
              omega
            · simp only [covers_cons, covers_nil, or_false, Holds]
              omega
          · rw [if_neg hjoin]
            refine ⟨_, rfl, .of_added hw hdisj rfl (hw.join [(f, l)] (by omega) (by omega) hbef
              (forall_mem_cons.mpr ⟨?_, fun p hp => ?_⟩) fun x => ?_)⟩
            · show f + (l + len) < f'
              omega
            · have := hnext' p hp
              omega
            · simp only [covers_cons, covers_nil, or_false, Holds]
              omega
      · rw [if_pos htouch]
        exact .inr ⟨⟨start, le_rfl, by omega, (f, l), by simp, hback.le, show start < f + l by omega⟩, .inl rfl⟩
    · rw [if_neg hback]
      have hhi' : ∀ p ∈ (f, l) :: hi, f ≤ p.1 := forall_mem_cons.mpr ⟨le_rfl, fun p hp => by
        have := hnext p hp
        omega⟩
      by_cases hover : start + len ≤ f
      · have hdisj : ∀ x, start ≤ x → x < start + len → ¬ Covers (lo ++ (f, l) :: hi) x := fun x h1 h2 => by
          rw [covers_append, not_or]
          exact ⟨hbelow x h1, hbehind (fun p hp => hover.trans (hhi' p hp)) x h2⟩
        refine .inl ⟨hdisj, ?_⟩
        by_cases hjoin : start + len = f
        · have hput : put (lo ++ hi) start (len + l) = lo ++ (start, len + l) :: hi :=
            put_cut _ hlo' fun p hp => by
              have := hnext p hp
              omega
          rw [if_pos hjoin, eraseIdx_append_of_length_le (Nat.le_refl _), Nat.sub_self, eraseIdx_cons_zero,
            u64_eq (by omega), hput]
          refine ⟨_, rfl, .of_added hw hdisj rfl (hw.join [(f, l)] (by omega) (by omega) hlo (fun p hp => ?_) fun x => ?_)⟩
          · have := hnext p hp
            omega
          · simp only [covers_cons, covers_nil, or_false, Holds]
            omega
        · have hput : put (lo ++ (f, l) :: hi) start len = lo ++ (start, len) :: (f, l) :: hi :=
            put_cut _ hlo' fun p hp => by
              have := hhi' p hp
              omega
          rw [if_neg hjoin, if_pos (by omega), hput]
          refine ⟨_, rfl, .of_added hw hdisj rfl (hw.join [] hlen hbound hlo (fun p hp => ?_) fun x => by simp [covers_nil])⟩
          have := hhi' p hp
          omega
      · rw [if_neg (by omega), if_neg (by omega)]
        exact .inr ⟨⟨f, by omega, by omega, (f, l), by simp, le_rfl, show f < f + l by omega⟩, .inl rfl⟩

/-- **What `insert` does.** Numbers that the set does not have are added to it. -/
theorem insert_spec (hw : Wf s.m) (hlen : 0 < len) (hbound : start + len < 2 ^ 64)
    (hd : ∀ x, start ≤ x → x < start + len → ¬ Covers s.m x) :
    ∃ t, s.insert start len = some t ∧ Becomes s t fun x => Covers s.m x ∨ start ≤ x ∧ x < start + len := by
  rcases insert_cases hw hlen hbound with ⟨-, h⟩ | ⟨⟨x, h1, h2, h3⟩, -⟩
  · exact h
  · exact absurd h3 (hd x h1 h2)

/-- What `erase` leaves of an interval that begins at `f`: `b` numbers before the hole, and `a` from its end `e` on. -/
def leftovers (f b e a : ℕ) : Intervals := (if b ≠ 0 then [(f, b)] else []) ++ if a ≠ 0 then [(e, a)] else []

theorem put_leftovers {f b e a : ℕ} (hlow : ∀ p ∈ lo ++ [(f, b)], p.1 < e) (hhigh : ∀ p ∈ hi, e < p.1) :
    (if a ≠ 0 then put (if b ≠ 0 then lo ++ (f, b) :: hi else lo ++ hi) e a
      else if b ≠ 0 then lo ++ (f, b) :: hi else lo ++ hi) = lo ++ (leftovers f b e a ++ hi) := by
  have hput := put_cut a (fun p hp => hlow p (mem_append_left _ hp)) hhigh
  have hput' := put_cut a hlow hhigh
  rw [append_assoc, singleton_append] at hput'
  by_cases hb : b = 0 <;> by_cases ha : a = 0 <;> simp [leftovers, hb, ha, hput, hput']

theorem mem_leftovers {f b e a : ℕ} {p : ℕ × ℕ} (hp : p ∈ leftovers f b e a) :
    b ≠ 0 ∧ p = (f, b) ∨ a ≠ 0 ∧ p = (e, a) := by
  by_cases hb : b = 0 <;> by_cases ha : a = 0 <;> simp_all [leftovers]

/-- **What `erase` does** with an interval that is in the set, and with another one. -/
theorem erase_cases (hw : Wf s.m) (hlen : 0 < len) (hbound : start + len < 2 ^ 64) :
    ((∀ x, start ≤ x → x < start + len → Covers s.m x) ∧ ∃ t, s.erase start len = some t ∧
      Becomes s t fun x => Covers s.m x ∧ ¬ (start ≤ x ∧ x < start + len)) ∨
    (∃ x, start ≤ x ∧ x < start + len ∧ ¬ Covers s.m x) ∧ s.erase start len = none := by
  obtain ⟨m, size⟩ := s
  obtain ⟨lo, hi, rfl, hfind, hlo, hhi⟩ := findInc_cut hw start
  have hbelow : ∀ x, start ≤ x → ¬ Covers lo x := by
    rintro x hx ⟨p, hp, -, hlt⟩
    have := hlo p hp
    omega
  simp only [IntervalSet.erase, hfind, getElem?_append_right (Nat.le_refl _), Nat.sub_self]
  cases hi with
  | nil => exact .inr ⟨⟨start, le_rfl, by omega, by simpa using hbelow start le_rfl⟩, rfl⟩
  | cons p hi =>
    obtain ⟨f, l⟩ := p
    obtain ⟨hbef, hnext⟩ := hw.sides
    have hfl : f + l < 2 ^ 64 := hw.bound (f, l) (by simp)
    have hend : start < f + l := hhi (f, l) mem_cons_self
    have hbehind : ∀ x, x ≤ f + l → ¬ Covers hi x := by
      rintro x hx ⟨p, hp, hle, -⟩
      have := hnext p hp
      omega
    simp only [getElem?_cons_zero, u64_eq hbound, u64_eq (show start - f + len < 2 ^ 64 by omega)]
    by_cases hin : f ≤ start ∧ start - f + len ≤ l
    · obtain ⟨b, rfl⟩ := Nat.exists_eq_add_of_le hin.1
      rw [Nat.add_sub_cancel_left] at hin ⊢
      obtain ⟨a, rfl⟩ := Nat.exists_eq_add_of_le hin.2
      have hset : ∀ v, (lo ++ (f, b + len + a) :: hi).set lo.length v = lo ++ v :: hi := fun v => by simp
      have herase : (lo ++ (f, b + len + a) :: hi).eraseIdx lo.length = lo ++ hi := by
        rw [eraseIdx_append_of_length_le (Nat.le_refl _), Nat.sub_self, eraseIdx_cons_zero]
      have hafter : b + len + a - b - len = a := by omega
      have hput : ∀ p ∈ lo ++ [(f, b)], p.1 < f + b + len := fun p hp => by
        rcases List.mem_append.mp hp with hp | hp
        · have := hbef p hp
          omega
        · rw [List.mem_singleton.mp hp]
          omega
      rw [if_pos hin, hset, herase, hafter, put_leftovers hput fun p hp => by have := hnext p hp; omega]
      have hpieces : ∀ p ∈ leftovers f b (f + b + len) a, f ≤ p.1 ∧ p.1 + p.2 ≤ f + (b + len + a) := fun p hp => by
        rcases mem_leftovers hp with ⟨-, rfl⟩ | ⟨-, rfl⟩ <;> dsimp only <;> omega
      have hin' : ∀ x, f + b ≤ x → x < f + b + len → Covers (lo ++ (f, b + len + a) :: hi) x := fun x h1 h2 =>
        ⟨(f, b + len + a), by simp, show f ≤ x by omega, show x < f + _ by omega⟩
      have hwf : Wf (lo ++ (leftovers f b (f + b + len) a ++ hi)) := by
        refine hw.replace [(f, b + len + a)] ⟨fun p hp => ?_, fun p hp => ?_, ?_⟩ (fun p hp q hq => ?_) (fun q hq p hp => ?_)
        · rcases mem_leftovers hp with ⟨h, rfl⟩ | ⟨h, rfl⟩ <;> exact Nat.pos_of_ne_zero h
        · exact (hpieces p hp).2.trans_lt hfl
        · by_cases hb : b = 0 <;> by_cases ha : a = 0 <;> simp [leftovers, hb, ha, hlen]
        · exact (hbef p hp).trans_le (hpieces q hq).1
        · exact (hpieces q hq).2.trans_lt (hnext p hp)
      have hcov : ∀ x, Covers (lo ++ (leftovers f b (f + b + len) a ++ hi)) x ↔
          Covers (lo ++ (f, b + len + a) :: hi) x ∧ ¬ (f + b ≤ x ∧ x < f + b + len) := fun x => by
        have hleft : Covers (leftovers f b (f + b + len) a) x ↔
            Holds x (f, b + len + a) ∧ ¬ (f + b ≤ x ∧ x < f + b + len) := by
          by_cases hb : b = 0 <;> by_cases ha : a = 0 <;> simp [leftovers, hb, ha, Holds, covers_nil] <;> omega
        have hx : f + b ≤ x ∧ x < f + b + len → ¬ Covers lo x ∧ ¬ Covers hi x := fun ⟨h1, h2⟩ =>
          ⟨hbelow x h1, hbehind x (by omega)⟩
        simp only [covers_append, covers_cons, hleft]
        tauto
      exact .inl ⟨hin', _, rfl, .of_removed hw hin' rfl ⟨hwf, hcov⟩⟩
    · rw [if_neg hin]
      refine .inr ⟨?_, rfl⟩
      have hout : ∀ x, start ≤ x → x ≤ f + l → ¬ (f ≤ x ∧ x < f + l) → ¬ Covers (lo ++ (f, l) :: hi) x := fun x h1 h2 h3 => by
        rw [covers_append, covers_cons, not_or, not_or]
        exact ⟨hbelow x h1, h3, hbehind x h2⟩
      by_cases hle : f ≤ start
      · exact ⟨f + l, by omega, by omega, hout _ (by omega) le_rfl (by omega)⟩
      · exact ⟨start, le_rfl, by omega, hout _ le_rfl (by omega) (by omega)⟩

/-- **What `erase` does.** A piece of one interval is taken out of the set. -/
theorem erase_spec (hw : Wf s.m) (hlen : 0 < len) {p : ℕ × ℕ} (hp : p ∈ s.m) (hle : p.1 ≤ start)
    (hend : start + len ≤ p.1 + p.2) :
    ∃ t, s.erase start len = some t ∧ Becomes s t fun x => Covers s.m x ∧ ¬ (start ≤ x ∧ x < start + len) := by
  rcases erase_cases hw hlen (hend.trans_lt (hw.bound p hp)) with ⟨-, h⟩ | ⟨⟨x, h1, h2, h3⟩, -⟩
  · exact h
  · exact absurd ⟨p, hp, hle.trans h1, h2.trans_le hend⟩ h3

end change

/-! ### The lowest number -/

theorem start_spec {s : IntervalSet} (hw : Wf s.m) {x : ℕ} (h : s.start = some x) :
    ∃ p ∈ s.m, p.1 = x ∧ 0 < p.2 ∧ ∀ y, Covers s.m y → x ≤ y := by
  obtain ⟨p, hp, rfl⟩ := Option.map_eq_some_iff.mp h
  obtain ⟨rest, hm⟩ := head?_eq_some_iff.mp hp
  have hmem : p ∈ s.m := hm ▸ mem_cons_self
  refine ⟨p, hmem, rfl, hw.pos p hmem, ?_⟩
  rintro y ⟨q, hq, hle, -⟩
  have hpw := hw.apart
  rw [hm] at hq hpw
  obtain rfl | hq := mem_cons.mp hq
  · exact hle
  · have := rel_of_pairwise_cons hpw hq
    omega

end IntervalSet
end Ceph
