/-
# Ordered maps of values that know their keys

An ordered map whose values carry their own keys is the list of the values, sorted by
key. An iterator is the key of what it points to, or `none` at the end; one to
a value that was erased can no more be moved. Where a list is cut at a value, each
operation is one on the lists before and after it.

Key definitions: `Sorted`, `find`, `lowerBound`, `next`, `prev`, `insert`, `erase`, `modify`.
Key theorems: `find_cut`, `next_cut`, `prev_cut`, `erase_cut`, `modify_cut`, `insert_cut`, `insert_replace`, `insert_perm`, `erase_perm`, `lowerBound_cut`, `filters_cut`.
-/
import Mathlib.Algebra.Order.Group.Nat
import Mathlib.Data.List.DropRight

namespace Ceph
namespace Keyed

open List

variable {α : Type} (key : α → ℕ)

/-- The keys are in order, and differ. -/
def Sorted (l : List α) : Prop := l.Pairwise fun a b => key a < key b

instance (l : List α) : Decidable (Sorted key l) := inferInstanceAs (Decidable (l.Pairwise fun a b => key a < key b))

def find (k : ℕ) (l : List α) : Option α := l.find? fun a => key a = k

/-- An iterator to the first. -/
def first (l : List α) : Option ℕ := l.head?.map key

/-- An iterator to the first with a key of `x` or more. -/
def lowerBound (x : ℕ) (l : List α) : Option ℕ := (l.find? fun a => x ≤ key a).map key

/-- An iterator to the one after; `none` if there is nothing at `k`. -/
def next (k : ℕ) (l : List α) : Option (Option ℕ) :=
  if k ∈ l.map key then some ((l.find? fun a => k < key a).map key) else none

/-- An iterator to the one before; `none` at the first. -/
def prev (p : Option ℕ) (l : List α) : Option ℕ := ((l.filter fun a => p.all (key a < ·)).getLast?).map key

def insert (a : α) (l : List α) : List α := (l.filter fun b => key b < key a) ++ a :: l.filter fun b => key a < key b

def erase (k : ℕ) (l : List α) : List α := l.filter fun a => key a ≠ k

def modify (k : ℕ) (f : α → α) (l : List α) : List α := l.map fun a => if key a = k then f a else a

variable {key} {pre post l : List α} {a b : α} {k x : ℕ} {f : α → α}

theorem sorted_cut : Sorted key (pre ++ a :: post) ↔
    Sorted key pre ∧ Sorted key post ∧ (∀ b ∈ pre, key b < key a) ∧ (∀ b ∈ post, key a < key b) ∧
      ∀ b ∈ pre, ∀ c ∈ post, key b < key c := by
  rw [Sorted, pairwise_append, pairwise_cons]
  constructor
  · rintro ⟨hpre, ⟨ha, hpost⟩, hcross⟩
    exact ⟨hpre, hpost, fun b hb => hcross b hb a mem_cons_self, ha,
      fun b hb c hc => hcross b hb c (mem_cons_of_mem _ hc)⟩
  · rintro ⟨hpre, hpost, hb, ha, hcross⟩
    exact ⟨hpre, ⟨ha, hpost⟩, fun b hb' => forall_mem_cons.mpr ⟨hb b hb', hcross b hb'⟩⟩

theorem forall_mem_cut {P : α → Prop} : (∀ b ∈ pre ++ a :: post, P b) ↔ P a ∧ ∀ b ∈ pre ++ post, P b := by
  rw [forall_mem_append, forall_mem_cons, forall_mem_append]
  exact and_left_comm

theorem find_isSome (h : find key k l = some a) : ∃ pre post, l = pre ++ a :: post ∧ key a = k := by
  obtain ⟨hk, pre, post, hl, -⟩ := find?_eq_some_iff_append.mp h
  exact ⟨pre, post, hl, by simpa using hk⟩

section cut

variable (hs : Sorted key (pre ++ a :: post))

include hs

theorem before_lt : ∀ b ∈ pre, key b < key a := (sorted_cut.mp hs).2.2.1

theorem lt_after : ∀ b ∈ post, key a < key b := (sorted_cut.mp hs).2.2.2.1

theorem find_cut : find key (key a) (pre ++ a :: post) = some a := by
  have hpre : pre.find? (fun b => key b = key a) = none :=
    find?_eq_none.mpr fun b hb => by simpa using (before_lt hs b hb).ne
  rw [find, find?_append, hpre, find?_cons_of_pos (by simp)]
  rfl

theorem next_cut : next key (key a) (pre ++ a :: post) = some (first key post) := by
  have hpre : pre.find? (fun b => key a < key b) = none :=
    find?_eq_none.mpr fun b hb => by simpa using (before_lt hs b hb).le
  have hpost : post.find? (fun b => key a < key b) = post.head? := by
    cases post with
    | nil => rfl
    | cons b post => rw [find?_cons_of_pos (by simpa using lt_after hs b mem_cons_self), head?_cons]
  rw [next, if_pos (by simp), find?_append, hpre, find?_cons_of_neg (by simp), hpost]
  rfl

theorem prev_cut : prev key (some (key a)) (pre ++ a :: post) = pre.getLast?.map key := by
  have hpre : pre.filter (fun b => (some (key a)).all (key b < ·)) = pre :=
    filter_eq_self.mpr fun b hb => by simpa using before_lt hs b hb
  have hpost : post.filter (fun b => (some (key a)).all (key b < ·)) = [] :=
    filter_eq_nil_iff.mpr fun b hb => by simpa using (lt_after hs b hb).le
  rw [prev, filter_append, hpre, filter_cons_of_neg (by simp), hpost, append_nil]

theorem erase_cut : erase key (key a) (pre ++ a :: post) = pre ++ post := by
  have hpre : pre.filter (fun b => key b ≠ key a) = pre :=
    filter_eq_self.mpr fun b hb => by simpa using (before_lt hs b hb).ne
  have hpost : post.filter (fun b => key b ≠ key a) = post :=
    filter_eq_self.mpr fun b hb => by simpa using (lt_after hs b hb).ne'
  rw [erase, filter_append, hpre, filter_cons_of_neg (by simp), hpost]

theorem modify_cut (f : α → α) : modify key (key a) f (pre ++ a :: post) = pre ++ f a :: post := by
  have hself : ∀ l : List α, (∀ b ∈ l, key b ≠ key a) → l.map (fun b => if key b = key a then f b else b) = l :=
    fun l hl =>
    (map_congr_left fun b hb => if_neg (hl b hb)).trans (List.map_id l)
  rw [modify, map_append, map_cons, if_pos rfl, hself pre fun b hb => (before_lt hs b hb).ne,
    hself post fun b hb => (lt_after hs b hb).ne']

end cut

theorem find_mem (hs : Sorted key l) (ha : a ∈ l) : find key (key a) l = some a := by
  obtain ⟨pre, post, rfl⟩ := append_of_mem ha
  exact find_cut hs

theorem find_second (hs : Sorted key (pre ++ a :: b :: post)) : find key (key b) (pre ++ a :: b :: post) = some b := by
  rw [append_cons] at hs ⊢
  exact find_cut hs

theorem lt_after_second (hs : Sorted key (pre ++ a :: b :: post)) : ∀ c ∈ post, key b < key c := by
  rw [append_cons] at hs
  exact lt_after hs

theorem prev_end (l : List α) : prev key none l = l.getLast?.map key := by
  have hall : l.filter (fun a => (none : Option ℕ).all (key a < ·)) = l := filter_eq_self.mpr fun _ _ => rfl
  rw [prev, hall]

theorem insert_cut (hpre : ∀ b ∈ pre, key b < key a) (hpost : ∀ b ∈ post, key a < key b) :
    insert key a (pre ++ post) = pre ++ a :: post := by
  have h1 : pre.filter (fun b => key b < key a) = pre := filter_eq_self.mpr fun b hb => by simpa using hpre b hb
  have h2 : post.filter (fun b => key b < key a) = [] :=
    filter_eq_nil_iff.mpr fun b hb => by simpa using (hpost b hb).le
  have h3 : pre.filter (fun b => key a < key b) = [] :=
    filter_eq_nil_iff.mpr fun b hb => by simpa using (hpre b hb).le
  have h4 : post.filter (fun b => key a < key b) = post := filter_eq_self.mpr fun b hb => by simpa using hpost b hb
  rw [insert, filter_append, filter_append, h1, h2, h3, h4, append_nil, nil_append]

theorem insert_replace (hs : Sorted key (pre ++ b :: post)) (h : key a = key b) :
    insert key a (pre ++ b :: post) = pre ++ a :: post := by
  have hpre : pre.filter (fun c => key c < key a) = pre :=
    filter_eq_self.mpr fun c hc => by simpa [h] using before_lt hs c hc
  have hpost : (b :: post).filter (fun c => key c < key a) = [] := by
    refine filter_eq_nil_iff.mpr (forall_mem_cons.mpr ⟨by simp [h], fun c hc => ?_⟩)
    simpa [h] using (lt_after hs c hc).le
  have hpre' : pre.filter (fun c => key a < key c) = [] :=
    filter_eq_nil_iff.mpr fun c hc => by simpa [h] using (before_lt hs c hc).le
  have hpost' : (b :: post).filter (fun c => key a < key c) = post := by
    rw [filter_cons_of_neg (by simp [h])]
    exact filter_eq_self.mpr fun c hc => by simpa [h] using lt_after hs c hc
  rw [insert, filter_append, filter_append, hpre, hpost, hpre', hpost', append_nil, nil_append]

theorem mem_insert : b ∈ insert key a l ↔ b = a ∨ (b ∈ l ∧ key b ≠ key a) := by
  have hne : key b ≠ key a ↔ key b < key a ∨ key a < key b := ne_iff_lt_or_gt
  rw [insert, mem_append, mem_cons, mem_filter, mem_filter, decide_eq_true_iff,
    decide_eq_true_iff, or_left_comm, hne, and_or_left]

theorem lowerBound_cut (hpre : ∀ b ∈ pre, key b < x) (hpost : ∀ b ∈ post, x ≤ key b) :
    lowerBound key x (pre ++ post) = first key post := by
  have h1 : pre.find? (fun b => x ≤ key b) = none := find?_eq_none.mpr fun b hb => by simpa using hpre b hb
  have h2 : post.find? (fun b => x ≤ key b) = post.head? := by
    cases post with
    | nil => rfl
    | cons b post => rw [find?_cons_of_pos (by simpa using hpost b mem_cons_self), head?_cons]
  rw [lowerBound, find?_append, h1, Option.none_or, h2]
  rfl

theorem exists_lower_cut (hs : Sorted key l) (x : ℕ) :
    ∃ pre post, l = pre ++ post ∧ (∀ b ∈ pre, key b < x) ∧ ∀ b ∈ post, x ≤ key b := by
  induction l with
  | nil => exact ⟨[], [], rfl, nofun, nofun⟩
  | cons a l ih =>
    obtain ⟨hafter, hs⟩ := pairwise_cons.mp hs
    rcases lt_or_ge (key a) x with hlow | hhigh
    · obtain ⟨pre, post, rfl, hpre, hpost⟩ := ih hs
      exact ⟨a :: pre, post, rfl, forall_mem_cons.mpr ⟨hlow, hpre⟩, hpost⟩
    · exact ⟨[], a :: l, rfl, nofun, forall_mem_cons.mpr ⟨hhigh, fun b hb => hhigh.trans (hafter b hb).le⟩⟩

theorem filters_cut (hpre : ∀ b ∈ pre, key b < x) (hpost : ∀ b ∈ post, x ≤ key b) :
    ((pre ++ post).filter fun a => key a < x) = pre ∧ ((pre ++ post).filter fun a => x ≤ key a) = post := by
  constructor
  · rw [filter_append, filter_eq_self.mpr fun b hb => by simpa using hpre b hb,
      filter_eq_nil_iff.mpr fun b hb => by simpa using hpost b hb, append_nil]
  · rw [filter_append, filter_eq_nil_iff.mpr fun b hb => by simpa using hpre b hb,
      filter_eq_self.mpr fun b hb => by simpa using hpost b hb, nil_append]

theorem filter_cut (hs : Sorted key l) (x : ℕ) : (l.filter fun a => key a < x) ++ (l.filter fun a => x ≤ key a) = l := by
  obtain ⟨pre, post, rfl, hpre, hpost⟩ := exists_lower_cut hs x
  obtain ⟨h1, h2⟩ := filters_cut hpre hpost
  rw [h1, h2]

theorem sorted_insert (hs : Sorted key l) : Sorted key (insert key a l) := by
  have hlt : ∀ b ∈ l.filter fun b => key b < key a, key b < key a := fun b hb => by simpa using (mem_filter.mp hb).2
  have hgt : ∀ b ∈ l.filter fun b => key a < key b, key a < key b := fun b hb => by simpa using (mem_filter.mp hb).2
  exact sorted_cut.mpr ⟨List.Pairwise.filter _ hs, List.Pairwise.filter _ hs, hlt, hgt, fun b hb c hc => (hlt b hb).trans (hgt c hc)⟩

theorem insert_perm (hs : Sorted key l) (hnew : ∀ b ∈ l, key b ≠ key a) : (insert key a l).Perm (a :: l) := by
  have hge : (l.filter fun b => key a < key b) = l.filter fun b => key a ≤ key b :=
    filter_congr fun b hb => by simp [lt_iff_le_and_ne, (hnew b hb).symm]
  rw [insert, hge]
  exact perm_middle.trans ((filter_cut hs (key a)).symm ▸ .refl _)

theorem erase_perm (hs : Sorted key l) (ha : a ∈ l) : l.Perm (a :: erase key (key a) l) := by
  obtain ⟨pre, post, rfl⟩ := append_of_mem ha
  rw [erase_cut hs]
  exact perm_middle

theorem cut_unique {pre' post' : List α} (hs : Sorted key (pre ++ a :: post))
    (h : pre ++ a :: post = pre' ++ a :: post') : pre = pre' ∧ post = post' := by
  have hpre : a ∉ pre := fun hmem => (before_lt hs a hmem).false
  have hpost : a ∉ post := fun hmem => (lt_after hs a hmem).false
  obtain ⟨heq, -, heq'⟩ := (append_cons_inj_of_notMem hpre hpost).mp h
  exact ⟨heq, heq'⟩

/-- What is left when those from `x` on are dropped from the end. -/
theorem rdropWhile_lt (hs : Sorted key l) (x : ℕ) : ∀ b ∈ l.rdropWhile fun b => x ≤ key b, key b < x := by
  induction l using List.reverseRecOn with
  | nil => exact nofun
  | append_singleton l a ih =>
    obtain ⟨hl, -, hla⟩ := pairwise_append.mp hs
    by_cases hx : x ≤ key a
    · rw [rdropWhile_concat_pos _ _ _ (by simpa using hx)]
      exact ih hl
    · rw [rdropWhile_concat_neg _ _ _ (by simpa using hx)]
      refine forall_mem_append.mpr ⟨fun b hb => ?_, forall_mem_singleton.mpr (not_le.mp hx)⟩
      exact (hla b hb a (mem_singleton_self a)).trans (not_le.mp hx)

theorem next_erase {j : ℕ} (hf : ∀ b, key b = j → key (f b) = j) :
    next key k (modify key j f (erase key k l)) = none := by
  refine if_neg fun hmem => ?_
  obtain ⟨b, hb, hkey⟩ := List.mem_map.mp hmem
  obtain ⟨c, hc, rfl⟩ := List.mem_map.mp hb
  have hne : key c ≠ k := by simpa using (mem_filter.mp hc).2
  split_ifs at hkey with hj
  · exact hne (hj.trans ((hf c hj).symm.trans hkey))
  · exact hne hkey

end Keyed
end Ceph
