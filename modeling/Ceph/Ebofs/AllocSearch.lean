/-
# Where `allocate` finds space

`find` goes through a table from the hint on to the right, and then to the left. Where the hint lies between two
leaves, `find` of the table says that it is behind all keys, and nothing to the right is seen.

If no extent that is seen is long enough, half of what is asked for is tried, and so on, but each size only in the
table of its own bucket. An extent that is longer than the sizes of its bucket that are tried is
passed over, and so is a shorter one; then `allocate` takes the device for full.
-/
import Ceph.Ebofs.FreeSpace
import Ceph.Ebofs.Table

namespace Ceph
namespace Ebofs
namespace Allocator

open List Option
open Btree (Table Cursor Node current InGap At)

/-! ### The code -/

/-- Look to the right: the item of the cursor, and those behind it. -/
def findRight (t : Table ℕ ℕ) (num : ℕ) : ℕ → Cursor ℕ ℕ → Option Extent
  | 0, _ => none
  | fuel + 1, c =>
    match current c with
    | some (k, v) =>
      if num ≤ v then some ⟨k, v⟩ else if 0 < (t.moveRight c).1 then findRight t num fuel (t.moveRight c).2 else none
    | none => none

/-- Look to the left: the items before the cursor. -/
def findLeft (t : Table ℕ ℕ) (num : ℕ) : ℕ → Cursor ℕ ℕ → Option Extent
  | 0, _ => none
  | fuel + 1, c =>
    if 0 ≤ (t.moveLeft c).1 then
      match current (t.moveLeft c).2 with
      | some (k, v) => if num ≤ v then some ⟨k, v⟩ else findLeft t num fuel (t.moveLeft c).2
      | none => none
    else none

/-- `find`. No item comes twice. -/
def find (t : Table ℕ ℕ) (num near : ℕ) (dir : Dir) : Option Extent :=
  (if dir ≠ .back ∧ 0 ≤ (t.find near).1 then findRight t num t.nkeys (t.find near).2 else none).or
    (if dir ≠ .fwd then findLeft t num t.nkeys (t.find near).2 else none)

/-! ### What it sees -/

/-- An item of a free table. -/
def item (a : ℕ × ℕ) : Extent := ⟨a.1, a.2⟩

/-- The trees have what the tables should. -/
structure Stored (s : Space) (tabs : Fin 5 → Table ℕ ℕ) : Prop where
  wf : ∀ b, (tabs b).Wf
  items : ∀ b, s.freeTab b = (tabs b).leaves.flatten.map item

/-- An item that comes up, if it is long enough. -/
def Seen (t : Table ℕ ℕ) (near : ℕ) (dir : Dir) (e : Extent) : Prop :=
  if near ≤ e.start then dir ≠ .back ∧ ¬ InGap t near else dir ≠ .fwd

section search

variable {t : Table ℕ ℕ} {num near fuel : ℕ} {dir : Dir} {c : Cursor ℕ ℕ} {pre post : List (List (ℕ × ℕ))}
  {l : List (ℕ × ℕ)} {p : ℕ}

theorem findRight_eq (hwf : t.Wf) (h : At t.pool t.depth t.root c pre l post p) (hp : p < l.length)
    (hfuel : (l.drop p ++ post.flatten).length ≤ fuel) :
    findRight t num fuel c = ((l.drop p ++ post.flatten).find? fun a => num ≤ a.2).map item := by
  induction fuel generalizing c pre l post p with
  | zero =>
    rw [drop_eq_getElem_cons hp] at hfuel
    exact absurd hfuel (Nat.not_succ_le_zero _)
  | succ fuel ih =>
    rw [drop_eq_getElem_cons hp, cons_append, length_cons] at hfuel
    rw [findRight, h.current_eq hp, drop_eq_getElem_cons hp, cons_append]
    dsimp only
    by_cases hfit : num ≤ l[p].2
    · rw [if_pos hfit, find?_cons_of_pos (by simpa using hfit)]
      rfl
    rw [if_neg hfit, find?_cons_of_neg (by simpa using hfit)]
    rcases Btree.moveRight_item hwf h hp with ⟨c', pre', l', post', p', hmove, hat, hp', hrest⟩ | ⟨hend, rfl, hstop⟩
    · rw [hrest] at hfuel ⊢
      rw [hmove, if_pos one_pos]
      exact ih hat hp' (Nat.le_of_succ_le_succ hfuel)
    · rw [hstop, if_neg (lt_irrefl 0), drop_eq_nil_of_le hend]
      rfl

theorem findLeft_eq (hwf : t.Wf) (h : At t.pool t.depth t.root c pre l post p) (hp : p ≤ l.length)
    (hfuel : (pre.flatten ++ l.take p).length ≤ fuel) :
    findLeft t num fuel c = ((pre.flatten ++ l.take p).reverse.find? fun a => num ≤ a.2).map item := by
  have hd := h.depth_ne_zero
  induction fuel generalizing c pre l post p with
  | zero =>
    rw [eq_nil_of_length_eq_zero (Nat.le_zero.mp hfuel)]
    rfl
  | succ fuel ih =>
    obtain ⟨hsame, hend, hnext⟩ := Btree.retreat_at (hwf.shaped hd) h
    -- one to the left is the item `a`, and there it goes on
    have hgo : ∀ {c' pre' l' post' p'}, Btree.retreat t.pool c = some c' → At t.pool t.depth t.root c' pre' l' post' p' →
        (hp' : p' < l'.length) → pre.flatten ++ l.take p = (pre'.flatten ++ l'.take p') ++ [l'[p']] →
        findLeft t num (fuel + 1) c = ((pre.flatten ++ l.take p).reverse.find? fun a => num ≤ a.2).map item := by
      intro c' pre' l' post' p' hret hat hp' hcut
      rw [hcut, length_append, length_singleton] at hfuel
      rw [findLeft, Table.moveLeft, if_neg hd, hret]
      rw [if_pos Int.one_nonneg, hat.current_eq hp', hcut, reverse_concat]
      dsimp only
      by_cases hfit : num ≤ l'[p'].2
      · rw [if_pos hfit, find?_cons_of_pos (by simpa using hfit)]
        rfl
      · rw [if_neg hfit, find?_cons_of_neg (by simpa using hfit)]
        exact ih hat hp'.le (Nat.le_of_succ_le_succ hfuel)
    rcases eq_zero_or_pos p with rfl | hpos
    · rcases eq_nil_or_concat' pre with rfl | ⟨pre', l', rfl⟩
      · rw [findLeft, Table.moveLeft, if_neg hd, hend rfl rfl]
        exact if_neg (show ¬ 0 ≤ Cursor.OOB by decide)
      · obtain ⟨c', hret, hat⟩ := hnext rfl pre' l' rfl
        have hne : 0 < l'.length := length_pos_iff.mpr (hwf.full l' (by rw [Table.leaves, h.leaves_eq]; simp))
        refine hgo hret hat (Nat.sub_lt hne one_pos) ?_
        rw [flatten_append, flatten_singleton, take_zero, append_nil, append_assoc,
          take_concat_get', Nat.sub_add_cancel hne, take_length]
    · obtain ⟨c', hret, hat⟩ := hsame hpos
      refine hgo hret hat (by omega) ?_
      rw [append_assoc, take_concat_get', Nat.sub_add_cancel hpos]

/-- **The search of a table** gives an extent that it sees, if there is one that is long enough. -/
theorem find_spec (hwf : t.Wf) :
    (∀ e, find t num near dir = some e → e ∈ t.leaves.flatten.map item ∧ num ≤ e.length ∧ Seen t near dir e) ∧
      (find t num near dir = none → ∀ e ∈ t.leaves.flatten.map item, Seen t near dir e → e.length < num) := by
  classical
  by_cases hd : t.depth = 0
  · have hnil : t.leaves = [] := by rw [Table.leaves, hd]; rfl
    have hfind : t.find near = (Cursor.OOB, []) := by rw [Table.find, if_pos hd]
    have hleft : findLeft t num t.nkeys [] = none := by
      rw [hwf.count, Table.keys, hnil]
      rfl
    have hnone : find t num near dir = none := by
      rw [find, hfind, hleft, if_neg fun hcon => absurd hcon.2 (by decide)]
      simp
    rw [hnone, hnil]
    exact ⟨fun e he => (by cases he), fun _ e he => (by cases he)⟩
  obtain ⟨pre, l, post, p, h⟩ := @Btree.findFrom_lands _ _ _ _ _ _ near (hwf.shaped hd) hwf.sorted
  have hfind := h.find_eq hwf hd
  have hleaves : t.leaves = pre ++ l :: post := h.at_pos.leaves_eq
  have hcut : t.leaves.flatten = (pre.flatten ++ l.take p) ++ (l.drop p ++ post.flatten) := by
    rw [hleaves, flatten_append, flatten_cons, append_assoc, ← append_assoc (l.take p),
      take_append_drop]
  have hcount : t.nkeys = (pre.flatten ++ l.take p).length + (l.drop p ++ post.flatten).length := by
    rw [hwf.count, Table.keys, length_map, hcut, length_append]
  have hlow : ∀ a ∈ pre.flatten ++ l.take p, a.1 < near := forall_mem_append.mpr ⟨h.before, h.below⟩
  have hhigh : ∀ a ∈ l.drop p ++ post.flatten, near ≤ a.1 := forall_mem_append.mpr
    ⟨h.above, fun a ha => (h.behind a ha).le⟩
  -- to the right, nothing is seen from behind a leaf
  have hright : (if dir ≠ .back ∧ 0 ≤ (t.find near).1 then findRight t num t.nkeys (t.find near).2 else none) =
      if dir ≠ .back ∧ ¬ InGap t near then ((l.drop p ++ post.flatten).find? fun a => num ≤ a.2).map item else none := by
    rw [h.inGap_iff hwf, hfind]
    rcases h.le_length.eq_or_lt with heq | hlt
    · rw [drop_eq_nil_of_le heq.ge, if_neg fun hcon => absurd hcon.2 (show ¬ 0 ≤ Cursor.OOB by decide)]
      by_cases hpost : post = [] <;> simp [heq, hpost]
    · have hres : 0 ≤ Btree.resultAt near (l.drop p) := by
        rw [drop_eq_getElem_cons hlt, Btree.resultAt]
        split <;> decide
      rw [findRight_eq hwf h.at_pos hlt (by omega)]
      simp [hres, hlt.ne]
  have hleft : findLeft t num t.nkeys (t.find near).2 =
      ((pre.flatten ++ l.take p).reverse.find? fun a => num ≤ a.2).map item := by
    rw [hfind]
    exact findLeft_eq hwf h.at_pos h.le_length (by omega)
  rw [find, hright, hleft, hcut]
  constructor
  · intro e he
    rcases or_eq_some_iff.mp he with he | ⟨-, he⟩
    · obtain ⟨hdir, he⟩ := ite_none_right_eq_some.mp he
      obtain ⟨a, ha, rfl⟩ := map_eq_some_iff.mp he
      have hmem := mem_of_find?_eq_some ha
      exact ⟨mem_map_of_mem (mem_append_right _ hmem), by simpa [item] using find?_some ha,
        (if_pos (hhigh a hmem)).mpr hdir⟩
    · obtain ⟨hdir, he⟩ := ite_none_right_eq_some.mp he
      obtain ⟨a, ha, rfl⟩ := map_eq_some_iff.mp he
      have hmem := mem_reverse.mp (mem_of_find?_eq_some ha)
      exact ⟨mem_map_of_mem (mem_append_left _ hmem), by simpa [item] using find?_some ha,
        (if_neg (not_le.mpr (hlow a hmem))).mpr hdir⟩
  · intro hnone e he hseen
    obtain ⟨hnoright, hnoleft⟩ := or_eq_none_iff.mp hnone
    obtain ⟨a, ha, rfl⟩ := mem_map.mp he
    rcases mem_append.mp ha with ha | ha
    · rw [if_pos ((if_neg (not_le.mpr (hlow a ha))).mp hseen)] at hnoleft
      simpa [item] using find?_eq_none.mp (map_eq_none_iff.mp hnoleft) a (mem_reverse.mpr ha)
    · rw [if_pos ((if_pos (hhigh a ha)).mp hseen)] at hnoright
      simpa [item] using find?_eq_none.mp (map_eq_none_iff.mp hnoright) a ha

end search

/-! ### What `allocate` gives -/

/-- An extent is returned, of the full length if there is one that is long enough. -/
def Served (s : Space) (num : ℕ) (r : Option (Extent × Space)) : Prop :=
  ∃ ex s', r = some (ex, s') ∧ 1 ≤ ex.length ∧ ex.length ≤ num ∧ ((∃ e ∈ s.all, num ≤ e.length) → ex.length = num)

/-- The extent does not lie behind a gap that the hint is in. -/
def Reached (s : Space) (tabs : Fin 5 → Table ℕ ℕ) (near : ℕ) (e : Extent) : Prop :=
  (hint near s).1 ≤ e.start → ¬ InGap (tabs (pickBucket e.length)) (hint near s).1

/-- An extent is reached that is long enough; or there is none, but one is reached in a bucket of
a half, a quarter and so on of what is asked for, and is no shorter than that. -/
def Lucky (s : Space) (tabs : Fin 5 → Table ℕ ℕ) (num near : ℕ) : Prop :=
  (∃ e ∈ s.all, num ≤ e.length ∧ Reached s tabs near e) ∨
    (∀ e ∈ s.all, e.length < num) ∧ ∃ i, 1 ≤ num / 2 ^ (i + 1) ∧
      ∃ e ∈ s.freeTab (pickBucket (num / 2 ^ (i + 1))), num / 2 ^ (i + 1) ≤ e.length ∧ Reached s tabs near e

section serve

variable {s : Space} {tabs : Fin 5 → Table ℕ ℕ} {num near m n fuel : ℕ} {b : Fin 5} {e : Extent} {dir : Dir}

theorem bucketLoop_le : m ≤ bucketLoop fuel m n := by
  induction fuel generalizing m n with
  | zero => exact le_rfl
  | succ fuel ih =>
    rw [bucketLoop]
    split_ifs
    · exact (Nat.le_succ m).trans ih
    · exact le_rfl

theorem bucketLoop_mono {fuel' k : ℕ} (h : m ≤ n) (hfuel : n ≤ fuel') : bucketLoop fuel k m ≤ bucketLoop fuel' k n := by
  induction fuel generalizing k m n fuel' with
  | zero => exact bucketLoop_le
  | succ fuel ih =>
    rw [bucketLoop]
    split_ifs with hm
    · obtain ⟨fuel', rfl⟩ := Nat.exists_eq_succ_of_ne_zero (show fuel' ≠ 0 by omega)
      rw [bucketLoop, if_pos (by omega)]
      rw [Nat.shiftRight_eq_div_pow, Nat.shiftRight_eq_div_pow]
      exact ih (Nat.div_le_div_right h) (by omega)
    · exact bucketLoop_le

theorem pickBucket_mono (h : m ≤ n) : pickBucket m ≤ pickBucket n :=
  Fin.mk_le_mk.mpr (min_le_min_right 4 (bucketLoop_mono h le_rfl))

theorem Stored.find (hst : Stored s tabs) :
    (∀ e, find (tabs b) num near dir = some e → e ∈ s.freeTab b ∧ num ≤ e.length ∧ Seen (tabs b) near dir e) ∧
      (find (tabs b) num near dir = none → ∀ e ∈ s.freeTab b, Seen (tabs b) near dir e → e.length < num) := by
  rw [hst.items]
  exact find_spec (hst.wf b)

theorem Stored.tryBuckets_none (h : Partition s) (hst : Stored s tabs)
    (hnone : tryBuckets (fun b => Allocator.find (tabs b)) num near dir = none) (he : e ∈ s.freeTab b)
    (hseen : Seen (tabs b) near dir e) : e.length < num := by
  by_contra hle
  have hb : pickBucket num ≤ b := h.bucket b e he ▸ pickBucket_mono (not_lt.mp hle)
  have hfind := findSome?_eq_none_iff.mp hnone b (mem_filter.mpr ⟨mem_finRange b, by simpa using hb⟩)
  exact hle (hst.find.2 (map_eq_none_iff.mp hfind) e he hseen)

/-- The contiguous search gives an extent that is reached, if there is one. -/
theorem Stored.contiguous (h : Partition s) (hst : Stored s tabs) :
    (∀ b e, contiguous (fun b => Allocator.find (tabs b)) num (hint near s).1 (hint near s).2 = some (b, e) →
      e ∈ s.freeTab b ∧ num ≤ e.length ∧ Reached s tabs near e) ∧
      (contiguous (fun b => Allocator.find (tabs b)) num (hint near s).1 (hint near s).2 = none →
        ∀ e ∈ s.all, Reached s tabs near e → e.length < num) := by
  have hdir : (hint near s).2 ≠ .back := by
    unfold hint
    split_ifs <;> exact nofun
  have htry : ∀ {dir b e}, tryBuckets (fun b => Allocator.find (tabs b)) num (hint near s).1 dir = some (b, e) →
      e ∈ s.freeTab b ∧ num ≤ e.length ∧ Reached s tabs near e := by
    intro dir b e hsome
    obtain ⟨c, -, hsome⟩ := exists_of_findSome?_eq_some hsome
    obtain ⟨f, hfound, heq⟩ := map_eq_some_iff.mp hsome
    obtain ⟨rfl, rfl⟩ := Prod.mk.inj heq
    obtain ⟨he, hle, hseen⟩ := hst.find.1 f hfound
    refine ⟨he, hle, fun hnear => ?_⟩
    rw [h.bucket _ f he]
    exact ((if_pos hnear).mp hseen).2
  constructor
  · intro b e hsome
    rcases or_eq_some_iff.mp hsome with hsome | ⟨-, hsome⟩
    · exact htry hsome
    · exact htry (ite_none_right_eq_some.mp hsome).2
  · intro hnone e he hreached
    obtain ⟨hfirst, hsecond⟩ := or_eq_none_iff.mp hnone
    obtain ⟨b, he⟩ := mem_all.mp he
    rcases lt_or_ge e.start (hint near s).1 with hlow | hhigh
    · by_cases hfwd : (hint near s).2 = .fwd
      · rw [if_pos hfwd] at hsecond
        exact hst.tryBuckets_none h hsecond he ((if_neg (not_le.mpr hlow)).mpr nofun)
      · exact hst.tryBuckets_none h hfirst he ((if_neg (not_le.mpr hlow)).mpr hfwd)
    · refine hst.tryBuckets_none h hfirst he ((if_pos hhigh).mpr ⟨hdir, ?_⟩)
      exact h.bucket b e he ▸ hreached hhigh

/-- The search for a half and so on. -/
theorem Stored.halved (h : Partition s) (hst : Stored s tabs) (hfuel : n ≤ fuel) :
    (∀ b e, halved (fun b => Allocator.find (tabs b)) (hint near s).1 fuel n = some (b, e) →
      e ∈ s.freeTab b ∧ ∃ i, 1 ≤ n / 2 ^ i ∧ b = pickBucket (n / 2 ^ i) ∧ n / 2 ^ i ≤ e.length ∧ Reached s tabs near e) ∧
      (halved (fun b => Allocator.find (tabs b)) (hint near s).1 fuel n = none → ∀ i, 1 ≤ n / 2 ^ i →
        ∀ e ∈ s.freeTab (pickBucket (n / 2 ^ i)), Reached s tabs near e → e.length < n / 2 ^ i) := by
  induction fuel generalizing n with
  | zero =>
    obtain rfl := Nat.le_zero.mp hfuel
    exact ⟨nofun, fun _ i hi => absurd hi (by simp)⟩
  | succ fuel ih =>
    rw [Allocator.halved]
    by_cases hn : 1 ≤ n
    · rw [if_pos hn]
      obtain ⟨hsome, hnone⟩ := ih (show n / 2 ≤ fuel by omega)
      have hhalf : ∀ i, n / 2 / 2 ^ i = n / 2 ^ (i + 1) := fun i => by rw [Nat.div_div_eq_div_mul, ← pow_succ']
      have hreached : ∀ e ∈ s.freeTab (pickBucket n), Reached s tabs near e →
          Seen (tabs (pickBucket n)) (hint near s).1 .any e := fun e he hr => by
        unfold Seen
        split_ifs with hnear
        · exact ⟨nofun, h.bucket _ e he ▸ hr hnear⟩
        · exact nofun
      cases hfind : Allocator.find (tabs (pickBucket n)) n (hint near s).1 .any with
      | some e =>
        refine ⟨fun b f heq => ?_, nofun⟩
        cases heq
        obtain ⟨he, hle, hseen⟩ := hst.find.1 e hfind
        refine ⟨he, 0, by simpa using hn, by simp, by simpa using hle, fun hnear => ?_⟩
        rw [h.bucket _ e he]
        exact ((if_pos hnear).mp hseen).2
      | none =>
        refine ⟨fun b e heq => ?_, fun heq i hi e he hr => ?_⟩
        · obtain ⟨he, i, hi⟩ := hsome b e heq
          exact ⟨he, i + 1, hhalf i ▸ hi⟩
        · rcases i with _ | i
          · rw [Nat.pow_zero, Nat.div_one] at he ⊢
            exact hst.find.2 hfind e he (hreached e he hr)
          · rw [← hhalf] at hi he ⊢
            exact hnone heq i hi e he hr
    · rw [if_neg hn]
      exact ⟨nofun, fun _ i hi => absurd (hi.trans (Nat.div_le_self n _)) hn⟩

/-- **`allocate` gives space** exactly where what it needs is in a bucket that it tries, and is reached there. -/
theorem allocate_serves (h : Partition s) (hst : Stored s tabs) (hnum : 1 ≤ num) :
    Served s num (allocateBy (fun b => find (tabs b)) num near s) ↔ Lucky s tabs num near := by
  have hhalf : ∀ i, num / 2 / 2 ^ i = num / 2 ^ (i + 1) := fun i => by rw [Nat.div_div_eq_div_mul, ← pow_succ']
  obtain ⟨hsome, hnone⟩ := Stored.contiguous h hst
  obtain ⟨hsome', hnone'⟩ := Stored.halved h hst (Nat.div_le_self num 2)
  unfold allocateBy
  dsimp only
  cases hcont : contiguous (fun b => find (tabs b)) num (hint near s).1 (hint near s).2 with
  | some r =>
    obtain ⟨b, e⟩ := r
    obtain ⟨he, hle, hreached⟩ := hsome b e hcont
    obtain ⟨s', hrun, -⟩ := carve_release (hint near s).1 h he hnum hle
    have hlen := (carve_spec (hint near s).1 hnum hle).1
    refine iff_of_true ⟨(carve num (hint near s).1 e).1, { s' with lastPos := (carve num (hint near s).1 e).1.fin }, ?_,
      hnum.trans hlen.ge, hlen.le, fun _ => hlen⟩ (.inl ⟨e, mem_all.mpr ⟨b, he⟩, hle, hreached⟩)
    dsimp only
    rw [hrun]
    rfl
  | none =>
    have hno : ¬ ∃ e ∈ s.all, num ≤ e.length ∧ Reached s tabs near e := fun ⟨e, he, hle, hr⟩ =>
      absurd hle (not_le.mpr (hnone hcont e he hr))
    rw [Lucky, or_iff_right hno]
    cases hhalved : halved (fun b => find (tabs b)) (hint near s).1 num (num / 2) with
    | some r =>
      obtain ⟨b, e⟩ := r
      obtain ⟨he, i, hi, hb, hle, hr⟩ := hsome' b e hhalved
      rw [hhalf] at hi hb hle
      constructor
      · rintro ⟨ex, s', heq, -, -, hfull⟩
        obtain ⟨hlt, heq⟩ := ite_none_right_eq_some.mp heq
        obtain ⟨rfl, -⟩ := Prod.mk.inj (some.inj heq)
        refine ⟨fun f hf => ?_, i, hi, e, hb ▸ he, hle, hr⟩
        by_contra hcon
        exact hlt.ne (hfull ⟨f, hf, not_lt.mp hcon⟩)
      · rintro ⟨hall, -⟩
        have hlt := hall e (mem_all.mpr ⟨b, he⟩)
        exact ⟨e, _, if_pos hlt, hi.trans hle, hlt.le, fun ⟨f, hf, hcon⟩ => absurd (hall f hf) (not_lt.mpr hcon)⟩
    | none =>
      refine iff_of_false (fun ⟨_, _, hcon, _⟩ => nomatch hcon) fun ⟨_, i, hi, e, he, hle, hr⟩ => ?_
      rw [← hhalf] at hi he hle
      exact absurd hle (not_le.mpr (hnone' hhalved i hi e he hr))

end serve

/-- One extent is free, in a leaf of its bucket. -/
def oneFree (ex : Extent) (b : Fin 5) : Table ℕ ℕ :=
  if b = pickBucket ex.length then ⟨fun _ => .leaf (fun _ => (ex.start, ex.length)) 1, 0, 1, 1⟩
  else ⟨fun _ => .leaf (fun _ => (0, 0)) 0, 0, 0, 0⟩

def oneFreeSpace (ex : Extent) : Space := { start with
  freeTab := fun b => (oneFree ex b).leaves.flatten.map item
  freeBlocks := ex.length }

theorem oneFree_stored (ex : Extent) : Stored (oneFreeSpace ex) (oneFree ex) where
  wf b := by
    unfold oneFree
    split_ifs
    · exact ⟨fun _ => ⟨_, _, rfl⟩, by simp [Table.leaves, Btree.leaves, Node.live], by simp [Table.leaves, Btree.leaves, Node.live],
        by simp [Table.keys, Table.leaves, Btree.leaves, Node.live]⟩
    · exact ⟨fun h => absurd rfl h, fun l hl => (by cases hl), .nil, rfl⟩
  items b := rfl

theorem oneFree_partition {ex : Extent} (hpos : 0 < ex.length) : Partition (oneFreeSpace ex) := by
  have htab : (oneFreeSpace ex).freeTab = Function.update start.freeTab (pickBucket ex.length)
      (Keyed.insert Extent.start ex (start.freeTab (pickBucket ex.length))) := by
    funext b
    by_cases hb : b = pickBucket ex.length
    · subst hb
      simp [oneFreeSpace, oneFree, Table.leaves, Btree.leaves, Node.live, item, start, Keyed.insert]
    · rw [Function.update_of_ne hb]
      simp [oneFreeSpace, oneFree, hb, Table.leaves, Btree.leaves, start]
  exact (inv_start.partition.put hpos fun e he => (by cases he)).congr htab (zero_add _).symm

theorem allocate_serves_whole :
    Served (oneFreeSpace ⟨100, 8⟩) 4 (allocateBy (fun b => find (oneFree ⟨100, 8⟩ b)) 4 50 (oneFreeSpace ⟨100, 8⟩)) ↔
      Lucky (oneFreeSpace ⟨100, 8⟩) (oneFree ⟨100, 8⟩) 4 50 :=
  allocate_serves (oneFree_partition (by decide)) (oneFree_stored _) (by decide)

theorem allocate_full : Partition (oneFreeSpace ⟨100, 2⟩) ∧ 0 < (oneFreeSpace ⟨100, 2⟩).freeBlocks ∧
    allocateBy (fun b => find (oneFree ⟨100, 2⟩ b)) 6 50 (oneFreeSpace ⟨100, 2⟩) = none ∧
    ¬ Served (oneFreeSpace ⟨100, 2⟩) 6 (allocateBy (fun b => find (oneFree ⟨100, 2⟩ b)) 6 50 (oneFreeSpace ⟨100, 2⟩)) := by
  have hnone : allocateBy (fun b => find (oneFree ⟨100, 2⟩ b)) 6 50 (oneFreeSpace ⟨100, 2⟩) = none := by decide
  refine ⟨oneFree_partition (by decide), by decide, hnone, ?_⟩
  exact fun ⟨_, _, hcon, _⟩ => nomatch hcon

end Allocator
end Ebofs
end Ceph
