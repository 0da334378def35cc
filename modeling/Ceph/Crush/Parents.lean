/-
# The tables of parents

`crush_finalize` goes through the items of all buckets in order and notes each
one's bucket, so an item's entry is the last bucket that has it in its array of
items. The array of a tree bucket has places for the nodes that are no leaves;
they hold the number 0, which is that of a device. Device 0 is then noted under
every tree bucket, and its entry is right only if no tree bucket comes after its
own.
-/
import Ceph.Crush.Weights

namespace Ceph
namespace Crush

open List Option
open Inorder

/-! ### Maps that are put together -/

/-- A map of the buckets `bs`, made as `rs` says. -/
structure Assembled (h : Hashes) (rs : List Recipe) (bs : List Bucket) (m : Map) : Prop where
  buckets : ∃ k, m.buckets = bs.map some ++ List.replicate k none
  length : bs.length = rs.length
  made : ∀ (i : ℕ) (r : Recipe), rs[i]? = some r → ∃ b : Bucket, r.make h = some b ∧ bs[i]? = some { b with id := -1 - i }
  maxDevices : m.maxDevices = 0
  rules : m.rules = []
  deviceOffload : m.deviceOffload = none

theorem findIdx_replicate (k : ℕ) : (replicate k (none : Option Bucket)).findIdx (· = none) = 0 := by
  cases k with
  | zero => rfl
  | succ k => simp [replicate_succ, findIdx_cons]

theorem findIdx_buckets (bs : List Bucket) (k : ℕ) :
    (bs.map some ++ replicate k none).findIdx (· = none) = bs.length := by
  induction bs with
  | nil => exact findIdx_replicate k
  | cons b bs ih => simp [findIdx_cons, ih]

variable {bs : List Bucket} {m : Map} {b : Bucket} {h : Hashes} {rs : List Recipe} {item : ℤ}
  {tables : List ℤ × List ℤ}

theorem addBucket_buckets {k : ℕ} (hm : m.buckets = bs.map some ++ replicate k none)
    (b : Bucket) : ∃ k', (addBucket m b).1.buckets =
      (bs ++ [{ b with id := -1 - (bs.length : ℤ) }]).map some ++ replicate k' none := by
  have hset : ∀ k, (bs.map some ++ replicate (k + 1) none).set bs.length (some { b with id := -1 - (bs.length : ℤ) }) =
      (bs ++ [{ b with id := -1 - (bs.length : ℤ) }]).map some ++ replicate k none := by
    intro k
    rw [set_append_right _ _ (by rw [length_map]), length_map, Nat.sub_self, replicate_succ,
      set_cons_zero, map_append, append_assoc]
    rfl
  simp only [addBucket, hm, findIdx_buckets]
  cases k with
  | zero =>
    simp only [replicate_zero, append_nil, length_map, if_true]
    obtain ⟨k, hk⟩ : ∃ k, (if bs.length = 0 then 8 else bs.length) = k + 1 :=
      Nat.exists_eq_succ_of_ne_zero (by split_ifs <;> omega)
    rw [hk]
    exact ⟨k, hset k⟩
  | succ k =>
    rw [if_neg (by simp)]
    exact ⟨k, hset k⟩

theorem Assembled.add (ha : Assembled h rs bs m) {r : Recipe} (hb : r.make h = some b) :
    Assembled h (rs ++ [r]) (bs ++ [{ b with id := -1 - (rs.length : ℤ) }]) (addBucket m b).1 := by
  obtain ⟨k, hk⟩ := ha.buckets
  refine ⟨?_, ?_, ?_, ha.maxDevices, ha.rules, ha.deviceOffload⟩
  · rw [← ha.length]
    exact addBucket_buckets hk b
  · rw [length_append, length_append, ha.length]
    rfl
  · intro i r' hr'
    rcases lt_trichotomy i rs.length with hi | hi | hi
    · rw [getElem?_append_left hi] at hr'
      rw [getElem?_append_left (by rwa [ha.length])]
      exact ha.made i r' hr'
    · subst hi
      rw [getElem?_concat_length, some_inj] at hr'
      subst hr'
      refine ⟨b, hb, ?_⟩
      rw [← ha.length, getElem?_concat_length]
    · rw [getElem?_eq_none (by rw [length_append, length_singleton]; omega)] at hr'
      nomatch hr'

/-- **A map that is put together has the buckets made, numbered in order.** -/
theorem assembled (hm : assemble h rs = some m) : ∃ bs, Assembled h rs bs m := by
  induction rs using reverseRecOn generalizing m with
  | nil =>
    cases hm
    exact ⟨[], ⟨0, rfl⟩, rfl, nofun, rfl, rfl, rfl⟩
  | append_singleton rs r ih =>
    rw [assemble, foldlM_append, bind_eq_bind, bind_eq_some_iff] at hm
    obtain ⟨m', hm', hlast⟩ := hm
    obtain ⟨bs, ha⟩ := ih hm'
    rw [foldlM_cons, bind_eq_bind, bind_eq_some_iff] at hlast
    obtain ⟨m'', hadd, hnil⟩ := hlast
    cases hnil
    obtain ⟨b, hb, rfl⟩ := map_eq_some_iff.mp hadd
    exact ⟨_, ha.add hb⟩

/-! ### What the tables hold -/

/-- The entry of an item. -/
def entry (tables : List ℤ × List ℤ) (item : ℤ) : ℤ :=
  if 0 ≤ item then tables.1.getD item.toNat 0 else tables.2.getD (-1 - item).toNat 0

/-- The tables have a place for the item. -/
def HasPlace (tables : List ℤ × List ℤ) (item : ℤ) : Prop :=
  if 0 ≤ item then item.toNat < tables.1.length else (-1 - item).toNat < tables.2.length

theorem getD_set {l : List ℤ} {i j : ℕ} (v : ℤ) (hj : j < l.length) :
    (l.set i v).getD j 0 = if i = j then v else l.getD j 0 := by
  simp only [getD_eq_getElem?_getD, getElem?_set]
  split_ifs with hij hi
  · rfl
  · omega
  · rfl

theorem hasPlace_noteParent (id it : ℤ) (hp : HasPlace tables item) :
    HasPlace (noteParent id tables it) item := by
  unfold HasPlace noteParent at *
  split_ifs at * <;> simpa using hp

theorem entry_noteParent (id it : ℤ) (hp : HasPlace tables item) :
    entry (noteParent id tables it) item = if it = item then id else entry tables item := by
  unfold HasPlace at hp
  unfold entry noteParent
  by_cases hitem : 0 ≤ item <;> by_cases hit : 0 ≤ it
  · rw [if_pos hitem] at hp
    have hiff : it.toNat = item.toNat ↔ it = item := by omega
    simp only [if_pos hitem, if_pos hit, getD_set id hp, hiff]
  · simp only [if_pos hitem, if_neg hit]
    rw [if_neg (by omega)]
  · simp only [if_neg hitem, if_pos hit]
    rw [if_neg (by omega)]
  · rw [if_neg hitem] at hp
    have hiff : (-1 - it).toNat = (-1 - item).toNat ↔ it = item := by omega
    simp only [if_neg hitem, if_neg hit, getD_set id hp, hiff]

theorem entry_noteParent_ne (id : ℤ) (tables : List ℤ × List ℤ) {it item : ℤ} (hne : it ≠ item) :
    entry (noteParent id tables it) item = entry tables item := by
  unfold entry noteParent
  split_ifs with h1 h2
  · simp only [getD_eq_getElem?_getD, getElem?_set_ne (show it.toNat ≠ item.toNat by omega)]
  · rfl
  · rfl
  · simp only [getD_eq_getElem?_getD, getElem?_set_ne (show (-1 - it).toNat ≠ (-1 - item).toNat by omega)]

theorem entry_unnoted (tables : List ℤ × List ℤ) (hno : ∀ b ∈ bs, item ∉ b.items) :
    entry (bs.foldl (fun tables b => b.items.foldl (noteParent b.id) tables) tables) item = entry tables item := by
  refine foldlRecOn bs _ (motive := fun t => entry t item = entry tables item) rfl fun t ht b hb => ?_
  refine foldlRecOn b.items _ (motive := fun t => entry t item = entry tables item) ht fun t ht it hit => ?_
  have hne : it ≠ item := fun heq => hno b hb (heq ▸ hit)
  rw [entry_noteParent_ne b.id t hne, ht]

theorem entry_items (id : ℤ) : ∀ (items : List ℤ) {tables : List ℤ × List ℤ}, HasPlace tables item →
    HasPlace (items.foldl (noteParent id) tables) item ∧
      entry (items.foldl (noteParent id) tables) item = if item ∈ items then id else entry tables item
  | [], _, hp => ⟨hp, rfl⟩
  | it :: items, tables, hp => by
    obtain ⟨hplace, hentry⟩ := entry_items id items (hasPlace_noteParent id it hp)
    refine ⟨hplace, ?_⟩
    rw [foldl_cons, hentry, entry_noteParent id it hp]
    by_cases hmem : item ∈ items
    · rw [if_pos hmem, if_pos (mem_cons_of_mem it hmem)]
    · have hiff : item ∈ it :: items ↔ it = item := by
        simp [hmem, eq_comm]
      simp only [if_neg hmem, hiff]

/-- The last bucket that has the item is noted. -/
theorem entry_buckets (bs : List Bucket) (hp : HasPlace tables item) :
    let after := bs.foldl (fun tables b => b.items.foldl (noteParent b.id) tables) tables
    HasPlace after item ∧ ((entry after item = entry tables item ∧ ∀ b ∈ bs, item ∉ b.items) ∨
      ∃ (i : ℕ) (b : Bucket), bs[i]? = some b ∧ item ∈ b.items ∧
        (∀ (j : ℕ) (b' : Bucket), i < j → bs[j]? = some b' → item ∉ b'.items) ∧ entry after item = b.id) := by
  induction bs using reverseRecOn with
  | nil => exact ⟨hp, .inl ⟨rfl, nofun⟩⟩
  | append_singleton bs b ih =>
    obtain ⟨hplace, hcases⟩ := ih
    obtain ⟨hplace', hentry⟩ := entry_items b.id b.items hplace
    simp only [foldl_append, foldl_cons, foldl_nil]
    refine ⟨hplace', ?_⟩
    rw [hentry]
    have hlast : (bs ++ [b])[bs.length]? = some b := getElem?_concat_length
    by_cases hmem : item ∈ b.items
    · refine .inr ⟨bs.length, b, hlast, hmem, fun j b' hj hb' => ?_, if_pos hmem⟩
      have hlt := (List.getElem?_eq_some_iff.mp hb').1
      rw [length_append, length_singleton] at hlt
      omega
    · rw [if_neg hmem]
      refine hcases.imp (fun hnone => ⟨hnone.1, ?_⟩) ?_
      · simp only [mem_append, mem_singleton]
        rintro b' (hb' | rfl)
        · exact hnone.2 b' hb'
        · exact hmem
      · rintro ⟨i, b', hb', hmem', hafter, heq⟩
        have hi := (List.getElem?_eq_some_iff.mp hb').1
        refine ⟨i, b', by rwa [getElem?_append_left hi], hmem', fun j b'' hj hb'' => ?_, heq⟩
        rcases lt_trichotomy j bs.length with hlt | rfl | hgt
        · rw [getElem?_append_left hlt] at hb''
          exact hafter j b'' hj hb''
        · rw [hlast] at hb''
          cases hb''
          exact hmem
        · have hlt := (List.getElem?_eq_some_iff.mp hb'').1
          rw [length_append, length_singleton] at hlt
          omega

/-! ### The items of the buckets that are made -/

theorem mem_putAll {depth : ℕ} : ∀ (entries : List (ℤ × ℕ)) (i : ℕ) (t : Tree),
    item ∈ (t.putAll depth i entries).items → item ∈ t.items ∨ item ∈ entries.map Prod.fst
  | [], _, _, hmem => .inl hmem
  | e :: entries, i, t, hmem => by
    rw [Tree.putAll] at hmem
    rcases mem_putAll entries (i + 1) _ hmem with hput | hrest
    · rcases mem_or_eq_of_mem_set hput with hold | rfl
      · exact .inl hold
      · exact .inr (mem_cons_self)
    · exact .inr (mem_cons_of_mem _ hrest)

theorem putAll_first {depth : ℕ} : ∀ (entries : List (ℤ × ℕ)) (i : ℕ) (t : Tree),
    (t.putAll depth i entries).items[0]? = t.items[0]?
  | [], _, _ => rfl
  | e :: entries, i, t => by
    have hleaf : (i + 1) <<< 1 - 1 ≠ 0 := by
      omega
    rw [Tree.putAll, putAll_first entries (i + 1)]
    exact getElem?_set_ne hleaf

theorem makeTreeBucket_tree {type : ℕ} {entries : List (ℤ × ℕ)}
    (hb : makeTreeBucket type entries = some b) :
    ∃ t, t = Tree.putAll ⟨replicate (2 ^ treeDepth entries.length) 0, replicate (2 ^ treeDepth entries.length) 0, 0⟩
        (treeDepth entries.length) 0 entries ∧ Filled entries (treeDepth entries.length) entries.length t ∧
      b = ⟨0, type % 2 ^ 16, t.weight, 2 ^ treeDepth entries.length, t.items, .tree t.nodeWeights⟩ := by
  unfold makeTreeBucket at hb
  split_ifs at hb with hlen
  dsimp only at hb
  split_ifs at hb
  cases hb
  have hleaves := le_leaves (pos_of_ne_zero hlen)
  refine ⟨_, rfl, putAll_spec (treeDepth_pos _) hleaves entries 0 _ (filled_empty entries _) rfl (Nat.zero_le _), ?_⟩
  simp only [Nat.one_shiftLeft]

/-- **The array of a tree bucket holds its items and the number 0.** -/
theorem makeTreeBucket_items {type : ℕ} {entries : List (ℤ × ℕ)}
    (hb : makeTreeBucket type entries = some b) (item : ℤ) :
    item ∈ b.items ↔ item ∈ entries.map Prod.fst ∨ item = 0 := by
  obtain ⟨t, ht, hf, rfl⟩ := makeTreeBucket_tree hb
  constructor
  · intro hmem
    rcases mem_putAll entries 0 _ (ht ▸ hmem) with hzero | hentry
    · exact .inr (eq_of_mem_replicate hzero)
    · exact .inl hentry
  · rintro (hentry | rfl)
    · obtain ⟨e, he, rfl⟩ := mem_map.mp hentry
      obtain ⟨j, hj⟩ := mem_iff_getElem?.mp he
      exact mem_of_getElem? (hf.items j e (List.getElem?_eq_some_iff.mp hj).1 hj)
    · refine mem_of_getElem? (i := 0) ?_
      rw [ht, putAll_first, getElem?_replicate, if_pos (Nat.two_pow_pos _)]

/-- The array of a bucket shows the item. -/
def Recipe.Shows (r : Recipe) (item : ℤ) : Prop := item ∈ r.items ∨ (r.isTree ∧ item = 0)

theorem make_items {r : Recipe} (hb : r.make h = some b) (item : ℤ) :
    item ∈ b.items ↔ r.Shows item := by
  unfold Recipe.Shows
  cases r with
  | uniform type items itemWeight =>
    simp only [Recipe.make, makeUniformBucket] at hb
    split_ifs at hb
    obtain ⟨primes, -, rfl⟩ := map_eq_some_iff.mp hb
    simp [Recipe.items, Recipe.isTree]
  | list type entries =>
    cases hb
    simp [Recipe.items, Recipe.isTree, makeListBucket]
  | tree type entries =>
    rw [makeTreeBucket_items hb]
    simp [Recipe.items, Recipe.isTree]
  | straw type entries straws =>
    obtain ⟨hne, ⟨⟩⟩ := ite_none_left_eq_some.mp hb
    simp [Recipe.items, Recipe.isTree]

/-! ### Finishing a map -/

theorem le_foldl_max (item : ℤ) : ∀ (items : List ℤ) (n : ℕ),
    n ≤ items.foldl (fun n item => max n (item + 1).toNat) n ∧
      (item ∈ items → (item + 1).toNat ≤ items.foldl (fun n item => max n (item + 1).toNat) n)
  | [], n => ⟨le_rfl, nofun⟩
  | it :: items, n => by
    obtain ⟨hle, hmem⟩ := le_foldl_max item items (max n (it + 1).toNat)
    refine ⟨le_trans (le_max_left _ _) hle, fun hitem => ?_⟩
    rcases mem_cons.mp hitem with rfl | hrest
    · exact le_trans (le_max_right _ _) hle
    · exact hmem hrest

theorem reduceOption_map_some (bs : List Bucket) : (bs.map some).reduceOption = bs := by
  induction bs with
  | nil => rfl
  | cons b bs ih => rw [map_cons, reduceOption_cons_of_some, ih]

theorem Assembled.reduceOption (ha : Assembled h rs bs m) : m.buckets.reduceOption = bs := by
  obtain ⟨k, hk⟩ := ha.buckets
  rw [hk, reduceOption_append, reduceOption_replicate_none, append_nil, reduceOption_map_some]

theorem Assembled.mem_iff (ha : Assembled h rs bs m)
    {i : ℕ} (hb : bs[i]? = some b) : b.id = -1 - (i : ℤ) ∧ ∃ r, rs[i]? = some r ∧
      ∀ item, item ∈ b.items ↔ r.Shows item := by
  have hi : i < rs.length := ha.length ▸ (List.getElem?_eq_some_iff.mp hb).1
  obtain ⟨b', hmake, hb'⟩ := ha.made i rs[i] (getElem?_eq_getElem hi)
  cases hb.symm.trans hb'
  exact ⟨rfl, rs[i], getElem?_eq_getElem hi, fun item => make_items hmake item⟩

/-- The entries of a map. -/
def Map.entry (m : Map) (item : ℤ) : ℤ := Crush.entry (m.deviceParents, m.bucketParents) item

/-- **An item's entry is the last bucket whose array shows it.** -/
theorem finalize_entry (ha : Assembled h rs bs m) (item : ℤ)
    (hitem : 0 ≤ item ∨ (-1 - item).toNat < m.buckets.length) :
    ((finalize m).entry item = 0 ∧ ∀ r ∈ rs, ¬ r.Shows item) ∨
      ∃ (i : ℕ) (r : Recipe), rs[i]? = some r ∧ r.Shows item ∧
        (∀ (j : ℕ) (r' : Recipe), i < j → rs[j]? = some r' → ¬ r'.Shows item) ∧ (finalize m).entry item = -1 - i := by
  have hshow : (∀ b ∈ bs, item ∉ b.items) → ∀ r ∈ rs, ¬ r.Shows item := by
    intro hno r hr hs
    obtain ⟨i, hi⟩ := mem_iff_getElem?.mp hr
    obtain ⟨b, hmake, hb⟩ := ha.made i r hi
    exact hno _ (mem_of_getElem? hb) ((make_items hmake item).mpr hs)
  simp only [Map.entry, finalize, calcParents, ha.reduceOption]
  obtain ⟨n, hn⟩ : ∃ n, n = (bs.flatMap (·.items)).foldl (fun n item => max n (item + 1).toNat) m.maxDevices := ⟨_, rfl⟩
  rw [← hn]
  have hempty : entry (replicate n 0, replicate m.buckets.length 0) item = 0 := by
    simp only [entry, getD_eq_getElem?_getD, getElem?_replicate]
    split_ifs <;> rfl
  by_cases hp : HasPlace (replicate n 0, replicate m.buckets.length 0) item
  · obtain ⟨-, ⟨heq, hno⟩ | ⟨i, b, hb, hmem, hlast, heq⟩⟩ := entry_buckets bs hp
    · exact .inl ⟨heq.trans hempty, hshow hno⟩
    · obtain ⟨hid, r, hr, hiff⟩ := ha.mem_iff hb
      refine .inr ⟨i, r, hr, (hiff item).mp hmem, fun j r' hj hr' hs => ?_, heq.trans hid⟩
      obtain ⟨b', hmake, hb'⟩ := ha.made j r' hr'
      exact hlast j _ hj hb' ((make_items hmake item).mpr hs)
  · -- a device beyond all that there are
    have hno : ∀ b ∈ bs, item ∉ b.items := by
      intro b hb hmem
      have hle := (le_foldl_max item (bs.flatMap (·.items)) m.maxDevices).2
        (mem_flatMap.mpr ⟨b, hb, hmem⟩)
      refine hp ?_
      simp only [HasPlace, length_replicate]
      split_ifs with h0
      · omega
      · exact hitem.resolve_left h0
    exact .inl ⟨(entry_unnoted _ hno).trans hempty, hshow hno⟩

/-- The bucket that has the item, or 0 if there is none. -/
def holder (rs : List Recipe) (item : ℤ) : ℤ :=
  match rs.findIdx? (item ∈ ·.items) with
  | some i => -1 - i
  | none => 0

/-- The tables of a finished map are as the buckets' items say. -/
def ParentsRight (rs : List Recipe) (m : Map) : Prop :=
  (∀ d : ℕ, m.deviceParents.getD d 0 = holder rs d) ∧
    ∀ k < m.buckets.length, m.bucketParents.getD k 0 = holder rs (-1 - k)

/-- Each item is one of at most one bucket. -/
def OneHolder (rs : List Recipe) : Prop := rs.Pairwise fun r r' => List.Disjoint r.items r'.items

theorem holder_none (hno : ∀ r ∈ rs, item ∉ r.items) : holder rs item = 0 := by
  have hfind : rs.findIdx? (item ∈ ·.items) = none :=
    findIdx?_eq_none_iff.mpr fun r hr => decide_eq_false (hno r hr)
  rw [holder, hfind]

theorem holder_some (hone : OneHolder rs) {i : ℕ} {r : Recipe} (hr : rs[i]? = some r)
    (hmem : item ∈ r.items) : holder rs item = -1 - i := by
  obtain ⟨hi, rfl⟩ := List.getElem?_eq_some_iff.mp hr
  have hfind : rs.findIdx? (item ∈ ·.items) = some i := by
    refine findIdx?_eq_some_iff_getElem.mpr ⟨hi, decide_eq_true hmem, fun j hj => ?_⟩
    rw [decide_eq_true_eq]
    exact fun hmem' => pairwise_iff_getElem.mp hone j i _ hi hj hmem' hmem
  rw [holder, hfind]

theorem entry_eq_holder (ha : Assembled h rs bs m)
    (hone : OneHolder rs) (hitem : 0 ≤ item ∨ (-1 - item).toNat < m.buckets.length)
    (htree : item = 0 → ∀ (i : ℕ) (r : Recipe), rs[i]? = some r → r.isTree →
      ∃ (j : ℕ) (r' : Recipe), i ≤ j ∧ rs[j]? = some r' ∧ 0 ∈ r'.items) :
    (finalize m).entry item = holder rs item := by
  rcases finalize_entry ha item hitem with ⟨heq, hno⟩ | ⟨i, r, hr, hshow, hlast, heq⟩
  · rw [heq, holder_none fun r hr hmem => hno r hr (.inl hmem)]
  · rw [heq]
    rcases hshow with hmem | ⟨hr', rfl⟩
    · exact (holder_some hone hr hmem).symm
    · obtain ⟨j, r', hj, hr'', hmem⟩ := htree rfl i r hr hr'
      rcases eq_or_lt_of_le hj with rfl | hlt
      · rw [holder_some hone hr'' hmem]
      · exact absurd (.inl hmem) (hlast j r' hlt hr'')

/-- **The tables of parents are right just when no tree bucket comes after the bucket of device 0**, nor
is there any when no bucket has device 0. -/
theorem parents_right (h : Hashes) (rs : List Recipe) (m : Map) (hm : assemble h rs = some m) (hone : OneHolder rs) :
    ParentsRight rs (finalize m) ↔ ∀ (i : ℕ) (r : Recipe), rs[i]? = some r → r.isTree →
      ∃ (j : ℕ) (r' : Recipe), i ≤ j ∧ rs[j]? = some r' ∧ 0 ∈ r'.items := by
  obtain ⟨bs, ha⟩ := assembled hm
  constructor
  · rintro ⟨hdev, -⟩ i r hr htree
    have hright : (finalize m).entry 0 = holder rs 0 := hdev 0
    rcases finalize_entry ha 0 (.inl le_rfl) with ⟨-, hno⟩ | ⟨j, r', hr', -, hlast, heq⟩
    · exact absurd (.inr ⟨htree, rfl⟩) (hno r (mem_of_getElem? hr))
    · -- the entry of device 0 is bucket `j`, which has to be its own
      have hij : i ≤ j := not_lt.mp fun hlt => hlast i r hlt hr (.inr ⟨htree, rfl⟩)
      by_cases hheld : ∃ r'' ∈ rs, 0 ∈ r''.items
      · obtain ⟨r'', hmem, h0⟩ := hheld
        obtain ⟨k, hk⟩ := mem_iff_getElem?.mp hmem
        rw [heq, holder_some hone hk h0] at hright
        exact ⟨k, r'', by omega, hk, h0⟩
      · rw [heq, holder_none fun r'' hmem h0 => hheld ⟨r'', hmem, h0⟩] at hright
        omega
  · intro htree
    refine ⟨fun d => ?_, fun k hk => ?_⟩
    · exact entry_eq_holder ha hone (.inl (Int.natCast_nonneg d)) fun _ => htree
    · have hplace : (-1 - (-1 - (k : ℤ))).toNat < m.buckets.length := by
        change k < m.buckets.length at hk
        omega
      have heq := entry_eq_holder ha hone (.inr hplace) fun _ => htree
      rw [Map.entry, entry, if_neg (by omega)] at heq
      rwa [show (-1 - (-1 - (k : ℤ))).toNat = k by omega] at heq

/-- A list bucket with device 0 after two tree buckets. -/
theorem parents_right_last : ∃ m, assemble crushHashes [.tree 1 [(1, 1), (2, 1)], .tree 2 [(-1, 2)], .list 1 [(0, 1)]] = some m ∧
    ParentsRight [.tree 1 [(1, 1), (2, 1)], .tree 2 [(-1, 2)], .list 1 [(0, 1)]] (finalize m) := by
  refine ⟨_, rfl, (parents_right crushHashes _ _ rfl ?_).mpr fun i r hr _ => ⟨2, .list 1 [(0, 1)], ?_, rfl, ?_⟩⟩
  · simp [OneHolder, Recipe.items]
  · have hi := (List.getElem?_eq_some_iff.mp hr).1
    exact Nat.le_of_lt_succ hi
  · exact mem_singleton_self 0

/-- A tree bucket after the bucket of device 0 takes it. -/
theorem parent_taken : ∃ m, assemble crushHashes [.list 1 [(0, 65536)], .tree 1 [(1, 65536), (2, 65536)]] = some m ∧
    OneHolder [.list 1 [(0, 65536)], .tree 1 [(1, 65536), (2, 65536)]] ∧
    ¬ ParentsRight [.list 1 [(0, 65536)], .tree 1 [(1, 65536), (2, 65536)]] (finalize m) := by
  refine ⟨_, rfl, ?_, fun hright => ?_⟩
  · simp [OneHolder, Recipe.items]
  · exact absurd (hright.1 0) (by decide +kernel)

end Crush
end Ceph
