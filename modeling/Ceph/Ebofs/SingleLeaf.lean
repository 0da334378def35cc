/-
# Tables of a single leaf

As long as all items fit in one leaf, `insert` and `remove` move items about in its array. An item behind
the last one stays in the array until another one is moved over it.
-/
import Ceph.Ebofs.Table

namespace Ceph
namespace Ebofs
namespace Btree

open List Table

variable {K V : Type}

/-- `insert_at_leaf_pos`. -/
def Node.insertAtLeafPos (p : ℕ) (key : K) (value : V) : Node K V → Node K V
  | .leaf item size => .leaf (fun i =>
      if i = p then (key, value) else if p < i ∧ i ≤ size then item (i - 1) else item i) (size + 1)
  | .index item size => .index item size

/-- `remove_at_pos`, of a leaf. -/
def Node.removeAtPos (p : ℕ) : Node K V → Node K V
  | .leaf item size => .leaf (fun i => if p ≤ i ∧ i + 1 < size then item (i + 1) else item i) (size - 1)
  | .index item size => .index item size

/-- A table with this root; without items it has none. -/
def Table.ofLeaf (node : Node K V) : Table K V := ⟨fun _ => node, 0, node.size, if node.size = 0 then 0 else 1⟩

/-- The array of the root. The array of a new node is `blank`, and of other tables it is that of
one leaf with all items. -/
def Table.array (blank : K × V) (t : Table K V) : ℕ → K × V :=
  match t.depth, t.pool t.root with
  | 1, .leaf item _ => item
  | _, _ => fun i => t.leaves.flatten.getD i blank

/-- `insert`, in a leaf. -/
def Table.insertLeaf [LinearOrder K] (blank : K × V) (t : Table K V) (key : K) (value : V) : Table K V :=
  let node := Node.leaf (t.array blank) t.nkeys
  .ofLeaf (node.insertAtLeafPos (leafPos node key) key value)

/-- `remove`, from a leaf. -/
def Table.removeLeaf [LinearOrder K] (blank : K × V) (t : Table K V) (key : K) : Table K V :=
  let node := Node.leaf (t.array blank) t.nkeys
  .ofLeaf (node.removeAtPos (leafPos node key))

section leaf

variable {item : ℕ → K × V} {size : ℕ} {k : K}

theorem depth_ofLeaf (hpos : 0 < size) : (ofLeaf (.leaf item size)).depth = 1 := if_neg hpos.ne'

theorem leaves_ofLeaf (hpos : 0 < size) : (ofLeaf (.leaf item size)).leaves = [(range size).map item] := by
  rw [Table.leaves, depth_ofLeaf hpos]
  rfl

theorem keys_ofLeaf : (ofLeaf (.leaf item size)).keys = (range size).map fun i => (item i).1 := by
  rcases Nat.eq_zero_or_pos size with rfl | hpos
  · rfl
  · rw [Table.keys, leaves_ofLeaf hpos, flatten_singleton, map_map]
    rfl

theorem mem_keys_ofLeaf : k ∈ (ofLeaf (.leaf item size)).keys ↔ ∃ i < size, (item i).1 = k := by
  rw [keys_ofLeaf, mem_map]
  simp only [mem_range]

variable [LinearOrder K] {t : Table K V} {blank : K × V} {p : ℕ} {key : K} {value : V}

theorem ofLeaf_wf (hmono : ∀ i j, i < j → j < size → (item i).1 < (item j).1) :
    (ofLeaf (.leaf item size)).Wf := by
  have hkeys : (ofLeaf (.leaf item size)).keys = (range size).map fun i => (item i).1 := keys_ofLeaf
  refine ⟨fun hd => ?_, ?_, ?_, ?_⟩
  · rcases Nat.eq_zero_or_pos size with rfl | hpos
    · exact absurd rfl hd
    · rw [depth_ofLeaf hpos]
      exact ⟨item, size, rfl⟩
  · intro l hl
    rcases Nat.eq_zero_or_pos size with rfl | hpos
    · nomatch hl
    · rw [leaves_ofLeaf hpos, mem_singleton] at hl
      rw [hl]
      simp [hpos.ne']
  · refine pairwise_map.mp (?_ : List.Pairwise (· < ·) (ofLeaf (.leaf item size)).keys)
    rw [hkeys]
    refine pairwise_map.mpr (pairwise_lt_range.imp_of_mem fun _ hj hij => ?_)
    exact hmono _ _ hij (mem_range.mp hj)
  · rw [hkeys, length_map, length_range]
    rfl

section

variable (hwf : t.Wf)
include hwf

theorem items_eq (blank : K × V) : t.leaves.flatten = (range t.nkeys).map (t.array blank) := by
  have hgetD : t.leaves.flatten = (range t.nkeys).map fun i => t.leaves.flatten.getD i blank := by
    have hlen : t.nkeys = t.leaves.flatten.length := by rw [hwf.count, Table.keys, length_map]
    refine ext_getElem (by simp [hlen]) fun i hi _ => ?_
    rw [getElem_map, getElem_range, getD_eq_getElem _ _ hi]
  unfold array
  split
  · next item size hdepth hroot =>
    have hcount := hwf.count
    have hleaves : t.leaves = [(range size).map item] := by
      rw [Table.leaves, hdepth, leaves, hroot]
      rfl
    rw [Table.keys, hleaves, flatten_singleton, length_map, length_map, length_range] at hcount
    rw [hleaves, flatten_singleton, hcount]
  · exact hgetD

theorem array_lt {i j : ℕ} (hij : i < j) (hj : j < t.nkeys) :
    (t.array blank i).1 < (t.array blank j).1 := by
  have hsorted := hwf.sorted
  rw [items_eq hwf blank, pairwise_map] at hsorted
  have h := pairwise_iff_getElem.mp hsorted i j (by rw [length_range]; omega)
    (by rwa [length_range]) hij
  rwa [getElem_range, getElem_range] at h

theorem mem_keys_array (blank : K × V) : k ∈ t.keys ↔ ∃ i < t.nkeys, (t.array blank i).1 = k := by
  rw [Table.keys, items_eq hwf blank, map_map, mem_map]
  simp only [mem_range, Function.comp_apply]

theorem leafPos_array (blank : K × V) (key : K) :
    leafPos (.leaf (t.array blank) t.nkeys) key ≤ t.nkeys ∧
      (∀ j, j < leafPos (.leaf (t.array blank) t.nkeys) key → (t.array blank j).1 < key) ∧
      ∀ j, leafPos (.leaf (t.array blank) t.nkeys) key ≤ j → j < t.nkeys → key ≤ (t.array blank j).1 := by
  obtain ⟨hle, hlow, hhigh⟩ := @bsearch_spec _ _ (fun i => (t.array blank i).1) key t.nkeys 0 t.nkeys t.nkeys
    (fun i j => array_lt hwf) le_rfl le_rfl (Nat.zero_le _) fun j hj => absurd hj (Nat.not_lt_zero j)
  have hpos : leafPos (.leaf (t.array blank) t.nkeys) key =
      bsearch (fun i => (t.array blank i).1) key t.nkeys 0 t.nkeys := rfl
  refine ⟨hle, hlow, fun j h1 h2 => ?_⟩
  rcases eq_or_lt_of_le h1 with heq | hlt
  · exact heq ▸ hhigh (by omega)
  · exact (hhigh (by omega)).trans (array_lt hwf hlt h2).le

theorem insertLeaf_wf (hk : key ∉ t.keys) : (t.insertLeaf blank key value).Wf := by
  obtain ⟨hle, hlow, hhigh⟩ := leafPos_array hwf blank key
  have hne : ∀ j, j < t.nkeys → (t.array blank j).1 ≠ key := fun j hj h =>
    hk ((mem_keys_array hwf blank).mpr ⟨j, hj, h⟩)
  have hmono := fun i j => @array_lt _ _ _ t blank hwf i j
  rw [insertLeaf]
  generalize leafPos (.leaf (t.array blank) t.nkeys) key = p at *
  refine ofLeaf_wf fun i j hij hj => ?_
  rcases lt_trichotomy j p with hjp | rfl | hjp
  · rw [if_neg (by omega), if_neg (by omega), if_neg (by omega), if_neg (by omega)]
    exact hmono i j hij (by omega)
  · rw [if_neg (by omega), if_neg (by omega), if_pos rfl]
    exact hlow i hij
  · rw [if_neg (show ¬ j = p by omega), if_pos (show p < j ∧ j ≤ t.nkeys by omega)]
    rcases lt_trichotomy i p with hip | rfl | hip
    · rw [if_neg (by omega), if_neg (by omega)]
      exact hmono i (j - 1) (by omega) (by omega)
    · rw [if_pos rfl]
      exact lt_of_le_of_ne (hhigh (j - 1) (by omega) (by omega)) (hne (j - 1) (by omega)).symm
    · rw [if_neg (by omega), if_pos (show p < i ∧ i ≤ t.nkeys by omega)]
      exact hmono (i - 1) (j - 1) (by omega) (by omega)

theorem mem_insertLeaf : k ∈ (t.insertLeaf blank key value).keys ↔ k = key ∨ k ∈ t.keys := by
  obtain ⟨hle, -, -⟩ := leafPos_array hwf blank key
  rw [insertLeaf]
  generalize leafPos (.leaf (t.array blank) t.nkeys) key = p at *
  rw [Node.insertAtLeafPos, mem_keys_ofLeaf, mem_keys_array hwf blank]
  constructor
  · rintro ⟨i, hi, rfl⟩
    split
    · exact .inl rfl
    · split
      · exact .inr ⟨i - 1, by omega, rfl⟩
      · exact .inr ⟨i, by omega, rfl⟩
  · rintro (rfl | ⟨i, hi, rfl⟩)
    · exact ⟨p, by omega, by rw [if_pos rfl]⟩
    · rcases lt_or_ge i p with hip | hip
      · exact ⟨i, by omega, by rw [if_neg (by omega), if_neg (by omega)]⟩
      · refine ⟨i + 1, by omega, ?_⟩
        rw [if_neg (by omega), if_pos (show p < i + 1 ∧ i + 1 ≤ t.nkeys by omega), Nat.add_sub_cancel]

theorem removeLeaf_wf : (t.removeLeaf blank key).Wf := by
  have hmono := fun i j => @array_lt _ _ _ t blank hwf i j
  refine ofLeaf_wf fun i j hij hj => ?_
  split <;> split
  · exact hmono _ _ (by omega) (by omega)
  · omega
  · exact hmono _ _ (by omega) (by omega)
  · exact hmono _ _ hij (by omega)

theorem mem_removeLeaf (hk : key ∈ t.keys) :
    k ∈ (t.removeLeaf blank key).keys ↔ k ≠ key ∧ k ∈ t.keys := by
  obtain ⟨hle, hlow, hhigh⟩ := leafPos_array hwf blank key
  have hmono := fun i j => @array_lt _ _ _ t blank hwf i j
  obtain ⟨q, hq, hqkey⟩ := (mem_keys_array hwf blank).mp hk
  rw [removeLeaf]
  generalize leafPos (.leaf (t.array blank) t.nkeys) key = p at *
  -- the place of the key is where it is
  obtain rfl : p = q := by
    rcases lt_trichotomy p q with h | h | h
    · exact absurd ((hhigh p le_rfl (by omega)).trans_lt (hmono p q h hq)) (by rw [hqkey]; exact lt_irrefl _)
    · exact h
    · exact absurd (hlow q h) (by rw [hqkey]; exact lt_irrefl _)
  rw [Node.removeAtPos, mem_keys_ofLeaf, mem_keys_array hwf blank]
  constructor
  · rintro ⟨i, hi, rfl⟩
    split
    · next h =>
      refine ⟨fun heq => ?_, i + 1, by omega, rfl⟩
      exact (hmono p (i + 1) (by omega) (by omega)).ne (hqkey.trans heq.symm)
    · next h =>
      refine ⟨fun heq => ?_, i, by omega, rfl⟩
      exact (hmono i p (by omega) hq).ne (heq.trans hqkey.symm)
  · rintro ⟨hne, i, hi, rfl⟩
    rcases lt_trichotomy i p with hip | rfl | hip
    · exact ⟨i, by omega, by rw [if_neg (by omega)]⟩
    · exact absurd hqkey hne
    · refine ⟨i - 1, by omega, ?_⟩
      rw [if_pos (by omega), Nat.sub_add_cancel (by omega)]

end

end leaf

end Btree
end Ebofs
end Ceph
