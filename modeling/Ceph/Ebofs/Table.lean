/-
# The tables of EBOFS

`Table<K,V>` is a tree of nodes in a pool: the items of an index node are the nodes of the next level, each
under the least key below it, and those of a leaf are keys with their values. The items are
an array, of which the first `size` are in use. A `Cursor` has the open node and a position in it
for each level.

`find` errs to the left in an index and to the right in a leaf, so a key that lies between two
leaves is looked for in the left one. There it comes out behind the last item, which
`find` takes for the end of the table. A scan is made only where the result is not
`OOB`, so this one finds nothing, although larger keys come next.
-/
import Mathlib

namespace Ceph
namespace Ebofs
namespace Btree

open List

/-! ### The code -/

/-- `Node`: the array of its items, and how many of them are in use. -/
inductive Node (K V : Type)
  | leaf (item : ℕ → K × V) (size : ℕ)
  | index (item : ℕ → K × ℕ) (size : ℕ)

section code

variable {K V : Type}

def Node.size : Node K V → ℕ
  | .leaf _ size | .index _ size => size

/-- `key(i)`. -/
def Node.key (i : ℕ) : Node K V → K
  | .leaf item _ => (item i).1
  | .index item _ => (item i).1

/-- `index_item(i).node`. -/
def Node.child (i : ℕ) : Node K V → ℕ
  | .leaf _ _ => 0
  | .index item _ => (item i).2

/-- `leaf_item(i)`. -/
def Node.leafItem (i : ℕ) : Node K V → Option (K × V)
  | .leaf item _ => some (item i)
  | .index _ _ => none

/-- `Table`, with the nodes of its pool. -/
structure Table (K V : Type) where
  pool : ℕ → Node K V
  root : ℕ
  nkeys : ℕ
  depth : ℕ

/-- `Cursor`: the open nodes and the positions in them, from the root on. -/
abbrev Cursor (K V : Type) := List (Node K V × ℕ)

def Cursor.MATCH : ℤ := 1       -- on key
def Cursor.INSERT : ℤ := 0      -- before key
def Cursor.OOB : ℤ := -1        -- at end

/-- `current`, which asserts that it is at a leaf. -/
def current (c : Cursor K V) : Option (K × V) := c.getLast?.bind fun p => p.1.leafItem p.2

section order

variable [LinearOrder K]

/-- The binary searches of `find`. Each turn halves what is left, at least. -/
def bsearch (keyAt : ℕ → K) (key : K) : ℕ → ℕ → ℕ → ℕ
  | 0, left, _ => left
  | fuel + 1, left, right =>
    if left < right then
      let i := left + (right - left) / 2
      if keyAt i < key then bsearch keyAt key fuel (i + 1) right
      else if i ≠ 0 ∧ key ≤ keyAt (i - 1) then bsearch keyAt key fuel left i
      else i
    else left

/-- The search in an index node errs to the left. -/
def indexPos (node : Node K V) (key : K) : ℕ :=
  let i := bsearch (node.key ·) key (node.size - 1) 0 (node.size - 1)
  if i ≠ 0 ∧ key < node.key i then i - 1 else i

/-- The search in a leaf errs to the right. -/
def leafPos (node : Node K V) (key : K) : ℕ := bsearch (node.key ·) key node.size 0 node.size

/-- The way of `find` down from a node. -/
def findFrom (pool : ℕ → Node K V) (key : K) : ℕ → ℕ → Cursor K V
  | 0, _ => []
  | 1, n => [(pool n, leafPos (pool n) key)]
  | d + 2, n =>
    let i := indexPos (pool n) key
    (pool n, i) :: findFrom pool key (d + 1) ((pool n).child i)

/-- `find`. -/
def Table.find (t : Table K V) (key : K) : ℤ × Cursor K V :=
  if t.depth = 0 then (Cursor.OOB, [])
  else if (t.pool t.root).size = 0 then (-1, [])        -- empty!
  else
    let cursor := findFrom t.pool key t.depth t.root
    match cursor.getLast? with
    | none => (Cursor.OOB, cursor)
    | some (node, i) =>
      if i + 1 ≤ node.size then
        if node.key i = key then (Cursor.MATCH, cursor) else (Cursor.INSERT, cursor)
      else (Cursor.OOB, cursor)

end order

/-- Back down on the left side. -/
def descendLeft (pool : ℕ → Node K V) : ℕ → ℕ → Cursor K V
  | 0, _ => []
  | k + 1, n => (pool n, 0) :: descendLeft pool k ((pool n).child 0)

/-- Back down on the right side. -/
def descendRight (pool : ℕ → Node K V) : ℕ → ℕ → Cursor K V
  | 0, _ => []
  | k + 1, n => (pool n, (pool n).size - 1) :: descendRight pool k ((pool n).child ((pool n).size - 1))

/-- One to the right, at the lowest level where there is one. -/
def advance (pool : ℕ → Node K V) : Cursor K V → Option (Cursor K V)
  | [] => none
  | (node, p) :: rest =>
    match advance pool rest with
    | some rest => some ((node, p) :: rest)
    | none =>
      if p + 1 < node.size then some ((node, p + 1) :: descendLeft pool rest.length (node.child (p + 1))) else none

/-- One to the left, at the lowest level where there is one. -/
def retreat (pool : ℕ → Node K V) : Cursor K V → Option (Cursor K V)
  | [] => none
  | (node, p) :: rest =>
    match retreat pool rest with
    | some rest => some ((node, p) :: rest)
    | none => if 0 < p then some ((node, p - 1) :: descendRight pool rest.length (node.child (p - 1))) else none

/-- `pos[level]++`, into the add position. -/
def intoAddPosition : Cursor K V → Cursor K V
  | [] => []
  | [(node, p)] => [(node, p + 1)]
  | open_ :: below :: rest => open_ :: intoAddPosition (below :: rest)

/-- `move_right`. -/
def Table.moveRight (t : Table K V) (c : Cursor K V) : ℤ × Cursor K V :=
  if t.depth = 0 then (Cursor.OOB, c)
  else
    match advance t.pool c with
    | some c => (1, c)
    | none =>
      match c.getLast? with
      | some (node, p) => if p < node.size then (0, intoAddPosition c) else (-1, c)
      | none => (-1, c)

/-- `move_left`. -/
def Table.moveLeft (t : Table K V) (c : Cursor K V) : ℤ × Cursor K V :=
  if t.depth = 0 then (Cursor.OOB, c)
  else
    match retreat t.pool c with
    | some c => (1, c)
    | none => (Cursor.OOB, c)

/-- The loop of `list_objects` and `list_collections`. -/
def Table.scanLoop (t : Table K V) : ℕ → Cursor K V → List K
  | 0, _ => []
  | fuel + 1, c =>
    match current c with
    | none => []
    | some item => item.1 :: if (t.moveRight c).1 ≤ 0 then [] else scanLoop t fuel (t.moveRight c).2

/-- A scan from a key on: `list_objects`, where it is `pobject_t()`. No item comes twice. -/
def Table.scan [LinearOrder K] (t : Table K V) (key : K) : List K :=
  if 0 ≤ (t.find key).1 then t.scanLoop t.nkeys (t.find key).2 else []

end code

/-! ### What a table stands for -/

section meaning

variable {K V : Type}

/-- The items of a leaf. -/
def Node.live : Node K V → List (K × V)
  | .leaf item size => (List.range size).map item
  | .index _ _ => []

/-- The leaves below a node, from left to right. -/
def leaves (pool : ℕ → Node K V) : ℕ → ℕ → List (List (K × V))
  | 0, _ => []
  | 1, n => [(pool n).live]
  | d + 2, n => (List.range (pool n).size).flatMap fun i => leaves pool (d + 1) ((pool n).child i)

/-- What is in the array behind the last item of all. -/
def Table.slotBehind (t : Table K V) : Option (K × V) :=
  current (intoAddPosition (descendRight t.pool t.depth t.root))

def Table.leaves (t : Table K V) : List (List (K × V)) := Btree.leaves t.pool t.depth t.root

/-- All keys, from left to right. -/
def Table.keys (t : Table K V) : List K := t.leaves.flatten.map Prod.fst

/-- The nodes are of the type of their level. An index node has a child at least, and its keys are the
least ones of the children. -/
def Shaped (pool : ℕ → Node K V) : ℕ → ℕ → Prop
  | 0, _ => False
  | 1, n => ∃ item size, pool n = .leaf item size
  | d + 2, n => ∃ item size, pool n = .index item size ∧ 0 < size ∧
      ∀ i, i < size → Shaped pool (d + 1) (item i).2 ∧
        (Btree.leaves pool (d + 1) (item i).2).flatten.head?.map Prod.fst = some (item i).1

/-- A well-formed table: what `verify` checks. -/
structure Table.Wf [LinearOrder K] (t : Table K V) : Prop where
  shaped : t.depth ≠ 0 → Shaped t.pool t.depth t.root
  full : ∀ l ∈ t.leaves, l ≠ []
  sorted : t.leaves.flatten.Pairwise fun a b => a.1 < b.1
  count : t.nkeys = t.keys.length

/-- A cursor is at an item of a leaf, or behind the last one, between other leaves. -/
inductive At (pool : ℕ → Node K V) :
    ℕ → ℕ → Cursor K V → List (List (K × V)) → List (K × V) → List (List (K × V)) → ℕ → Prop
  | leaf {n size p : ℕ} {item : ℕ → K × V} : pool n = .leaf item size →
      At pool 1 n [(pool n, p)] [] (pool n).live [] p
  | index {d n size i p : ℕ} {item : ℕ → K × ℕ} {rest : Cursor K V} {pre post : List (List (K × V))}
      {l : List (K × V)} :
      pool n = .index item size → i < size → At pool (d + 1) (item i).2 rest pre l post p →
      At pool (d + 2) n ((pool n, i) :: rest)
        ((List.range i).flatMap (fun j => leaves pool (d + 1) (item j).2) ++ pre) l
        (post ++ (List.range' (i + 1) (size - (i + 1))).flatMap fun j => leaves pool (d + 1) (item j).2) p

variable [LinearOrder K]

/-- The results of `find`. -/
structure FindLaw (t : Table K V) (key : K) : Prop where
  on_key : (t.find key).1 = Cursor.MATCH ↔ key ∈ t.keys
  at_key : (t.find key).1 = Cursor.MATCH → ∃ v, current (t.find key).2 = some (key, v)
  before_key : (t.find key).1 = Cursor.INSERT ↔ key ∉ t.keys ∧ ∃ k ∈ t.keys, key < k
  at_next : (t.find key).1 = Cursor.INSERT → ∃ k v, current (t.find key).2 = some (k, v) ∧ k ∈ t.keys ∧ key < k ∧
    ∀ k' ∈ t.keys, key < k' → k ≤ k'
  at_end : (t.find key).1 = Cursor.OOB ↔ ∀ k ∈ t.keys, k < key

/-- The key lies between two leaves: behind all keys up to the one, and before all from the other on. -/
def InGap (t : Table K V) (key : K) : Prop :=
  ∃ ls ls', ls ≠ [] ∧ ls' ≠ [] ∧ t.leaves = ls ++ ls' ∧ (∀ a ∈ ls.flatten, a.1 < key) ∧ ∀ a ∈ ls'.flatten, key < a.1

/-- Where the way down of `find` ends: at the first item of a leaf that is not below the key, or behind the
last one. All leaves before are below the key, and all behind it are above. Unless the leaf is the
first one, it begins at the key or below. -/
structure Lands (pool : ℕ → Node K V) (key : K) (d n : ℕ) (pre : List (List (K × V))) (l : List (K × V))
    (post : List (List (K × V))) (p : ℕ) : Prop where
  at_pos : At pool d n (findFrom pool key d n) pre l post p
  le_length : p ≤ l.length
  before : ∀ a ∈ pre.flatten, a.1 < key
  below : ∀ a ∈ l.take p, a.1 < key
  above : ∀ a ∈ l.drop p, key ≤ a.1
  behind : ∀ a ∈ post.flatten, key < a.1
  first : pre ≠ [] → ∀ a ∈ l.head?, a.1 ≤ key

end meaning

/-! ### The searches -/

section search

variable {K V : Type} [LinearOrder K] {keyAt : ℕ → K} {key : K} {fuel left right n i j : ℕ} {node : Node K V}

/-- **The binary search** stops at the first key that is not below, or at the end. -/
theorem bsearch_spec (hmono : ∀ i j, i < j → j < n → keyAt i < keyAt j) (hn : right ≤ n) (hfuel : right - left ≤ fuel)
    (hle : left ≤ right) (hlow : ∀ j, j < left → keyAt j < key) :
    bsearch keyAt key fuel left right ≤ right ∧ (∀ j, j < bsearch keyAt key fuel left right → keyAt j < key) ∧
      (bsearch keyAt key fuel left right < right → key ≤ keyAt (bsearch keyAt key fuel left right)) := by
  induction fuel generalizing left right with
  | zero =>
    obtain rfl : left = right := by omega
    exact ⟨le_rfl, hlow, fun h => absurd h (lt_irrefl _)⟩
  | succ fuel ih =>
    rw [bsearch]
    by_cases hlt : left < right
    · rw [if_pos hlt]
      have hi : left ≤ left + (right - left) / 2 ∧ left + (right - left) / 2 < right := by omega
      generalize left + (right - left) / 2 = i at hi
      by_cases hsmall : keyAt i < key
      · rw [if_pos hsmall]
        refine ih hn (by omega) (by omega) fun j hj => ?_
        rcases lt_or_ge j i with hji | hji
        · exact (hmono j i hji (by omega)).trans hsmall
        · obtain rfl : j = i := by omega
          exact hsmall
      · rw [if_neg hsmall]
        by_cases hprev : i ≠ 0 ∧ key ≤ keyAt (i - 1)
        · rw [if_pos hprev]
          obtain ⟨h1, h2, h3⟩ := ih (by omega) (by omega) hi.1 hlow
          refine ⟨by omega, h2, fun _ => ?_⟩
          rcases eq_or_lt_of_le h1 with heq | hlt'
          · rw [heq]
            exact not_lt.mp hsmall
          · exact h3 hlt'
        · rw [if_neg hprev]
          refine ⟨hi.2.le, fun j hj => ?_, fun _ => not_lt.mp hsmall⟩
          have hbefore : keyAt (i - 1) < key := not_le.mp fun hle => hprev ⟨by omega, hle⟩
          rcases lt_or_ge j (i - 1) with hji | hji
          · exact (hmono j (i - 1) hji (by omega)).trans hbefore
          · obtain rfl : j = i - 1 := by omega
            exact hbefore
    · rw [if_neg hlt]
      exact ⟨hle, hlow, fun h => absurd h hlt⟩

theorem indexPos_spec (hpos : 0 < node.size) (hmono : ∀ i j, i < j → j < node.size → node.key i < node.key j) :
    indexPos node key < node.size ∧ (indexPos node key = 0 ∨ node.key (indexPos node key) ≤ key) ∧
      ∀ j, indexPos node key < j → j < node.size → key < node.key j := by
  obtain ⟨hle, hlow, hhigh⟩ := @bsearch_spec _ _ (node.key ·) key _ _ _ _ hmono (Nat.sub_le node.size 1) le_rfl
    (Nat.zero_le _) fun j hj => absurd hj (Nat.not_lt_zero j)
  unfold indexPos
  generalize bsearch (node.key ·) key (node.size - 1) 0 (node.size - 1) = i at *
  by_cases hback : i ≠ 0 ∧ key < node.key i
  · rw [if_pos hback]
    refine ⟨by omega, .inr (hlow (i - 1) (by omega)).le, fun j h1 h2 => ?_⟩
    rcases eq_or_lt_of_le (show i ≤ j by omega) with rfl | hlt
    · exact hback.2
    · exact hback.2.trans (hmono i j hlt h2)
  · rw [if_neg hback]
    refine ⟨by omega, ?_, fun j h1 h2 => ?_⟩
    · by_cases hzero : i = 0
      · exact .inl hzero
      · exact .inr (not_lt.mp fun h => hback ⟨hzero, h⟩)
    · exact (hhigh (by omega)).trans_lt (hmono i j h1 h2)

end search

/-! ### Leaves and cursors -/

section cursors

variable {K V : Type} {pool : ℕ → Node K V} {d n i p size : ℕ} {c : Cursor K V} {pre post : List (List (K × V))}
  {l l' : List (K × V)} {item : ℕ → K × ℕ}

theorem leaves_index (h : pool n = .index item size) :
    leaves pool (d + 2) n = (range size).flatMap fun i => leaves pool (d + 1) (item i).2 := by
  rw [leaves, h]
  rfl

/-- The numbers below `size`, around one of them. -/
theorem range_cut (hi : i < size) : range size = range i ++ i :: range' (i + 1) (size - (i + 1)) := by
  have hsum : size = i + (1 + (size - (i + 1))) := by omega
  conv_lhs => rw [hsum, range_eq_range', range'_append_1.symm, Nat.zero_add, Nat.add_comm 1,
    range'_succ, ← range_eq_range']

theorem leaves_cut (h : pool n = .index item size) (hi : i < size) : leaves pool (d + 2) n =
    (range i).flatMap (fun j => leaves pool (d + 1) (item j).2) ++ (leaves pool (d + 1) (item i).2 ++
      (range' (i + 1) (size - (i + 1))).flatMap fun j => leaves pool (d + 1) (item j).2) := by
  rw [leaves_index h, range_cut hi, flatMap_append, flatMap_cons]

section

variable (h : At pool d n c pre l post p)
include h

theorem At.leaves_eq : leaves pool d n = pre ++ l :: post := by
  induction h with
  | leaf _ => rfl
  | index hnode hi _ ih =>
    rw [leaves_cut hnode hi, ih]
    simp only [append_assoc, cons_append]

theorem At.length_eq : c.length = d := by
  induction h with
  | leaf _ => rfl
  | index _ _ _ ih => rw [length_cons, ih]

theorem At.getLast?_eq :
    ∃ item size, c.getLast? = some (.leaf item size, p) ∧ l = (range size).map item := by
  induction h with
  | @leaf n size p item hnode =>
    refine ⟨item, size, ?_, ?_⟩
    · rw [hnode]
      rfl
    · rw [hnode]
      rfl
  | index _ _ hrest ih =>
    obtain ⟨item, size, hlast, hl⟩ := ih
    refine ⟨item, size, ?_, hl⟩
    rw [getLast?_cons, hlast]
    rfl

theorem At.current_eq (hp : p < l.length) : current c = some (l[p]) := by
  obtain ⟨item, size, hlast, rfl⟩ := h.getLast?_eq
  rw [current, hlast]
  simp [Node.leafItem]

theorem At.ne_nil : c ≠ [] := by
  cases h with
  | leaf _ => exact cons_ne_nil _ _
  | index _ _ _ => exact cons_ne_nil _ _

theorem At.intoAddPosition : At pool d n (Btree.intoAddPosition c) pre l post (p + 1) := by
  induction h with
  | leaf hnode => exact .leaf hnode
  | @index d n size i p item rest pre post l hnode hi hrest ih =>
    obtain ⟨below, rest, rfl⟩ := exists_cons_of_ne_nil hrest.ne_nil
    exact .index hnode hi ih

end

theorem Shaped.leaves_ne_nil (h : Shaped pool d n) : leaves pool d n ≠ [] := by
  induction d using Nat.strong_induction_on generalizing n with
  | _ d ih =>
    match d, h with
    | 1, _ => exact cons_ne_nil _ _
    | d + 2, ⟨item, size, hnode, hpos, hchild⟩ =>
      rw [leaves_cut hnode hpos]
      refine append_ne_nil_of_right_ne_nil _ (append_ne_nil_of_left_ne_nil ?_ _)
      exact ih (d + 1) (by omega) (hchild 0 hpos).1

variable [LinearOrder K] {key : K}

/-- The items of a list of leaves are in order. -/
abbrev SortedLeaves (ls : List (List (K × V))) : Prop := ls.flatten.Pairwise fun a b => a.1 < b.1

theorem sortedLeaves_append {ls ls' : List (List (K × V))} : SortedLeaves (ls ++ ls') ↔
    SortedLeaves ls ∧ SortedLeaves ls' ∧ ∀ a ∈ ls.flatten, ∀ b ∈ ls'.flatten, a.1 < b.1 := by
  rw [SortedLeaves, flatten_append, pairwise_append]

/-- In an index node, the keys of the children before an item are smaller than its key, and those after it larger. -/
theorem index_order (hnode : pool n = .index item size) (hi : i < size)
    (hchild : ∀ i, i < size → (leaves pool (d + 1) (item i).2).flatten.head?.map Prod.fst = some (item i).1)
    (hsorted : SortedLeaves (leaves pool (d + 2) n)) :
    SortedLeaves (leaves pool (d + 1) (item i).2) ∧
      (∀ a ∈ ((range i).flatMap fun j => leaves pool (d + 1) (item j).2).flatten, a.1 < (item i).1) ∧
      (∀ j, i < j → j < size → (item i).1 < (item j).1) ∧
      ∀ a ∈ ((range' (i + 1) (size - (i + 1))).flatMap fun j => leaves pool (d + 1) (item j).2).flatten,
        ∃ j, i < j ∧ j < size ∧ (item j).1 ≤ a.1 := by
  have hfirst : ∀ j, j < size → ∃ v, (((item j).1, v) : K × V) ∈ (leaves pool (d + 1) (item j).2).flatten := by
    intro j hj
    obtain ⟨⟨k, v⟩, hhead, hk⟩ := Option.map_eq_some_iff.mp (hchild j hj)
    obtain rfl : k = (item j).1 := hk
    exact ⟨v, mem_of_mem_head? hhead⟩
  have hcut : ∀ j, j < size → SortedLeaves (leaves pool (d + 1) (item j).2) ∧
      ∀ a ∈ ((range j).flatMap fun j => leaves pool (d + 1) (item j).2).flatten, a.1 < (item j).1 := by
    intro j hj
    have hs := hsorted
    rw [leaves_cut hnode hj, sortedLeaves_append, sortedLeaves_append] at hs
    obtain ⟨-, ⟨hself, -, -⟩, hbefore⟩ := hs
    obtain ⟨v, hv⟩ := hfirst j hj
    refine ⟨hself, fun a ha => hbefore a ha ((item j).1, v) ?_⟩
    rw [flatten_append]
    exact mem_append_left _ hv
  refine ⟨(hcut i hi).1, (hcut i hi).2, fun j hij hj => ?_, fun a ha => ?_⟩
  · obtain ⟨v, hv⟩ := hfirst i hi
    refine (hcut j hj).2 ((item i).1, v) ?_
    obtain ⟨l, hl, hmem⟩ := mem_flatten.mp hv
    exact mem_flatten.mpr ⟨l, mem_flatMap.mpr ⟨i, mem_range.mpr hij, hl⟩, hmem⟩
  · obtain ⟨l, hl, hmem⟩ := mem_flatten.mp ha
    obtain ⟨j, hj, hl⟩ := mem_flatMap.mp hl
    rw [mem_range'_1] at hj
    refine ⟨j, by omega, by omega, ?_⟩
    -- the least key of the child
    have hmem' : a ∈ (leaves pool (d + 1) (item j).2).flatten := mem_flatten.mpr ⟨l, hl, hmem⟩
    obtain ⟨b, hhead, hb⟩ := Option.map_eq_some_iff.mp (hchild j (by omega))
    obtain ⟨rest, hrest⟩ := head?_eq_some_iff.mp hhead
    have hself := (hcut j (by omega)).1
    rw [SortedLeaves, hrest, pairwise_cons] at hself
    rw [hrest] at hmem'
    rw [← hb]
    rcases mem_cons.mp hmem' with rfl | hmem'
    · exact le_rfl
    · exact (hself.1 a hmem').le

/-- **The way down** of `find`. -/
theorem findFrom_lands (hshaped : Shaped pool d n) (hsorted : SortedLeaves (leaves pool d n)) :
    ∃ pre l post p, Lands pool key d n pre l post p := by
  induction d using Nat.strong_induction_on generalizing n with
  | _ d ih =>
    match d, hshaped with
    | 1, ⟨item, size, hnode⟩ =>
      have hl : (pool n).live = (range size).map item := by rw [hnode]; rfl
      have hpw : (range size).Pairwise fun i j => (item i).1 < (item j).1 := by
        rw [SortedLeaves, leaves, flatten_singleton, hl] at hsorted
        exact (@pairwise_map _ _ item (fun a b => a.1 < b.1) _).mp hsorted
      have hmono : ∀ i j, i < j → j < size → (item i).1 < (item j).1 := fun i j hij hj => by
        have h := pairwise_iff_getElem.mp hpw i j (by rw [length_range]; omega)
          (by rwa [length_range]) hij
        rwa [getElem_range, getElem_range] at h
      obtain ⟨hle, hlow, hhigh⟩ := @bsearch_spec _ _ (fun i => (item i).1) key size 0 size size hmono le_rfl le_rfl
        (Nat.zero_le _) fun j hj => absurd hj (Nat.not_lt_zero j)
      have hpos : leafPos (pool n) key = bsearch (fun i => (item i).1) key size 0 size := by
        rw [leafPos, hnode]
        rfl
      refine ⟨_, _, _, _, .leaf hnode, ?_, nofun, fun a ha => ?_, fun a ha => ?_, nofun, fun h => absurd rfl h⟩
      · rw [hl, hpos, length_map, length_range]
        exact hle
      · rw [hl, hpos] at ha
        obtain ⟨i, hi, rfl⟩ := mem_take_iff_getElem.mp ha
        rw [getElem_map, getElem_range]
        exact hlow i (hi.trans_le (min_le_left _ _))
      · rw [hl, hpos] at ha
        obtain ⟨i, hi, rfl⟩ := mem_drop_iff_getElem.mp ha
        rw [getElem_map, getElem_range]
        rw [length_map, length_range] at hi
        have hfirst := hhigh (by omega)
        rcases Nat.eq_zero_or_pos i with rfl | hi0
        · exact hfirst
        · exact hfirst.trans (hmono _ _ (Nat.lt_add_of_pos_right hi0) (by omega)).le
    | d + 2, ⟨item, size, hnode, hpos, hchild⟩ =>
      have horder := fun (i : ℕ) (hi : i < size) => index_order hnode hi (fun i hi => (hchild i hi).2) hsorted
      have hsize : (pool n).size = size := by rw [hnode]; rfl
      have hkey : ∀ i, (pool n).key i = (item i).1 := fun i => by rw [hnode]; rfl
      obtain ⟨hi, hleft, hright⟩ := @indexPos_spec K V _ key (pool n) (by rwa [hsize]) fun i j hij hj => by
        rw [hkey, hkey]
        rw [hsize] at hj
        exact (horder i (by omega)).2.2.1 j hij hj
      rw [hsize, hkey] at *
      obtain ⟨hself, hbefore, -, hafter⟩ := horder _ hi
      obtain ⟨pre, l, post, p, hl⟩ := ih (d + 1) (by omega) (hchild _ hi).1 hself
      have hat := At.index hnode hi hl.at_pos
      have hchild' : (pool n).child (indexPos (pool n) key) = (item (indexPos (pool n) key)).2 := by rw [hnode]; rfl
      have hfind : findFrom pool key (d + 2) n =
          (pool n, indexPos (pool n) key) :: findFrom pool key (d + 1) (item (indexPos (pool n) key)).2 := by
        rw [findFrom, hchild']
      rw [← hfind] at hat
      refine ⟨_, l, _, p, hat, hl.le_length, fun a ha => ?_, hl.below, hl.above, fun a ha => ?_, fun hne a ha => ?_⟩
      · rw [flatten_append] at ha
        rcases mem_append.mp ha with ha | ha
        · refine (hbefore a ha).trans_le (hleft.resolve_left fun hzero => ?_)
          rw [hzero] at ha
          nomatch ha
        · exact hl.before a ha
      · rw [flatten_append] at ha
        rcases mem_append.mp ha with ha | ha
        · exact hl.behind a ha
        · obtain ⟨j, hij, hj, hle⟩ := hafter a ha
          have hlt := hright j hij hj
          rw [hkey] at hlt
          exact hlt.trans_le hle
      · by_cases hpre : pre = []
        · -- the first leaf of a child, which begins at the key of the item
          subst hpre
          have hhead := (hchild _ hi).2
          obtain ⟨rest, rfl⟩ := head?_eq_some_iff.mp ha
          rw [hl.at_pos.leaves_eq] at hhead
          have hkeyEq : a.1 = (item (indexPos (pool n) key)).1 := Option.some.inj hhead
          rw [hkeyEq]
          refine hleft.resolve_left fun hzero => hne ?_
          rw [hzero]
          rfl
        · exact hl.first hpre a ha

end cursors

/-! ### Steps of a cursor -/

section steps

variable {K V : Type} {pool : ℕ → Node K V} {d n i p size : ℕ} {c : Cursor K V} {pre post : List (List (K × V))}
  {l : List (K × V)} {item : ℕ → K × ℕ}

theorem range'_cut (hi : i + 1 < size) :
    range' (i + 1) (size - (i + 1)) = (i + 1) :: range' (i + 2) (size - (i + 2)) := by
  have hsum : size - (i + 1) = (size - (i + 2)) + 1 := by omega
  rw [hsum, range'_succ]

theorem descendLeft_at (h : Shaped pool d n) : ∃ l post, At pool d n (descendLeft pool d n) [] l post 0 := by
  induction d using Nat.strong_induction_on generalizing n with
  | _ d ih =>
    match d, h with
    | 1, ⟨item, size, hnode⟩ => exact ⟨_, _, .leaf hnode⟩
    | d + 2, ⟨item, size, hnode, hpos, hchild⟩ =>
      obtain ⟨l, post, hat⟩ := ih (d + 1) (by omega) (hchild 0 hpos).1
      have hzero : (pool n).child 0 = (item 0).2 := by rw [hnode]; rfl
      have hat' := At.index hnode hpos hat
      rw [← hzero, ← descendLeft] at hat'
      exact ⟨l, _, hat'⟩

theorem descendRight_at (h : Shaped pool d n) :
    ∃ pre l, At pool d n (descendRight pool d n) pre l [] (l.length - 1) := by
  induction d using Nat.strong_induction_on generalizing n with
  | _ d ih =>
    match d, h with
    | 1, ⟨item, size, hnode⟩ =>
      have hlen : (pool n).size = (pool n).live.length := by
        rw [hnode]
        simp [Node.size, Node.live]
      have hat := @At.leaf _ _ pool n size (((pool n).live.length) - 1) item hnode
      exact ⟨[], (pool n).live, hlen ▸ hat⟩
    | d + 2, ⟨item, size, hnode, hpos, hchild⟩ =>
      obtain ⟨pre, l, hat⟩ := ih (d + 1) (by omega) (hchild (size - 1) (by omega)).1
      have hsize : (pool n).size = size := by rw [hnode]; rfl
      have hlast : (pool n).child (size - 1) = (item (size - 1)).2 := by rw [hnode]; rfl
      have hat' := At.index hnode (Nat.sub_lt hpos Nat.one_pos) hat
      rw [show size - (size - 1 + 1) = 0 by omega, range'_zero, flatMap_nil, append_nil] at hat'
      rw [← hlast, ← hsize, ← descendRight] at hat'
      exact ⟨_, l, hat'⟩

theorem At.eq_descendRight (hshaped : Shaped pool d n) (h : At pool d n c pre l [] p) (hp : p + 1 = l.length) :
    c = descendRight pool d n := by
  obtain ⟨post, hpost⟩ : ∃ post, post = ([] : List (List (K × V))) := ⟨_, rfl⟩
  rw [← hpost] at h
  induction h with
  | @leaf n size p item hnode =>
    have hlen : (pool n).live.length = (pool n).size := by
      rw [hnode]
      simp [Node.size, Node.live]
    rw [descendRight, ← hlen, ← hp, Nat.add_sub_cancel]
    rfl
  | @index d n size i p item rest pre post l hnode hi hrest ih =>
    obtain ⟨item', size', hnode', -, hchild⟩ := hshaped
    obtain ⟨rfl, rfl⟩ := Node.index.inj (hnode.symm.trans hnode')
    obtain ⟨rfl, hnil⟩ := append_eq_nil_iff.mp hpost
    have hlast : ¬ i + 1 < size := fun hlt => by
      rw [range'_cut hlt, flatMap_cons] at hnil
      exact (hchild (i + 1) hlt).1.leaves_ne_nil (append_eq_nil_iff.mp hnil).1
    obtain rfl : i = size - 1 := by omega
    have hsize : (pool n).size = size := by rw [hnode]; rfl
    have hdown : (pool n).child (size - 1) = (item (size - 1)).2 := by rw [hnode]; rfl
    rw [descendRight, hsize, hdown, ← ih (hchild _ hi).1 hp rfl]

/-- **One to the right**: the next item of the leaf, or the first one of the next leaf. -/
theorem advance_at (hshaped : Shaped pool d n) (h : At pool d n c pre l post p) :
    (p + 1 < l.length → ∃ c', advance pool c = some c' ∧ At pool d n c' pre l post (p + 1)) ∧
      (l.length ≤ p + 1 → post = [] → advance pool c = none) ∧
      (l.length ≤ p + 1 → ∀ l' post', post = l' :: post' →
        ∃ c', advance pool c = some c' ∧ At pool d n c' (pre ++ [l]) l' post' 0) := by
  induction h with
  | @leaf n size p item hnode =>
    have hlen : (pool n).live.length = (pool n).size := by
      rw [hnode]
      simp [Node.size, Node.live]
    rw [hlen]
    refine ⟨fun hp => ⟨_, if_pos hp, .leaf hnode⟩, fun hp _ => if_neg (not_lt.mpr hp), fun _ _ _ => nofun⟩
  | @index d n size i p item rest pre post l hnode hi hrest ih =>
    obtain ⟨item', size', hnode', -, hchild⟩ := hshaped
    obtain ⟨rfl, rfl⟩ := Node.index.inj (hnode.symm.trans hnode')
    obtain ⟨hsame, hend, hnext⟩ := ih (hchild i hi).1
    have hsize : (pool n).size = size := by rw [hnode]; rfl
    refine ⟨fun hp => ?_, fun hp hpost => ?_, fun hp l' post' hpost => ?_⟩
    · obtain ⟨rest', hadv, hat⟩ := hsame hp
      refine ⟨(pool n, i) :: rest', ?_, .index hnode hi hat⟩
      rw [advance, hadv]
    · obtain ⟨rfl, hnil⟩ := append_eq_nil_iff.mp hpost
      have hlast : ¬ i + 1 < size := fun hlt => by
        rw [range'_cut hlt, flatMap_cons] at hnil
        exact (hchild (i + 1) hlt).1.leaves_ne_nil (append_eq_nil_iff.mp hnil).1
      rw [advance, hend hp rfl]
      rw [hsize, if_neg hlast]
    · rcases post with _ | ⟨l1, post1⟩
      · -- the child is at its end, so the index moves
        have hlt : i + 1 < size := by
          by_contra hge
          rw [show size - (i + 1) = 0 by omega, range'_zero] at hpost
          nomatch hpost
        obtain ⟨l2, post2, hdown⟩ := descendLeft_at (hchild (i + 1) hlt).1
        have hzero : (pool n).child (i + 1) = (item (i + 1)).2 := by rw [hnode]; rfl
        have hat := At.index hnode hlt hdown
        rw [range'_cut hlt, flatMap_cons, hdown.leaves_eq, nil_append, nil_append,
          cons_append] at hpost
        obtain ⟨rfl, rfl⟩ := cons.inj hpost
        rw [range_succ, flatMap_append, flatMap_singleton, hrest.leaves_eq, append_nil,
          ← append_assoc] at hat
        refine ⟨_, ?_, hat⟩
        rw [advance, hend hp rfl]
        rw [hsize, if_pos hlt, hzero, hrest.length_eq]
      · obtain ⟨rest', hadv, hat⟩ := hnext hp l1 post1 rfl
        obtain ⟨rfl, rfl⟩ := cons.inj hpost
        refine ⟨(pool n, i) :: rest', ?_, ?_⟩
        · rw [advance, hadv]
        · rw [append_assoc]
          exact .index hnode hi hat

/-- **One to the left**: the item before in the leaf, or the last one of the leaf before. -/
theorem retreat_at (hshaped : Shaped pool d n) (h : At pool d n c pre l post p) :
    (0 < p → ∃ c', retreat pool c = some c' ∧ At pool d n c' pre l post (p - 1)) ∧
      (p = 0 → pre = [] → retreat pool c = none) ∧
      (p = 0 → ∀ pre' l', pre = pre' ++ [l'] →
        ∃ c', retreat pool c = some c' ∧ At pool d n c' pre' l' (l :: post) (l'.length - 1)) := by
  induction h with
  | @leaf n size p item hnode =>
    refine ⟨fun hp => ⟨_, if_pos hp, .leaf hnode⟩, fun hp _ => if_neg (by omega), fun _ _ _ h => ?_⟩
    exact absurd h.symm (append_ne_nil_of_right_ne_nil _ (cons_ne_nil _ _))
  | @index d n size i p item rest pre post l hnode hi hrest ih =>
    obtain ⟨item', size', hnode', -, hchild⟩ := hshaped
    obtain ⟨rfl, rfl⟩ := Node.index.inj (hnode.symm.trans hnode')
    obtain ⟨hsame, hend, hnext⟩ := ih (hchild i hi).1
    refine ⟨fun hp => ?_, fun hp hpre => ?_, fun hp pre' l' hpre => ?_⟩
    · obtain ⟨rest', hret, hat⟩ := hsame hp
      refine ⟨(pool n, i) :: rest', ?_, .index hnode hi hat⟩
      rw [retreat, hret]
    · obtain ⟨hnil, rfl⟩ := append_eq_nil_iff.mp hpre
      have hfirst : ¬ 0 < i := fun hlt => by
        obtain ⟨i, rfl⟩ := Nat.exists_eq_succ_of_ne_zero hlt.ne'
        rw [Nat.succ_eq_add_one, range_succ, flatMap_append, flatMap_singleton] at hnil
        exact (hchild i (by omega)).1.leaves_ne_nil (append_eq_nil_iff.mp hnil).2
      rw [retreat, hend hp rfl]
      rw [if_neg hfirst]
    · rcases eq_nil_or_concat pre with rfl | ⟨pre1, l1, rfl⟩
      · -- the child is at its beginning, so the index moves
        have hlt : 0 < i := by
          by_contra hge
          obtain rfl : i = 0 := by omega
          exact absurd hpre.symm (append_ne_nil_of_right_ne_nil _ (cons_ne_nil _ _))
        obtain ⟨i, rfl⟩ := Nat.exists_eq_succ_of_ne_zero hlt.ne'
        rw [Nat.succ_eq_add_one] at *
        obtain ⟨pre2, l2, hdown⟩ := descendRight_at (hchild i (by omega)).1
        have hprev : (pool n).child i = (item i).2 := by rw [hnode]; rfl
        have hat := At.index hnode (show i < size by omega) hdown
        rw [range_succ, flatMap_append, flatMap_singleton, hdown.leaves_eq, append_nil,
          ← append_assoc] at hpre
        obtain ⟨rfl, rfl⟩ := append_singleton_inj.mp hpre
        rw [range'_cut hi, flatMap_cons, hrest.leaves_eq, nil_append, nil_append,
          cons_append] at hat
        refine ⟨_, ?_, hat⟩
        rw [retreat, hend hp rfl]
        rw [if_pos hlt, Nat.add_sub_cancel, hprev, hrest.length_eq]
      · obtain ⟨rest', hret, hat⟩ := hnext hp pre1 l1 (by rw [concat_eq_append])
        rw [concat_eq_append, ← append_assoc] at hpre
        obtain ⟨rfl, rfl⟩ := append_singleton_inj.mp hpre
        refine ⟨(pool n, i) :: rest', ?_, ?_⟩
        · rw [retreat, hret]
        · exact .index hnode hi hat

end steps

section moves

variable {K V : Type} {t : Table K V} {p : ℕ} {c c' : Cursor K V} {pre post : List (List (K × V))} {l : List (K × V)}

theorem At.depth_ne_zero (h : At t.pool t.depth t.root c pre l post p) : t.depth ≠ 0 := by
  intro hzero
  rw [hzero] at h
  cases h

theorem moveRight_of_advance (h : At t.pool t.depth t.root c pre l post p) (hadv : advance t.pool c = some c') :
    t.moveRight c = (1, c') := by
  rw [Table.moveRight, if_neg h.depth_ne_zero, hadv]

theorem moveRight_last (hshaped : Shaped t.pool t.depth t.root) (h : At t.pool t.depth t.root c pre l [] p)
    (hp : l.length ≤ p + 1) :
    t.moveRight c = if p < l.length then (0, intoAddPosition c) else (-1, c) := by
  obtain ⟨item, size, hlast, rfl⟩ := h.getLast?_eq
  rw [Table.moveRight, if_neg h.depth_ne_zero, (advance_at hshaped h).2.1 hp rfl]
  rw [hlast, length_map, length_range]
  rfl

end moves

/-! ### The law of `find` -/

section law

variable {K V : Type} [LinearOrder K] {t : Table K V} {key : K} {pre post : List (List (K × V))} {l : List (K × V)}
  {p : ℕ}

theorem Table.Wf.root_size_ne_zero (hwf : t.Wf) (hd : t.depth ≠ 0) : (t.pool t.root).size ≠ 0 := by
  have hfull := hwf.full
  have hshaped := hwf.shaped hd
  rw [Table.leaves] at hfull
  match hdepth : t.depth, hshaped with
  | 1, ⟨item, size, hnode⟩ =>
    rw [hdepth, Btree.leaves, hnode] at hfull
    rw [hnode]
    intro hzero
    obtain rfl : size = 0 := hzero
    exact hfull [] (mem_singleton.mpr rfl) rfl
  | d + 2, ⟨item, size, hnode, hpos, _⟩ =>
    rw [hnode]
    exact hpos.ne'

/-- The result of `find` before these items. -/
def resultAt (key : K) : List (K × V) → ℤ
  | [] => Cursor.OOB
  | a :: _ => if a.1 = key then Cursor.MATCH else Cursor.INSERT

/-- Where `find` comes out, its result is read off the item there. -/
theorem Lands.find_eq (hwf : t.Wf) (hd : t.depth ≠ 0) (h : Lands t.pool key t.depth t.root pre l post p) :
    t.find key = (resultAt key (l.drop p), findFrom t.pool key t.depth t.root) := by
  obtain ⟨item, size, hlast, rfl⟩ := h.at_pos.getLast?_eq
  rw [Table.find, if_neg hd, if_neg (hwf.root_size_ne_zero hd)]
  dsimp only
  rw [hlast]
  dsimp only
  by_cases hp : p < size
  · rw [drop_eq_getElem_cons (by simpa using hp), if_pos (show p + 1 ≤ (Node.leaf item size).size from hp)]
    simp only [getElem_map, getElem_range, resultAt]
    by_cases heq : (item p).1 = key
    · rw [if_pos (show (Node.leaf item size).key p = key from heq), if_pos heq]
    · rw [if_neg (show ¬ (Node.leaf item size).key p = key from heq), if_neg heq]
  · rw [drop_eq_nil_of_le (by simp; omega), if_neg (show ¬ p + 1 ≤ (Node.leaf item size).size from hp)]
    rfl

/-- Behind the last item of a leaf that is not the last one, `find` has come out in a gap. -/
theorem Lands.inGap_iff (hwf : t.Wf) (h : Lands t.pool key t.depth t.root pre l post p) :
    InGap t key ↔ p = l.length ∧ post ≠ [] := by
  have hleaves : t.leaves = pre ++ l :: post := h.at_pos.leaves_eq
  have hne : l ≠ [] := hwf.full l (by rw [hleaves]; simp)
  constructor
  · rintro ⟨ls, ls', hls, hls', hcut, hlow, hhigh⟩
    -- a leaf of the upper part would begin above the key
    have hlower : pre ≠ [] → l ∉ ls' := fun hpre hl => by
      obtain ⟨a, rest, rfl⟩ := exists_cons_of_ne_nil hne
      have hgt := hhigh a (mem_flatten.mpr ⟨_, hl, mem_cons_self⟩)
      exact absurd (h.first hpre a rfl) (not_le.mpr hgt)
    rw [hleaves] at hcut
    rcases append_eq_append_iff.mp hcut with ⟨as, rfl, hrest⟩ | ⟨bs, rfl, hrest⟩
    · rcases as with _ | ⟨l1, as⟩
      · rw [append_nil] at hls
        rw [nil_append] at hrest
        exact absurd (hrest ▸ mem_cons_self) (hlower hls)
      · obtain ⟨rfl, rfl⟩ := cons.inj hrest
        refine ⟨le_antisymm h.le_length (not_lt.mp fun hp => ?_), fun hnil => hls' (append_eq_nil_iff.mp hnil).2⟩
        have hge : key ≤ l[p].1 := h.above _ (mem_drop_iff_getElem.mpr ⟨0, by simpa using hp, by simp⟩)
        refine absurd (hlow l[p] (mem_flatten.mpr ⟨l, ?_, getElem_mem hp⟩)) (not_lt.mpr hge)
        exact mem_append_right _ mem_cons_self
    · refine absurd (hrest ▸ mem_append_right _ mem_cons_self) (hlower ?_)
      exact append_ne_nil_of_left_ne_nil hls _
  · rintro ⟨rfl, hpost⟩
    refine ⟨pre ++ [l], post, append_ne_nil_of_right_ne_nil _ (cons_ne_nil _ _), hpost, ?_, ?_, h.behind⟩
    · rw [hleaves, append_assoc, singleton_append]
    · intro a ha
      rw [flatten_append, flatten_singleton] at ha
      rcases mem_append.mp ha with ha | ha
      · exact h.before a ha
      · exact h.below a (by rwa [take_length])

/-- Where `find` comes out, outside the gaps: before the items that are not below the key. -/
structure SplitAt (t : Table K V) (key : K) (A B : List (K × V)) : Prop where
  cut : t.leaves.flatten = A ++ B
  below : ∀ a ∈ A, a.1 < key
  above : ∀ a ∈ B, key ≤ a.1
  result : (t.find key).1 = resultAt key B
  cursor : B ≠ [] → ∃ pre l post p, At t.pool t.depth t.root (t.find key).2 pre l post p ∧ p < l.length ∧
    B = l.drop p ++ post.flatten

theorem find_split (hwf : t.Wf) (hgap : ¬ InGap t key) : ∃ A B, SplitAt t key A B := by
  by_cases hd : t.depth = 0
  · have hfind : t.find key = (Cursor.OOB, []) := by rw [Table.find, if_pos hd]
    refine ⟨[], [], ?_, nofun, nofun, ?_, fun h => absurd rfl h⟩
    · rw [Table.leaves, hd]
      rfl
    · rw [hfind]
      rfl
  · obtain ⟨pre, l, post, p, h⟩ := @findFrom_lands _ _ _ _ _ _ key (hwf.shaped hd) hwf.sorted
    have hfind := h.find_eq hwf hd
    have hcut : t.leaves.flatten = (pre.flatten ++ l.take p) ++ (l.drop p ++ post.flatten) := by
      have hleaves : t.leaves = pre ++ l :: post := h.at_pos.leaves_eq
      rw [hleaves, flatten_append, flatten_cons, append_assoc, ← append_assoc (l.take p),
        take_append_drop]
    have hpost : l.drop p = [] → post = [] := fun hnil => by
      by_contra hne
      exact hgap ((h.inGap_iff hwf).mpr ⟨le_antisymm h.le_length (drop_eq_nil_iff.mp hnil), hne⟩)
    refine ⟨_, _, hcut, fun a ha => (mem_append.mp ha).elim (h.before a) (h.below a),
      fun a ha => (mem_append.mp ha).elim (h.above a) fun ha => (h.behind a ha).le, ?_, fun hne => ?_⟩
    · rw [hfind]
      cases hdrop : l.drop p with
      | nil => rw [hpost hdrop]; rfl
      | cons a rest => rfl
    · refine ⟨pre, l, post, p, ?_, ?_, rfl⟩
      · rw [hfind]
        exact h.at_pos
      · by_contra hp
        have hdrop : l.drop p = [] := drop_eq_nil_of_le (not_lt.mp hp)
        rw [hpost hdrop, hdrop] at hne
        exact hne rfl

/-- There, the result of `find` is right. -/
theorem SplitAt.findLaw {A B : List (K × V)} (hwf : t.Wf) (h : SplitAt t key A B) : FindLaw t key := by
  obtain ⟨hcut, hA, hB, hres, hcursor⟩ := h
  have hsorted := hwf.sorted
  have hcur : ∀ a ∈ B.head?, current (t.find key).2 = some a := by
    intro a ha
    obtain ⟨rest, rfl⟩ := head?_eq_some_iff.mp ha
    obtain ⟨pre, l, post, p, hat, hp, hrest⟩ := hcursor (cons_ne_nil _ _)
    rw [drop_eq_getElem_cons hp] at hrest
    rw [hat.current_eq hp, (cons.inj hrest).1]
  have hkeys : ∀ k, k ∈ t.keys ↔ (∃ a ∈ A, a.1 = k) ∨ ∃ a ∈ B, a.1 = k := fun k => by
    rw [Table.keys, hcut, map_append, mem_append, mem_map, mem_map]
  have hbelow : ∀ k, key ≤ k → (k ∈ t.keys ↔ ∃ a ∈ B, a.1 = k) := fun k hk => by
    rw [hkeys]
    refine or_iff_right ?_
    rintro ⟨a, ha, rfl⟩
    exact absurd (hA a ha) (not_lt.mpr hk)
  rw [hcut, pairwise_append] at hsorted
  rcases B with _ | ⟨b, B⟩
  · -- all keys are smaller
    have hall : ∀ k ∈ t.keys, k < key := fun k hk => by
      by_contra hge
      obtain ⟨a, ha, -⟩ := (hbelow k (not_lt.mp hge)).mp hk
      nomatch ha
    refine ⟨?_, ?_, ?_, ?_, ?_⟩
    · rw [hres]
      exact ⟨nofun, fun hk => absurd (hall _ hk) (lt_irrefl _)⟩
    · rw [hres]
      exact nofun
    · rw [hres]
      refine ⟨nofun, ?_⟩
      rintro ⟨-, k, hk, hlt⟩
      exact absurd (hall k hk) hlt.not_gt
    · rw [hres]
      exact nofun
    · exact ⟨fun _ => hall, fun _ => hres⟩
  · have hcur' : current (t.find key).2 = some b := hcur b rfl
    have hge : key ≤ b.1 := hB b mem_cons_self
    have hb : b.1 ∈ t.keys := (hbelow b.1 hge).mpr ⟨b, mem_cons_self, rfl⟩
    have hleast : ∀ k ∈ t.keys, key ≤ k → b.1 ≤ k := fun k hk hle => by
      obtain ⟨a, ha, rfl⟩ := (hbelow k hle).mp hk
      rcases mem_cons.mp ha with rfl | ha
      · exact le_rfl
      · exact ((pairwise_cons.mp hsorted.2.1).1 a ha).le
    have hend : ¬ ∀ k ∈ t.keys, k < key := fun hall => absurd (hall _ hb) (not_lt.mpr hge)
    rw [resultAt] at hres
    by_cases heq : b.1 = key
    · rw [if_pos heq] at hres
      refine ⟨?_, ?_, ?_, ?_, ?_⟩
      · exact ⟨fun _ => heq ▸ hb, fun _ => hres⟩
      · exact fun _ => ⟨b.2, by rw [hcur', ← heq]⟩
      · rw [hres]
        exact ⟨nofun, fun h => absurd (heq ▸ hb) h.1⟩
      · rw [hres]
        exact nofun
      · rw [hres]
        exact ⟨nofun, fun h => absurd h hend⟩
    · rw [if_neg heq] at hres
      have hgt : key < b.1 := lt_of_le_of_ne hge (Ne.symm heq)
      have habs : key ∉ t.keys := fun hk => absurd (hleast key hk le_rfl) (not_le.mpr hgt)
      refine ⟨?_, ?_, ?_, ?_, ?_⟩
      · rw [hres]
        exact ⟨nofun, fun hk => absurd hk habs⟩
      · rw [hres]
        exact nofun
      · exact ⟨fun _ => ⟨habs, b.1, hb, hgt⟩, fun _ => hres⟩
      · exact fun _ => ⟨b.1, b.2, hcur', hb, hgt, fun k hk hlt => hleast k hk hlt.le⟩
      · rw [hres]
        exact ⟨nofun, fun h => absurd h hend⟩

theorem SplitAt.nonneg {A B : List (K × V)} (h : SplitAt t key A B) (hne : B ≠ []) : 0 ≤ (t.find key).1 := by
  obtain ⟨b, B', rfl⟩ := exists_cons_of_ne_nil hne
  rw [h.result, resultAt]
  split <;> decide

/-- To the right of an item is the next one, if there is one. -/
theorem moveRight_item (hwf : t.Wf) {c : Cursor K V} (h : At t.pool t.depth t.root c pre l post p) (hp : p < l.length) :
    (∃ c' pre' l' post' p', t.moveRight c = (1, c') ∧ At t.pool t.depth t.root c' pre' l' post' p' ∧ p' < l'.length ∧
      l.drop (p + 1) ++ post.flatten = l'.drop p' ++ post'.flatten) ∨
    l.length ≤ p + 1 ∧ post = [] ∧ t.moveRight c = (0, intoAddPosition c) := by
  have hshaped := hwf.shaped h.depth_ne_zero
  obtain ⟨hsame, -, hnext⟩ := advance_at hshaped h
  rcases lt_or_ge (p + 1) l.length with hp' | hp'
  · obtain ⟨c', hadv, hat⟩ := hsame hp'
    exact .inl ⟨c', _, _, _, _, moveRight_of_advance h hadv, hat, hp', rfl⟩
  · rcases post with _ | ⟨l', post⟩
    · exact .inr ⟨hp', rfl, by rw [moveRight_last hshaped h hp', if_pos hp]⟩
    · obtain ⟨c', hadv, hat⟩ := hnext hp' l' post rfl
      have hmem : l' ∈ t.leaves := by
        rw [Table.leaves, h.leaves_eq]
        simp
      refine .inl ⟨c', _, _, _, _, moveRight_of_advance h hadv, hat, length_pos_iff.mpr (hwf.full l' hmem), ?_⟩
      rw [drop_eq_nil_of_le hp', nil_append, drop_zero, flatten_cons]

/-- **The loop of a scan** comes past all items from the cursor on. -/
theorem scanLoop_eq (hwf : t.Wf) {fuel : ℕ} {c : Cursor K V} (h : At t.pool t.depth t.root c pre l post p)
    (hp : p < l.length) (hfuel : (l.drop p ++ post.flatten).length ≤ fuel) :
    t.scanLoop fuel c = (l.drop p ++ post.flatten).map Prod.fst := by
  induction fuel generalizing c pre l post p with
  | zero =>
    rw [drop_eq_getElem_cons hp] at hfuel
    exact absurd hfuel (Nat.not_succ_le_zero _)
  | succ fuel ih =>
    rw [drop_eq_getElem_cons hp, cons_append, length_cons] at hfuel
    rw [Table.scanLoop, h.current_eq hp, drop_eq_getElem_cons hp, cons_append, map_cons]
    dsimp only
    refine congrArg _ ?_
    rcases moveRight_item hwf h hp with ⟨c', pre', l', post', p', hmove, hat, hp', hrest⟩ | ⟨hend, rfl, hstop⟩
    · rw [hrest] at hfuel ⊢
      rw [hmove, if_neg (by simp)]
      exact ih hat hp' (Nat.le_of_succ_le_succ hfuel)
    · rw [hstop, if_pos (by simp), drop_eq_nil_of_le hend]
      rfl

theorem InGap.exists_larger (hwf : t.Wf) (h : InGap t key) : ∃ k ∈ t.keys, key < k := by
  obtain ⟨ls, ls', -, hls', hcut, -, hhigh⟩ := h
  obtain ⟨l, rest, rfl⟩ := exists_cons_of_ne_nil hls'
  obtain ⟨a, ha⟩ := exists_mem_of_ne_nil l (hwf.full l (by rw [hcut]; simp))
  have hmem : a ∈ (l :: rest).flatten := mem_flatten.mpr ⟨l, mem_cons_self, ha⟩
  refine ⟨a.1, ?_, hhigh a hmem⟩
  rw [Table.keys, hcut, flatten_append]
  exact mem_map_of_mem (mem_append_right _ hmem)

theorem InGap.not_mem (h : InGap t key) : key ∉ t.keys := by
  obtain ⟨ls, ls', -, -, hcut, hlow, hhigh⟩ := h
  intro hk
  rw [Table.keys, hcut, flatten_append] at hk
  obtain ⟨a, ha, rfl⟩ := mem_map.mp hk
  rcases mem_append.mp ha with ha | ha
  · exact lt_irrefl _ (hlow a ha)
  · exact lt_irrefl _ (hhigh a ha)

theorem InGap.depth_ne_zero (h : InGap t key) : t.depth ≠ 0 := by
  obtain ⟨ls, ls', hls, -, hcut, -⟩ := h
  intro hd
  rw [Table.leaves, hd] at hcut
  exact hls (append_eq_nil_iff.mp hcut.symm).1

/-- `find` takes the gap for the end of the table. -/
theorem InGap.find_eq (hwf : t.Wf) (h : InGap t key) : (t.find key).1 = Cursor.OOB := by
  have hd := h.depth_ne_zero
  obtain ⟨pre, l, post, p, hl⟩ := @findFrom_lands _ _ _ _ _ _ key (hwf.shaped hd) hwf.sorted
  obtain ⟨rfl, -⟩ := (hl.inGap_iff hwf).mp h
  rw [hl.find_eq hwf hd, drop_length]
  rfl

theorem InGap.not_findLaw (hwf : t.Wf) (h : InGap t key) : ¬ FindLaw t key := by
  intro hlaw
  obtain ⟨k, hk, hlt⟩ := h.exists_larger hwf
  exact absurd (hlaw.at_end.mp (h.find_eq hwf) k hk) hlt.not_gt

/-- `n` keys on each side of the key `n`, in a leaf each. -/
def gapTable (n : ℕ) : Table ℕ ℕ where
  pool
    | 0 => .index (fun i => if i = 0 then (0, 1) else (n + 1, 2)) 2
    | 1 => .leaf (fun i => (i, 0)) n
    | _ => .leaf (fun i => (n + 1 + i, 0)) n
  root := 0
  nkeys := 2 * n
  depth := 2

theorem gapTable_leaves (n : ℕ) : (gapTable n).leaves =
    [(range n).map fun i => (i, 0), (range n).map fun i => (n + 1 + i, 0)] := rfl

theorem gapTable_wf {n : ℕ} (hn : 0 < n) : (gapTable n).Wf := by
  refine ⟨fun _ => ⟨_, _, rfl, Nat.zero_lt_two, fun i hi => ?_⟩, ?_, ?_, ?_⟩
  · obtain ⟨m, rfl⟩ := Nat.exists_eq_succ_of_ne_zero hn.ne'
    match i, hi with
    | 0, _ =>
      refine ⟨⟨_, _, rfl⟩, ?_⟩
      simp [leaves, Node.live, gapTable, range_succ_eq_map]
    | 1, _ =>
      refine ⟨⟨_, _, rfl⟩, ?_⟩
      simp [leaves, Node.live, gapTable, range_succ_eq_map]
  · intro l hl
    rw [gapTable_leaves] at hl
    simp only [mem_cons, not_mem_nil, or_false] at hl
    rcases hl with rfl | rfl
    · simpa using hn.ne'
    · simpa using hn.ne'
  · rw [gapTable_leaves, flatten_cons, flatten_singleton, pairwise_append]
    refine ⟨?_, ?_, ?_⟩
    · exact pairwise_map.mpr pairwise_lt_range
    · exact pairwise_map.mpr (pairwise_lt_range.imp fun h => Nat.add_lt_add_left h _)
    · simp only [mem_map, mem_range]
      rintro a ⟨i, hi, rfl⟩ b ⟨j, hj, rfl⟩
      omega
  · rw [Table.keys, gapTable_leaves]
    simp only [flatten_cons, flatten_nil, length_map, length_append, length_range, length_nil]
    change 2 * n = n + (n + 0)
    omega

theorem gapTable_inGap (n : ℕ) : InGap (gapTable n) n := by
  refine ⟨_, _, cons_ne_nil _ [], cons_ne_nil _ [], gapTable_leaves n, ?_, ?_⟩
  · intro a ha
    rw [flatten_singleton] at ha
    obtain ⟨i, hi, rfl⟩ := mem_map.mp ha
    exact mem_range.mp hi
  · intro a ha
    rw [flatten_singleton] at ha
    obtain ⟨i, -, rfl⟩ := mem_map.mp ha
    omega

/-- **The search law.** `find` tells where the key is, and a scan from it on comes past the keys that are
not smaller, exactly where the key does not lie between two leaves. -/
theorem find_enumerates (t : Table K V) (key : K) (hwf : t.Wf) :
    (FindLaw t key ∧ t.scan key = t.keys.filter fun k => key ≤ k) ↔ ¬ InGap t key := by
  refine ⟨fun hlaw hgap => hgap.not_findLaw hwf hlaw.1, fun hgap => ?_⟩
  obtain ⟨A, B, h⟩ := find_split hwf hgap
  refine ⟨h.findLaw hwf, ?_⟩
  have hfilter : t.keys.filter (fun k => key ≤ k) = B.map Prod.fst := by
    rw [Table.keys, h.cut, map_append, filter_append, filter_eq_nil_iff.mpr, nil_append,
      filter_eq_self]
    · intro k hk
      obtain ⟨a, ha, rfl⟩ := mem_map.mp hk
      exact decide_eq_true (h.above a ha)
    · intro k hk
      obtain ⟨a, ha, rfl⟩ := mem_map.mp hk
      simpa using h.below a ha
  rw [hfilter, Table.scan]
  by_cases hne : B = []
  · subst hne
    have hneg : ¬ 0 ≤ Cursor.OOB := by decide
    rw [if_neg (by rw [h.result]; exact hneg)]
    rfl
  · obtain ⟨pre, l, post, p, hat, hp, hrest⟩ := h.cursor hne
    rw [if_pos (h.nonneg hne), hrest]
    refine scanLoop_eq hwf hat hp ?_
    rw [← hrest, hwf.count, Table.keys, h.cut, length_map, length_append]
    exact Nat.le_add_left _ _

/-- The first key of a leaf is found, and the scan goes on from it. -/
theorem find_enumerates_on_key : FindLaw (gapTable 1) 2 ∧
    (gapTable 1).scan 2 = (gapTable 1).keys.filter fun k => 2 ≤ k := by
  have hmem : 2 ∈ (gapTable 1).keys := by decide
  exact (find_enumerates (gapTable 1) 2 (gapTable_wf Nat.one_pos)).mpr fun h => h.not_mem hmem

/-- A key between two leaves is not below all keys, but `find` says so, and a scan from there on is empty. -/
theorem find_gap : (gapTable 128).Wf ∧ ((gapTable 128).find 128).1 = Cursor.OOB ∧
    ¬ (FindLaw (gapTable 128) 128 ∧
      (gapTable 128).scan 128 = (gapTable 128).keys.filter fun k => 128 ≤ k) := by
  have hwf : (gapTable 128).Wf := gapTable_wf (by decide)
  have hgap : InGap (gapTable 128) 128 := gapTable_inGap 128
  exact ⟨hwf, hgap.find_eq hwf, fun h => hgap.not_findLaw hwf h.1⟩

end law

end Btree
end Ebofs
end Ceph
