/-
# Choosing by weight

A list bucket and a tree bucket yield an item of positive weight for every
input, whatever the hashes are. The scan of a list compares a draw below the sum
of the weights from an item on with the item's own weight; at the last item of
positive weight the two are the same. The nodes of a tree bucket are numbered in
order (`Inorder.node`), each carries the weight of the leaves below it, and a
walk that starts at a node of positive weight goes on to one.
-/
import Ceph.Crush.Mapper
import Ceph.Crush.Primes
import Ceph.Lib.Inorder

namespace Ceph
namespace Crush

open List Option
open Inorder

theorem u32_u32_add (a b : ℕ) : u32 (u32 a + b) = u32 (a + b) := by
  simp [u32]

theorem u32_add_u32 (a b : ℕ) : u32 (a + u32 b) = u32 (a + b) := by
  simp [u32]

theorem u32_of_lt {n : ℕ} (hn : n < 2 ^ 32) : u32 n = n := Nat.mod_eq_of_lt hn

/-! ### List buckets -/

theorem sumWeights_headD : ∀ ws : List ℕ, (sumWeights ws).headD 0 = u32 ws.sum
  | [] => rfl
  | w :: ws => by
    rw [sumWeights, headD_cons, sumWeights_headD ws, u32_add_u32, sum_cons]

theorem scaled_lt (n : UInt32) {w : ℕ} (hw : 0 < w) : (low16 n * w) >>> 16 < w := by
  have hlow : low16 n < 2 ^ 16 := Nat.mod_lt _ (Nat.two_pow_pos 16)
  rw [Nat.shiftRight_eq_div_pow, Nat.div_lt_iff_lt_mul (Nat.two_pow_pos 16), Nat.mul_comm w]
  exact mul_lt_mul_of_pos_right hlow hw

theorem listLoop_chooses (h : Hashes) (x r id : ℤ) : ∀ entries : List (ℤ × ℕ), 0 < (entries.map Prod.snd).sum →
    (entries.map Prod.snd).sum < 2 ^ 32 → ∃ e ∈ entries, 0 < e.2 ∧
      listLoop h x r id (entries.map Prod.fst) (entries.map Prod.snd) (sumWeights (entries.map Prod.snd)) = some e.1
  | [], hpos, _ => absurd hpos (lt_irrefl 0)
  | e :: entries, hpos, hlt => by
    simp only [map_cons, sum_cons] at hpos hlt
    simp only [map_cons, sumWeights, listLoop, sumWeights_headD, u32_add_u32]
    rw [u32_of_lt hlt]
    split_ifs with hdraw
    · exact ⟨e, mem_cons_self, Nat.zero_lt_of_lt hdraw, rfl⟩
    · -- the draw is not below the item's weight, so there is weight behind it
      have hrest : 0 < (entries.map Prod.snd).sum := by
        by_contra hzero
        rw [Nat.eq_zero_of_not_pos hzero, add_zero] at hdraw hpos
        exact hdraw (scaled_lt _ hpos)
      obtain ⟨e', he', hw, heq⟩ := listLoop_chooses h x r id entries hrest (by omega)
      exact ⟨e', mem_cons_of_mem e he', hw, heq⟩

variable {entries : List (ℤ × ℕ)} {ws : List ℕ} {depth : ℕ} {b : Bucket}

theorem map_u32 (hlt : (entries.map Prod.snd).sum < 2 ^ 32) :
    entries.map (fun e => u32 e.2) = entries.map Prod.snd := by
  refine map_congr_left fun e he => u32_of_lt (lt_of_le_of_lt ?_ hlt)
  exact single_le_sum (fun _ _ => Nat.zero_le _) _ (mem_map_of_mem he)

theorem makeListBucket_chooses (h : Hashes) (type : ℕ) (hpos : 0 < (entries.map Prod.snd).sum)
    (hlt : (entries.map Prod.snd).sum < 2 ^ 32) (id x r : ℤ) :
    ∃ e ∈ entries, 0 < e.2 ∧ bucketChoose h { makeListBucket type entries with id } x r = some e.1 := by
  obtain ⟨e, he, hw, heq⟩ := listLoop_chooses h x r id entries hpos hlt
  refine ⟨e, he, hw, ?_⟩
  simp only [bucketChoose, makeListBucket, listChoose, map_u32 hlt]
  exact heq

/-- **A list bucket yields an item of positive weight**, whatever the hashes are. -/
theorem list_chooses (h : Hashes) (type : ℕ) (entries : List (ℤ × ℕ)) (id x r : ℤ)
    (hpos : 0 < (entries.map Prod.snd).sum) (hlt : (entries.map Prod.snd).sum < 2 ^ 32) :
    ∃ e ∈ entries, 0 < e.2 ∧ bucketChoose h { makeListBucket type entries with id } x r = some e.1 :=
  makeListBucket_chooses h type hpos hlt id x r

/-- Zero weights before and after the item of positive weight. -/
theorem list_chooses_third : ∃ e ∈ [(4, 0), (5, 0), ((6 : ℤ), 65536), (7, 0)], 0 < e.2 ∧
    bucketChoose crushHashes { makeListBucket 2 [(4, 0), (5, 0), (6, 65536), (7, 0)] with id := -1 } 17 3 = some e.1 :=
  list_chooses crushHashes 2 [(4, 0), (5, 0), (6, 65536), (7, 0)] (-1) 17 3 (by decide) (by decide)

/-! ### The numbers of nodes -/

theorem heightLoop_node : ∀ (a k fuel : ℕ), a < fuel → heightLoop fuel (node a k) = a
  | _, _, 0, hf => absurd hf (Nat.not_lt_zero _)
  | 0, k, fuel + 1, _ => by
    rw [heightLoop, node_leaf, if_neg (by omega)]
  | a + 1, k, fuel + 1, hf => by
    have heven : node (a + 1) k % 2 = 0 := by
      rw [node_double]
      omega
    have hhalf : node (a + 1) k / 2 = node a k := by
      rw [node_double]
      omega
    rw [heightLoop, if_pos heven, hhalf, heightLoop_node a k fuel (by omega)]

/-- `height` is the height of a node. -/
theorem height_node (a k : ℕ) : height (node a k) = a := by
  refine heightLoop_node a k _ ?_
  calc a < 2 ^ a := Nat.lt_two_pow_self
    _ ≤ node a k := Nat.le_mul_of_pos_right _ (Nat.succ_pos _)

/-- `parent` goes up one height. -/
theorem parent_node (a k : ℕ) : parent (node a k) = node (a + 1) (k / 2) := by
  have hside : onRight (node a k) a = decide (k % 2 = 1) := by
    have hdiv : node a k / 2 ^ (a + 1) = k := by
      rw [node, pow_succ, ← Nat.div_div_eq_div_mul, Nat.mul_div_cancel_left _ (Nat.two_pow_pos a)]
      omega
    rw [onRight, Nat.testBit_eq_decide_div_mod_eq, hdiv]
  rw [parent, node_up]
  simp only [height_node, hside, Nat.one_shiftLeft, decide_eq_true_eq]

theorem left_node (a k : ℕ) : left (node (a + 1) k) = node a (2 * k) := by
  rw [left, height_node, Nat.add_sub_cancel, Nat.one_shiftLeft, node_left]

theorem right_node (a k : ℕ) : right (node (a + 1) k) = node a (2 * k + 1) := by
  rw [right, height_node, Nat.add_sub_cancel, Nat.one_shiftLeft, node_right]

theorem lt_depthLoop : ∀ fuel t : ℕ, t ≤ fuel → t < 2 ^ depthLoop fuel t
  | 0, t, ht => by
    rw [Nat.le_zero.mp ht]
    exact Nat.two_pow_pos _
  | fuel + 1, t, ht => by
    unfold depthLoop
    split_ifs with h0
    · rw [h0]
      exact Nat.two_pow_pos _
    · have hrec := lt_depthLoop fuel (t / 2) (by omega)
      rw [pow_succ]
      omega

theorem le_leaves {size : ℕ} (hs : 0 < size) : size ≤ 2 ^ (treeDepth size - 1) := by
  have hlt := lt_depthLoop size (size - 1) (Nat.sub_le _ _)
  rw [treeDepth, Nat.add_sub_cancel]
  omega

theorem treeDepth_pos (size : ℕ) : 0 < treeDepth size := Nat.succ_pos _

/-! ### Making a tree bucket -/

theorem length_climb (w : ℕ) : ∀ (j n : ℕ) (ws : List ℕ), (climb w j n ws).length = ws.length
  | 0, _, _ => rfl
  | j + 1, n, ws => by
    rw [climb, length_climb w j, length_modify]

theorem getD_modify {n m : ℕ} (f : ℕ → ℕ) (hm : m < ws.length) :
    (ws.modify n f).getD m 0 = if n = m then f (ws.getD m 0) else ws.getD m 0 := by
  simp only [getD_eq_getElem?_getD, getElem?_modify, getElem?_eq_getElem hm, getD_some]
  split_ifs <;> rfl

/-- A weight is added to the nodes above, one at each height. -/
theorem getD_climb (w : ℕ) : ∀ (j a k b l : ℕ) (ws : List ℕ), node b l < ws.length →
    (climb w j (node a k) ws).getD (node b l) 0 =
      if a < b ∧ b ≤ a + j ∧ l = k / 2 ^ (b - a) then u32 (ws.getD (node b l) 0 + w) else ws.getD (node b l) 0
  | 0, a, k, b, l, ws, _ => by
    rw [climb, if_neg (by omega)]
  | j + 1, a, k, b, l, ws, hlen => by
    have hlen' : node b l < (ws.modify (node (a + 1) (k / 2)) fun v => u32 (v + w)).length := by
      rwa [length_modify]
    rw [climb, parent_node, getD_climb w j (a + 1) (k / 2) b l _ hlen', getD_modify _ hlen]
    by_cases hb : b = a + 1
    · subst hb
      have hone : k / 2 ^ (a + 1 - a) = k / 2 := by
        rw [Nat.add_sub_cancel_left, pow_one]
      rw [if_neg (by omega), hone]
      by_cases hl : l = k / 2
      · rw [if_pos (by rw [hl]), if_pos ⟨by omega, by omega, hl⟩]
      · rw [if_neg fun he => hl (node_inj he).2.symm, if_neg fun hc => hl hc.2.2]
    · rw [if_neg fun he => hb (node_inj he).1.symm]
      by_cases hab : a + 1 < b
      · have hdiv : k / 2 / 2 ^ (b - (a + 1)) = k / 2 ^ (b - a) := by
          rw [Nat.div_div_eq_div_mul, ← pow_succ']
          congr 2
          omega
        rw [hdiv]
        have hiff : (a + 1 < b ∧ b ≤ a + 1 + j ∧ l = k / 2 ^ (b - a)) ↔ (a < b ∧ b ≤ a + (j + 1) ∧ l = k / 2 ^ (b - a)) := by
          omega
        simp only [hiff]
      · rw [if_neg (by omega), if_neg (by omega)]

/-- The weight of the `i`-th item. -/
def weightAt (entries : List (ℤ × ℕ)) (i : ℕ) : ℕ := (entries.map Prod.snd).getD i 0

/-- A tree of which the first `i` items have been put in. -/
structure Filled (entries : List (ℤ × ℕ)) (depth i : ℕ) (t : Tree) : Prop where
  length_items : t.items.length = 2 ^ depth
  length_nodes : t.nodeWeights.length = 2 ^ depth
  items : ∀ j e, j < i → entries[j]? = some e → t.items[node 0 j]? = some e.1
  nodes : ∀ a k, node a k < 2 ^ depth → t.nodeWeights.getD (node a k) 0 = u32 (span (weightAt entries) i a k)
  weight : t.weight = u32 (∑ j ∈ Finset.range i, weightAt entries j)

theorem filled_empty (entries : List (ℤ × ℕ)) (depth : ℕ) :
    Filled entries depth 0 ⟨replicate (2 ^ depth) 0, replicate (2 ^ depth) 0, 0⟩ where
  length_items := length_replicate
  length_nodes := length_replicate
  items := fun _ _ hj => absurd hj (Nat.not_lt_zero _)
  nodes := by
    intro a k hn
    rw [span_zero, getD_eq_getElem?_getD, getElem?_replicate, if_pos hn]
    rfl
  weight := rfl

theorem Filled.put {depth i : ℕ} {t : Tree} {e : ℤ × ℕ} (hf : Filled entries depth i t)
    (he : entries[i]? = some e) (hi : i < 2 ^ (depth - 1)) (hd : 0 < depth) :
    Filled entries depth (i + 1) (t.put depth i e) := by
  have hnode : (i + 1) <<< 1 - 1 = node 0 i := by
    rw [node_leaf, Nat.shiftLeft_eq]
    omega
  have hw : weightAt entries i = e.2 := by
    simp [weightAt, he]
  have hleaf : node 0 i < 2 ^ depth := (node_lt_iff hd i).mpr hi
  have hset : (t.nodeWeights.set (node 0 i) (u32 e.2)).length = 2 ^ depth := by
    rw [length_set, hf.length_nodes]
  refine ⟨?_, ?_, ?_, ?_, ?_⟩
  · simp only [Tree.put, length_set, hf.length_items]
  · simp only [Tree.put, length_climb, length_set, hf.length_nodes]
  · intro j e' hj hj'
    simp only [Tree.put, hnode]
    by_cases hji : j = i
    · subst hji
      rw [he] at hj'
      cases hj'
      exact getElem?_set_self (by rwa [hf.length_items])
    · rw [getElem?_set_ne fun h => hji (node_inj h).2.symm]
      exact hf.items j e' (by omega) hj'
  · intro a k hn
    have hal := height_lt hn
    simp only [Tree.put, hnode]
    rw [getD_climb _ _ _ _ _ _ _ (by rw [hset]; exact hn), span_add, hw, Nat.sub_zero]
    by_cases ha : a = 0
    · subst ha
      rw [if_neg (by omega), pow_zero, Nat.div_one]
      by_cases hki : i = k
      · subst hki
        rw [if_pos rfl, span_leaf, if_neg (lt_irrefl i), zero_add, getD_eq_getElem?_getD,
          getElem?_set_self (by rwa [hf.length_nodes]), getD_some]
      · rw [if_neg hki, add_zero, getD_eq_getElem?_getD, getElem?_set_ne fun h => hki (node_inj h).2,
          ← getD_eq_getElem?_getD]
        exact hf.nodes 0 k hn
    · have hne : node 0 i ≠ node a k := fun h => ha (node_inj h).1.symm
      have hold : (t.nodeWeights.set (node 0 i) (u32 e.2)).getD (node a k) 0 = u32 (span (weightAt entries) i a k) := by
        rw [getD_eq_getElem?_getD, getElem?_set_ne hne, ← getD_eq_getElem?_getD]
        exact hf.nodes a k hn
      rw [hold]
      by_cases hk : k = i / 2 ^ a
      · rw [if_pos ⟨by omega, by omega, hk⟩, if_pos hk.symm, u32_u32_add, u32_add_u32]
      · rw [if_neg fun hc => hk hc.2.2, if_neg fun hc => hk hc.symm, add_zero]
  · simp only [Tree.put]
    rw [hf.weight, u32_u32_add, Finset.sum_range_succ, hw]

theorem putAll_spec (hd : 0 < depth) (hlen : entries.length ≤ 2 ^ (depth - 1)) :
    ∀ (rest : List (ℤ × ℕ)) (i : ℕ) (t : Tree), Filled entries depth i t → entries.drop i = rest →
      i ≤ entries.length → Filled entries depth entries.length (t.putAll depth i rest)
  | [], i, t, hf, hdrop, hi => by
    have heq : i = entries.length := le_antisymm hi (drop_eq_nil_iff.mp hdrop)
    rwa [Tree.putAll, ← heq]
  | e :: rest, i, t, hf, hdrop, hi => by
    have he : entries[i]? = some e := by
      rw [← head?_drop, hdrop, head?_cons]
    have hlt : i < entries.length := (List.getElem?_eq_some_iff.mp he).1
    refine putAll_spec hd hlen rest (i + 1) _ (hf.put he (by omega) hd) ?_ hlt
    rw [← drop_drop, hdrop, drop_one, tail_cons]

theorem sum_weightAt (entries : List (ℤ × ℕ)) :
    ∑ j ∈ Finset.range entries.length, weightAt entries j = (entries.map Prod.snd).sum := by
  have hlen : entries.length = (entries.map Prod.snd).length := by
    rw [length_map]
  rw [← Fin.sum_univ_getElem, hlen, Finset.sum_range]
  refine Finset.sum_congr rfl fun j _ => ?_
  rw [weightAt, getD_eq_getElem?_getD, getElem?_eq_getElem j.isLt, getD_some]

theorem span_lt (hlt : (entries.map Prod.snd).sum < 2 ^ 32) (a k : ℕ) :
    span (weightAt entries) entries.length a k < 2 ^ 32 := by
  calc span (weightAt entries) entries.length a k ≤ _ := span_le _ _ _ _
    _ = (entries.map Prod.snd).sum := sum_weightAt entries
    _ < 2 ^ 32 := hlt

/-- A tree bucket with each node's weight. -/
structure Weighted (entries : List (ℤ × ℕ)) (b : Bucket) (ws : List ℕ) (depth : ℕ) : Prop where
  alg : b.alg = .tree ws
  size : b.size = 2 ^ depth
  depth_pos : 0 < depth
  length : ws.length = 2 ^ depth
  weight : b.weight = (entries.map Prod.snd).sum
  leaves : entries.length ≤ 2 ^ (depth - 1)
  items : ∀ j e, entries[j]? = some e → b.items[node 0 j]? = some e.1
  nodes : ∀ a k, node a k < 2 ^ depth → ws[node a k]? = some (span (weightAt entries) entries.length a k)

/-- The builder's assertion holds, and each node carries the weight of the leaves below it. -/
theorem makeTreeBucket_weighted (type : ℕ) (hne : entries ≠ [])
    (hlt : (entries.map Prod.snd).sum < 2 ^ 32) :
    ∃ b ws depth, makeTreeBucket type entries = some b ∧ Weighted entries b ws depth := by
  have hlen : entries.length ≠ 0 := mt length_eq_zero_iff.mp hne
  have hd := treeDepth_pos entries.length
  have hleaves := le_leaves (pos_of_ne_zero hlen)
  obtain ⟨t, ht⟩ : ∃ t, t = Tree.putAll ⟨replicate (2 ^ treeDepth entries.length) 0,
    replicate (2 ^ treeDepth entries.length) 0, 0⟩ (treeDepth entries.length) 0 entries := ⟨_, rfl⟩
  have hf : Filled entries (treeDepth entries.length) entries.length t :=
    ht ▸ putAll_spec hd hleaves entries 0 _ (filled_empty entries _) rfl (Nat.zero_le _)
  have hweight : t.weight = (entries.map Prod.snd).sum := by
    rw [hf.weight, sum_weightAt, u32_of_lt hlt]
  have hnodes : ∀ a k, node a k < 2 ^ treeDepth entries.length →
      t.nodeWeights[node a k]? = some (span (weightAt entries) entries.length a k) := by
    intro a k hn
    have hget := hf.nodes a k hn
    have hbound : node a k < t.nodeWeights.length := by rwa [hf.length_nodes]
    rw [getD_eq_getElem?_getD, getElem?_eq_getElem hbound, getD_some, u32_of_lt (span_lt hlt a k)] at hget
    rw [getElem?_eq_getElem hbound, hget]
  have hassert : t.nodeWeights.getD (2 ^ treeDepth entries.length / 2) 0 = t.weight := by
    have hroot : 2 ^ treeDepth entries.length / 2 = node (treeDepth entries.length - 1) 0 := by
      rw [node_root]
      exact Nat.div_eq_of_eq_mul_left two_pos (by rw [← pow_succ, Nat.sub_add_cancel hd])
    have hin : node (treeDepth entries.length - 1) 0 < 2 ^ treeDepth entries.length := by
      rw [node_root]
      exact Nat.pow_lt_pow_right one_lt_two (by omega)
    rw [hroot, getD_eq_getElem?_getD, hnodes _ _ hin, getD_some, span_top _ hleaves, sum_weightAt, hweight]
  refine ⟨⟨0, type % 2 ^ 16, t.weight, 2 ^ treeDepth entries.length, t.items, .tree t.nodeWeights⟩, t.nodeWeights,
    treeDepth entries.length, ?_, ?_⟩
  · unfold makeTreeBucket
    rw [if_neg hlen]
    simp only [Nat.one_shiftLeft, ← ht]
    exact if_neg (not_not.mpr hassert)
  · exact ⟨rfl, rfl, hd, hf.length_nodes, hweight, hleaves,
      fun j e he => hf.items j e (List.getElem?_eq_some_iff.mp he).1 he, hnodes⟩

/-! ### Walking down a tree bucket -/

theorem span_pos_leaf {k : ℕ} (hpos : 0 < span (weightAt entries) entries.length 0 k) :
    ∃ e, entries[k]? = some e ∧ 0 < e.2 := by
  rw [span_leaf] at hpos
  split_ifs at hpos with hk
  · refine ⟨entries[k], getElem?_eq_getElem hk, ?_⟩
    rwa [weightAt, getD_eq_getElem?_getD, getElem?_map, getElem?_eq_getElem hk] at hpos
  · exact absurd hpos (lt_irrefl 0)

theorem draw_lt (n : UInt32) {w : ℕ} (hw : 0 < w) : (n.toNat * w) >>> 32 < w := by
  rw [Nat.shiftRight_eq_div_pow, Nat.div_lt_iff_lt_mul (Nat.two_pow_pos 32), Nat.mul_comm w]
  exact mul_lt_mul_of_pos_right n.toNat_lt hw

theorem treeLoop_leaf (h : Hashes) (x r id : ℤ)
    (hw : Weighted entries b ws depth) : ∀ (a k fuel : ℕ), a < fuel → node a k < 2 ^ depth →
      0 < span (weightAt entries) entries.length a k → ∃ i, treeLoop h ws x r id fuel (node a k) = some (node 0 i) ∧
        0 < span (weightAt entries) entries.length 0 i ∧ node 0 i < 2 ^ depth
  | _, _, 0, hf, _, _ => absurd hf (Nat.not_lt_zero _)
  | 0, k, fuel + 1, _, hn, hpos => by
    refine ⟨k, ?_, hpos, hn⟩
    rw [treeLoop, if_pos ((node_odd_iff 0 k).mpr rfl)]
  | a + 1, k, fuel + 1, hf, hn, hpos => by
    have hodd : ¬ node (a + 1) k % 2 = 1 := fun ho => absurd ((node_odd_iff _ _).mp ho) (Nat.succ_ne_zero a)
    have hleft := node_left_lt hn
    have hright := node_right_lt hn
    rw [treeLoop, if_neg hodd, hw.nodes _ _ hn, left_node, right_node, hw.nodes _ _ hleft]
    simp only [bind_some]
    have hdraw := draw_lt (h.hash32_4 (UInt32.ofInt x) (UInt32.ofNat (node (a + 1) k)) (UInt32.ofInt r) (UInt32.ofInt id)) hpos
    rw [span_succ] at hdraw ⊢
    split_ifs with hbelow
    · exact treeLoop_leaf h x r id hw a (2 * k) fuel (by omega) hleft (Nat.zero_lt_of_lt hbelow)
    · -- the draw is below the sum and not below the left weight, so the right weight is not zero
      exact treeLoop_leaf h x r id hw a (2 * k + 1) fuel (by omega) hright (by omega)

theorem Weighted.root (hw : Weighted entries b ws depth) : b.size / 2 = node (depth - 1) 0 := by
  rw [hw.size, node_root]
  exact Nat.div_eq_of_eq_mul_left two_pos (by rw [← pow_succ, Nat.sub_add_cancel hw.depth_pos])

theorem Weighted.root_lt (hw : Weighted entries b ws depth) : node (depth - 1) 0 < 2 ^ depth := by
  have hd := hw.depth_pos
  rw [node_root]
  exact Nat.pow_lt_pow_right one_lt_two (by omega)

theorem Weighted.root_weight
    (hw : Weighted entries b ws depth) : ws[b.size / 2]? = some b.weight := by
  rw [hw.root, hw.nodes _ _ hw.root_lt, span_top _ hw.leaves, sum_weightAt, hw.weight]

theorem Weighted.node_sum {depth n : ℕ}
    (hw : Weighted entries b ws depth) (hpos : 0 < n) (hn : n < b.size) (heven : n % 2 = 0) :
    ∃ wl wr, ws[left n]? = some wl ∧ ws[right n]? = some wr ∧ ws[n]? = some (wl + wr) := by
  obtain ⟨a, k, rfl⟩ := exists_node hpos
  rw [hw.size] at hn
  obtain ⟨a, rfl⟩ : ∃ c, a = c + 1 := Nat.exists_eq_succ_of_ne_zero fun h0 => by
    have hodd := (node_odd_iff a k).mpr h0
    omega
  refine ⟨span (weightAt entries) entries.length a (2 * k), span (weightAt entries) entries.length a (2 * k + 1), ?_, ?_, ?_⟩
  · rw [left_node]
    exact hw.nodes _ _ (node_left_lt hn)
  · rw [right_node]
    exact hw.nodes _ _ (node_right_lt hn)
  · rw [hw.nodes _ _ hn, span_succ]

theorem Weighted.chooses (hw : Weighted entries b ws depth)
    (hpos : 0 < (entries.map Prod.snd).sum) (h : Hashes) (id x r : ℤ) :
    ∃ e ∈ entries, 0 < e.2 ∧ bucketChoose h { b with id } x r = some e.1 := by
  have hspan : 0 < span (weightAt entries) entries.length (depth - 1) 0 := by
    rwa [span_top _ hw.leaves, sum_weightAt]
  have hfuel : depth - 1 < b.size := by
    calc depth - 1 ≤ depth := Nat.sub_le _ _
      _ < 2 ^ depth := Nat.lt_two_pow_self
      _ = b.size := hw.size.symm
  obtain ⟨i, hloop, hleaf, hi⟩ := treeLoop_leaf h x r id hw (depth - 1) 0 b.size hfuel hw.root_lt hspan
  obtain ⟨e, he, hwe⟩ := span_pos_leaf hleaf
  refine ⟨e, mem_of_getElem? he, hwe, ?_⟩
  simp only [bucketChoose, hw.alg, treeChoose]
  rw [Nat.shiftRight_eq_div_pow, pow_one, hw.root, hloop]
  exact hw.items i e he

/-- **A tree bucket is well formed and yields an item of positive weight**: its assertion holds, each
node that is not a leaf carries what its children do, the root the weight of the bucket, and every walk
ends at an item of positive weight, whatever the hashes are. -/
theorem tree_chooses (type : ℕ) (entries : List (ℤ × ℕ)) (hpos : 0 < (entries.map Prod.snd).sum)
    (hlt : (entries.map Prod.snd).sum < 2 ^ 32) :
    ∃ b ws, makeTreeBucket type entries = some b ∧ b.alg = .tree ws ∧ ws.length = b.size ∧
      (∀ n, 0 < n → n < b.size → n % 2 = 0 →
        ∃ wl wr, ws[left n]? = some wl ∧ ws[right n]? = some wr ∧ ws[n]? = some (wl + wr)) ∧
      ws[b.size / 2]? = some b.weight ∧ b.weight = (entries.map Prod.snd).sum ∧
      ∀ (h : Hashes) (id x r : ℤ), ∃ e ∈ entries, 0 < e.2 ∧ bucketChoose h { b with id } x r = some e.1 := by
  have hne : entries ≠ [] := fun h0 => by
    subst h0
    exact absurd hpos (lt_irrefl 0)
  obtain ⟨b, ws, depth, hmake, hw⟩ := makeTreeBucket_weighted type hne hlt
  exact ⟨b, ws, hmake, hw.alg, hw.length.trans hw.size.symm, fun n => hw.node_sum, hw.root_weight, hw.weight,
    hw.chooses hpos⟩

/-- Three items, of which the first has no weight, leave one leaf empty. -/
theorem tree_chooses_three : ∃ b ws, makeTreeBucket 1 [(0, 0), (1, 65536), (2, 131072)] = some b ∧ b.alg = .tree ws ∧
    ws.length = b.size ∧ (∀ n, 0 < n → n < b.size → n % 2 = 0 →
      ∃ wl wr, ws[left n]? = some wl ∧ ws[right n]? = some wr ∧ ws[n]? = some (wl + wr)) ∧
    ws[b.size / 2]? = some b.weight ∧ b.weight = ([((0 : ℤ), 0), (1, 65536), (2, 131072)].map Prod.snd).sum ∧
    ∀ (h : Hashes) (id x r : ℤ), ∃ e ∈ [(0, 0), (1, 65536), (2, 131072)], 0 < e.2 ∧
      bucketChoose h { b with id } x r = some e.1 :=
  tree_chooses 1 [(0, 0), (1, 65536), (2, 131072)] (by decide) (by decide)

/-! ### Buckets of every kind -/

theorem uniform_chooses {h : Hashes} {type itemWeight : ℕ} {items : List ℤ}
    (hb : makeUniformBucket h type items itemWeight = some b) (id x r : ℤ) :
    ∃ item ∈ items, bucketChoose h { b with id } x r = some item := by
  obtain ⟨hne, hb⟩ := ite_none_left_eq_some.mp hb
  obtain ⟨primes, hprimes, rfl⟩ := map_eq_some_iff.mp hb
  have hpos : 0 < items.length := pos_of_ne_zero hne
  simp only [bucketChoose, uniformChoose, if_neg hne]
  have hprime : (h.hash32_2 (UInt32.ofInt id) (UInt32.ofInt x)).toNat % items.length < (primes.map u32).length := by
    rw [length_map, length_primesFrom _ _ _ _ hprimes]
    exact Nat.mod_lt _ hpos
  rw [getElem?_eq_getElem hprime, bind_some, getElem?_eq_getElem (Nat.mod_lt _ hpos)]
  exact ⟨_, getElem_mem _, rfl⟩

theorem strawLoop_mem (h : Hashes) (x r : ℤ) : ∀ (items : List ℤ) (straws : List ℕ) (high : Option (ℤ × ℕ)) (item : ℤ),
    strawLoop h x r items straws high = some item → item ∈ items ∨ high.map Prod.fst = some item
  | [], _, _, _, heq => by
    rw [strawLoop] at heq
    · exact .inr heq
    · nofun
  | _ :: _, [], _, _, heq => by
    rw [strawLoop] at heq
    · exact .inr heq
    · nofun
  | it :: items, straw :: straws, high, item, heq => by
    rcases high with _ | ⟨best, highDraw⟩ <;> rw [strawLoop] at heq <;>
      rcases strawLoop_mem h x r items straws _ item heq with hmem | hhigh
    · exact .inl (mem_cons_of_mem it hmem)
    · cases hhigh
      exact .inl mem_cons_self
    · exact .inl (mem_cons_of_mem it hmem)
    · split_ifs at hhigh
      · cases hhigh
        exact .inl mem_cons_self
      · exact .inr hhigh

theorem strawLoop_some (h : Hashes) (x r : ℤ) : ∀ (items : List ℤ) (straws : List ℕ) (best : ℤ × ℕ),
    ∃ item, strawLoop h x r items straws (some best) = some item
  | [], _, best => ⟨best.1, by rw [strawLoop, map_some]; nofun⟩
  | _ :: _, [], best => ⟨best.1, by rw [strawLoop, map_some]; nofun⟩
  | it :: items, straw :: straws, (best, highDraw) => by
    rw [strawLoop]
    split_ifs
    · exact strawLoop_some h x r items straws _
    · exact strawLoop_some h x r items straws _

theorem straw_chooses {h : Hashes} {type : ℕ} {straws : ℕ → ℕ}
    (hb : makeStrawBucket type entries straws = some b) (id x r : ℤ) :
    ∃ item ∈ entries.map Prod.fst, bucketChoose h { b with id } x r = some item := by
  obtain ⟨hne, ⟨⟩⟩ := ite_none_left_eq_some.mp hb
  obtain ⟨item, hitem⟩ : ∃ item, strawLoop h x r (entries.map Prod.fst)
      ((range entries.length).map fun i => u32 (straws i)) none = some item := by
    cases entries with
    | nil => exact absurd rfl hne
    | cons e entries =>
      rw [length_cons, range_succ_eq_map, map_cons, map_cons, strawLoop.eq_1]
      exact strawLoop_some h x r _ _ _
  refine ⟨item, ?_, hitem⟩
  rcases strawLoop_mem h x r _ _ _ item hitem with hmem | hnone
  · exact hmem
  · nomatch hnone

/-- A list or a tree bucket is to have weight, of 32 bits. -/
def Recipe.Heavy : Recipe → Prop
  | .list _ entries | .tree _ entries => 0 < (entries.map Prod.snd).sum ∧ (entries.map Prod.snd).sum < 2 ^ 32
  | _ => True

/-- **A bucket yields one of the items it was given**, whatever the hashes are. -/
theorem make_chooses {h : Hashes} {r : Recipe} (hb : r.make h = some b) (hheavy : r.Heavy) (id x n : ℤ) :
    ∃ item ∈ r.items, bucketChoose h { b with id } x n = some item := by
  cases r with
  | uniform type items itemWeight => exact uniform_chooses hb id x n
  | list type entries =>
    cases hb
    obtain ⟨e, he, -, heq⟩ := makeListBucket_chooses h type hheavy.1 hheavy.2 id x n
    exact ⟨e.1, mem_map_of_mem he, heq⟩
  | tree type entries =>
    have hne : entries ≠ [] := fun h0 => by
      subst h0
      exact absurd hheavy.1 (lt_irrefl 0)
    obtain ⟨b', ws, depth, hmake, hw⟩ := makeTreeBucket_weighted type hne hheavy.2
    cases hb.symm.trans hmake
    obtain ⟨e, he, -, heq⟩ := hw.chooses hheavy.1 h id x n
    exact ⟨e.1, mem_map_of_mem he, heq⟩
  | straw type entries straws => exact straw_chooses hb id x n

end Crush
end Ceph
