/-
# Building CRUSH maps

Buckets are made from their items, added to the map, which gives them their
numbers, and the map is finished with the tables of parents.

A builder that divides by zero, does not come to an end or fails an assertion
is `none`. The lengths of straws are computed in floating point and are given
here.
-/
import Ceph.Crush.Map
import Mathlib

namespace Ceph
namespace Crush

/-- A number kept in 32 bits. -/
def u32 (n : ℕ) : ℕ := n % 2 ^ 32

/-! ### Uniform buckets -/

/-- The inner loop of the search for primes: no `j` from 2 on with `j * j ≤ x` divides `x`. -/
def noDivisor (x : ℕ) : Bool := (List.range x).all fun j => j < 2 || x < j * j || x % j ≠ 0

/-- The search for `n` primes from `x` on, in steps of two. -/
def primesFrom : ℕ → ℕ → ℕ → Option (List ℕ)
  | _, 0, _ => some []
  | 0, _ + 1, _ => none
  | k + 1, n + 1, x => if noDivisor x then (primesFrom k n (x + 2)).map (x :: ·) else primesFrom k (n + 1) (x + 2)

/-- `crush_make_uniform_bucket`. -/
def makeUniformBucket (h : Hashes) (type : ℕ) (items : List ℤ) (itemWeight : ℕ) : Option Bucket :=
  let size := items.length
  if size = 0 then none
  else
    let x := (size + 1 + (h.hash32 (UInt32.ofNat size)).toNat % (3 * size)) ||| 1
    (primesFrom (x * 4 ^ size) size x).map fun primes =>
      { id := 0, type := type % 2 ^ 16, weight := u32 (size * itemWeight), size, items
        alg := .uniform (primes.map u32) (u32 itemWeight) }

/-! ### List buckets -/

/-- `sum_weights`, filled from the last item on. -/
def sumWeights : List ℕ → List ℕ
  | [] => []
  | w :: ws => u32 (w + (sumWeights ws).headD 0) :: sumWeights ws

/-- `crush_make_list_bucket`: each item with its weight. -/
def makeListBucket (type : ℕ) (entries : List (ℤ × ℕ)) : Bucket :=
  let weights := entries.map fun e => u32 e.2
  { id := 0, type := type % 2 ^ 16, weight := (sumWeights weights).headD 0, size := entries.length
    items := entries.map Prod.fst, alg := .list weights (sumWeights weights) }

/-! ### Tree buckets -/

/-- The loop of `height`. -/
def heightLoop : ℕ → ℕ → ℕ
  | 0, _ => 0
  | k + 1, n => if n % 2 = 0 then heightLoop k (n / 2) + 1 else 0

/-- `height`: how often a node's number can be halved. -/
def height (n : ℕ) : ℕ := heightLoop n n

/-- `on_right`. -/
def onRight (n h : ℕ) : Bool := n.testBit (h + 1)

/-- `parent`. -/
def parent (n : ℕ) : ℕ :=
  let h := height n
  if onRight n h then n - 1 <<< h else n + 1 <<< h

/-- The loop that finds the depth of a tree. -/
def depthLoop : ℕ → ℕ → ℕ
  | 0, _ => 0
  | k + 1, t => if t = 0 then 0 else depthLoop k (t / 2) + 1

/-- `depth`, of a tree with `size` leaves. -/
def treeDepth (size : ℕ) : ℕ := depthLoop size (size - 1) + 1

/-- A weight is added to the nodes above `node`. -/
def climb (w : ℕ) : ℕ → ℕ → List ℕ → List ℕ
  | 0, _, ws => ws
  | j + 1, node, ws => climb w j (parent node) (ws.modify (parent node) fun v => u32 (v + w))

/-- The items, the weights of the nodes and the weight of a tree bucket that is being made. -/
structure Tree where
  items : List ℤ
  nodeWeights : List ℕ
  weight : ℕ

/-- The `i`-th item put in. -/
def Tree.put (t : Tree) (depth i : ℕ) (e : ℤ × ℕ) : Tree :=
  let node := (i + 1) <<< 1 - 1
  { items := t.items.set node e.1
    nodeWeights := climb (u32 e.2) (depth - 1) node (t.nodeWeights.set node (u32 e.2))
    weight := u32 (t.weight + e.2) }

/-- The items from the `i`-th on put in. -/
def Tree.putAll (t : Tree) (depth : ℕ) : ℕ → List (ℤ × ℕ) → Tree
  | _, [] => t
  | i, e :: entries => (t.put depth i e).putAll depth (i + 1) entries

/-- `crush_make_tree_bucket`: each item with its weight. -/
def makeTreeBucket (type : ℕ) (entries : List (ℤ × ℕ)) : Option Bucket :=
  if entries.length = 0 then none
  else
    let depth := treeDepth entries.length
    let size := 1 <<< depth
    let t := Tree.putAll ⟨List.replicate size 0, List.replicate size 0, 0⟩ depth 0 entries
    if t.nodeWeights.getD (size / 2) 0 ≠ t.weight then none
    else some { id := 0, type := type % 2 ^ 16, weight := t.weight, size, items := t.items, alg := .tree t.nodeWeights }

/-! ### Straw buckets -/

/-- `crush_make_straw_bucket`: each item with its weight, and the straws. -/
def makeStrawBucket (type : ℕ) (entries : List (ℤ × ℕ)) (straws : ℕ → ℕ) : Option Bucket :=
  if entries.length = 0 then none
  else some
    { id := 0, type := type % 2 ^ 16, weight := u32 (entries.map Prod.snd).sum, size := entries.length
      items := entries.map Prod.fst, alg := .straw ((List.range entries.length).map fun i => u32 (straws i)) }

/-! ### Maps -/

/-- `crush_create`. -/
def crushCreate : Map := ⟨[], [], [], [], none, 0⟩

/-- `crush_add_bucket`: the first free place is taken, and the array doubled if there is none. -/
def addBucket (m : Map) (b : Bucket) : Map × ℤ :=
  let id := m.buckets.findIdx (· = none)
  let buckets :=
    if id = m.buckets.length then m.buckets ++ List.replicate (if m.buckets.length = 0 then 8 else m.buckets.length) none
    else m.buckets
  ({ m with buckets := buckets.set id (some { b with id := -1 - id }) }, -1 - id)

/-- What a builder of buckets is given. -/
inductive Recipe
  | uniform (type : ℕ) (items : List ℤ) (itemWeight : ℕ)
  | list (type : ℕ) (entries : List (ℤ × ℕ))
  | tree (type : ℕ) (entries : List (ℤ × ℕ))
  | straw (type : ℕ) (entries : List (ℤ × ℕ)) (straws : ℕ → ℕ)

/-- The items a bucket is to have. -/
def Recipe.items : Recipe → List ℤ
  | .uniform _ items _ => items
  | .list _ entries | .tree _ entries | .straw _ entries _ => entries.map Prod.fst

def Recipe.isTree : Recipe → Bool
  | .tree _ _ => true
  | _ => false

/-- The bucket made. -/
def Recipe.make (h : Hashes) : Recipe → Option Bucket
  | .uniform type items itemWeight => makeUniformBucket h type items itemWeight
  | .list type entries => some (makeListBucket type entries)
  | .tree type entries => makeTreeBucket type entries
  | .straw type entries straws => makeStrawBucket type entries straws

/-- One bucket made and added. -/
def addMade (h : Hashes) (m : Map) (r : Recipe) : Option Map := (r.make h).map fun b => (addBucket m b).1

/-- A map of buckets made and added one after the other. -/
def assemble (h : Hashes) (rs : List Recipe) : Option Map := rs.foldlM (addMade h) crushCreate

/-- `crush_add_rule`, under a number given. -/
def addRule (m : Map) (ruleno : ℕ) (rule : List Step) : Map :=
  let rules := m.rules ++ List.replicate (ruleno + 1 - m.rules.length) none
  { m with rules := rules.set ruleno (some rule) }

/-- `crush_add_rule`: a negative number stands for the first one that is free. -/
def crushAddRule (m : Map) (ruleno : ℤ) (rule : List Step) : Map :=
  addRule m (if ruleno < 0 then m.rules.findIdx (· = none) else ruleno.toNat) rule

/-- One item of a bucket in `crush_calc_parents`: the parents of devices and of buckets. -/
def noteParent (id : ℤ) (tables : List ℤ × List ℤ) (item : ℤ) : List ℤ × List ℤ :=
  if 0 ≤ item then (tables.1.set item.toNat id, tables.2) else (tables.1, tables.2.set (-1 - item).toNat id)

/-- `crush_calc_parents`. -/
def calcParents (m : Map) : Map :=
  let tables := m.buckets.reduceOption.foldl (fun tables b => b.items.foldl (noteParent b.id) tables)
    (m.deviceParents, m.bucketParents)
  { m with deviceParents := tables.1, bucketParents := tables.2 }

/-- `crush_finalize`. -/
def finalize (m : Map) : Map :=
  let maxDevices := (m.buckets.reduceOption.flatMap (·.items)).foldl (fun n item => max n (item + 1).toNat) m.maxDevices
  let m := calcParents
    { m with
      maxDevices
      deviceParents := List.replicate maxDevices 0
      bucketParents := List.replicate m.buckets.length 0 }
  { m with deviceOffload := some (m.deviceOffload.getD (List.replicate maxDevices 0)) }

end Crush
end Ceph
