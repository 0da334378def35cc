/-
# Fragments and fragment trees

A `frag_t` stands for the numbers that end in given bits: eight upper bits of
its code say how many, the other 24 which. A `fragtree_t` splits the whole
namespace, and pieces of it, into `2^b` fragments each; where all pieces of a
split are split alike the map is simplified.

Numbers of bits are natural numbers here (`int` in the source, which asserts
that they are positive), `_splits` is a function from fragments, and the loops
over a queue have fuel for every fragment of 24 bits and less.
-/
import Mathlib.Algebra.Group.Nat.Defs
import Mathlib.Data.List.Basic

namespace Ceph
namespace Frags

/-! ### `frag_t` -/

/-- `frag_t`: its code. -/
structure Frag where
  enc : ℕ
deriving DecidableEq, Repr

/-- `frag_t(v, b)`. -/
def frag (v b : ℕ) : Frag := ⟨(b <<< 24 + (v &&& (0xffffffff >>> (32 - b)))) % 2 ^ 32⟩

/-- `frag_t()`: everything. -/
def root : Frag := ⟨0⟩

namespace Frag

def value (x : Frag) : ℕ := x.enc &&& 0xffffff

def bits (x : Frag) : ℕ := x.enc >>> 24

def mask (x : Frag) : ℕ := 0xffffffff >>> (32 - x.bits)

/-- `contains(v)`. -/
def contains (x : Frag) (v : ℕ) : Bool := v &&& x.mask = x.value

/-- `contains(sub)`. -/
def containsFrag (x sub : Frag) : Bool := x.bits ≤ sub.bits ∧ sub.value &&& x.mask = x.value

/-- `parent`; the root asserts. -/
def parent (x : Frag) : Option Frag :=
  if 0 < x.bits then some (frag (x.value &&& (x.mask >>> 1)) (x.bits - 1)) else none

/-- `split`: the `2^nb` fragments of `x`. -/
def split (x : Frag) (nb : ℕ) : List Frag :=
  (List.range (1 <<< nb)).map fun i => frag (x.value ||| (i <<< x.bits)) (x.bits + nb)

end Frag

/-! ### `fragtree_t` -/

/-- `_splits`. -/
abbrev Fragtree := Frag → Option ℕ

def empty : Fragtree := fun _ => none

/-- `get_split`. -/
def getSplit (t : Fragtree) (x : Frag) : ℕ := (t x).getD 0

/-- Enough for a queue that holds each fragment of at most 24 bits. -/
def fuel : ℕ := 2 ^ 25

/-- The loops of `get_leaves_under_split` and `get_leaves_under`: the front of
the queue is skipped, or its pieces are queued, or it is a leaf. -/
def walk (t : Fragtree) (skip : Frag → Bool) : ℕ → List Frag → List Frag → Option (List Frag)
  | _, [], ls => some ls
  | 0, _ :: _, _ => none
  | n + 1, f :: q, ls =>
    if skip f then walk t skip n q ls
    else if getSplit t f ≠ 0 then walk t skip n (q ++ f.split (getSplit t f)) ls
    else walk t skip n q (ls ++ [f])

/-- `get_leaves_under_split`. -/
def getLeavesUnderSplit (t : Fragtree) (under : Frag) : Option (List Frag) :=
  walk t (fun _ => false) fuel [under] []

/-- `get_leaves`. -/
def getLeaves (t : Fragtree) : Option (List Frag) := getLeavesUnderSplit t root

/-- `get_branch`: the nearest split at or above `x`, or the root. -/
def getBranch (t : Fragtree) : ℕ → Frag → Option Frag
  | 0, _ => none
  | n + 1, x => if x = root then some x else if getSplit t x ≠ 0 then some x else x.parent.bind (getBranch t n)

/-- `get_branch_above`: the nearest split above `x`, or the root. -/
def getBranchAbove (t : Fragtree) : ℕ → Frag → Option Frag
  | 0, _ => none
  | n + 1, x =>
    if x = root then some x
    else x.parent.bind fun y => if getSplit t y ≠ 0 then some y else getBranchAbove t n y

/-- The way up from `x` has at most that many steps. -/
def height (x : Frag) : ℕ := x.bits + 1

/-- `get_branch_or_leaf`. -/
def getBranchOrLeaf (t : Fragtree) (x : Frag) : Option Frag :=
  (getBranch t (height x) x).map fun branch =>
    let nb := getSplit t branch
    if 0 < nb ∧ branch.bits + nb ≤ x.bits then frag x.value (branch.bits + nb) else branch

/-- `get_leaves_under`: the leaves below `x`, and those too coarse to be. -/
def getLeavesUnder (t : Fragtree) (x : Frag) : Option (List Frag) :=
  (getBranch t (height x) x).bind fun branch =>
    walk t (fun f => x.bits ≤ f.bits && !x.containsFrag f) fuel [branch] []

/-- `is_leaf`. -/
def isLeaf (t : Fragtree) (x : Frag) : Bool := getLeavesUnder t x = some [x]

/-- The loop of `operator[]` from `f`. -/
def lookupFrom (t : Fragtree) (v : ℕ) : ℕ → Frag → Option Frag
  | 0, _ => none
  | n + 1, f =>
    if f.contains v then
      if getSplit t f = 0 then some f
      else ((f.split (getSplit t f)).find? fun c => c.contains v).bind (lookupFrom t v n)
    else none

/-- `operator[]`. -/
def lookup (t : Fragtree) (v : ℕ) : Option Frag := lookupFrom t v 25 root

/-! ### Changes -/

/-- `_splits.erase(x)`. -/
def erase (t : Fragtree) (x : Frag) : Fragtree := Function.update t x none

/-- `_splits[x] = b`. -/
def put (t : Fragtree) (x : Frag) (b : ℕ) : Fragtree := Function.update t x (some b)

/-- The first loop of `try_assimilate_children`: by how much all of the
children are split; 0 if not all by the same. -/
def childBits (t : Fragtree) : List Frag → ℕ → ℕ
  | [], childbits => childbits
  | p :: ps, childbits =>
    let cb := getSplit t p
    if cb = 0 then 0 else if childbits ≠ 0 ∧ cb ≠ childbits then 0 else childBits t ps cb

/-- `try_assimilate_children`. -/
def tryAssimilateChildren (t : Fragtree) (x : Frag) : Fragtree :=
  let nb := getSplit t x
  if nb = 0 then t else
  let children := x.split nb
  let childbits := childBits t children 0
  if childbits = 0 then t else
  let t' := children.foldl erase t
  put t' x (getSplit t' x + childbits)

/-- The end of `split` and `merge`. -/
def simplify (t : Fragtree) (x : Frag) : Option Fragtree :=
  (getBranchAbove t (height x) x).map (tryAssimilateChildren t)

/-- `split`. -/
def split (t : Fragtree) (x : Frag) (b : ℕ) : Option Fragtree :=
  if isLeaf t x then simplify (put t x b) x else none

/-- `merge`. -/
def merge (t : Fragtree) (x : Frag) (b : ℕ) : Option Fragtree :=
  if isLeaf t x = false ∧ getSplit t x = b then simplify (erase t x) x else none

/-- The loop of `force_to_leaf` that splits the intermediate fragments. -/
def splitEach (b : ℕ) : List Frag → Fragtree → Option Fragtree
  | [], t => some t
  | p :: ps, t => (split t p b).bind (splitEach b ps)

/-- The loop of `force_to_leaf` that hoovers up the children. -/
def hoover : ℕ → List Frag → Fragtree → Option Fragtree
  | _, [], t => some t
  | 0, _ :: _, _ => none
  | n + 1, f :: q, t =>
    let nb := getSplit t f
    if nb = 0 then hoover n q t else (merge t f nb).bind (hoover n (q ++ f.split nb))

/-- The intermediary split of `force_to_leaf` between `parent` and its children. -/
def intermediate (t : Fragtree) (parent : Frag) (nb spread : ℕ) : Option Fragtree :=
  if spread < nb then
    (merge t parent nb).bind fun t => (split t parent spread).bind fun t =>
      splitEach (nb - spread) (parent.split spread) t
  else none

/-- What `force_to_leaf` makes of the tree before its last assertion. -/
def forceTree (t : Fragtree) (x : Frag) : Option Fragtree :=
  if isLeaf t x then some t else
  (getBranchOrLeaf t x).bind fun parent =>
    if parent.bits < x.bits then
      let spread := x.bits - parent.bits
      let nb := getSplit t parent
      if nb = 0 then split t parent spread
      else (intermediate t parent nb spread).bind (hoover fuel [x])
    else if parent.bits = x.bits then hoover fuel [x] t
    else none

/-- `force_to_leaf`: whether the tree changed, and the tree. -/
def forceToLeaf (t : Fragtree) (x : Frag) : Option (Bool × Fragtree) :=
  if isLeaf t x then some (false, t) else
  (forceTree t x).bind fun t' => if isLeaf t' x then some (true, t') else none

/-! ### Fragments of 24 bits and less -/

/-- A fragment of the namespace: `value` has no bits beyond `bits`. -/
structure Frag.Wf (x : Frag) : Prop where
  bits_le : x.bits ≤ 24
  value_lt : x.value < 2 ^ x.bits

end Frags
end Ceph
