/-
# CRUSH maps

A map places data on devices by hierarchies of buckets. A device is a number
from 0 on, a bucket has a negative number, and a bucket's items are devices or
buckets. Weights are 16-bit fixed point in 32 bits. What a bucket yields for an
input depends on hashes alone.
-/
import Mathlib.Algebra.Group.Nat.Defs

namespace Ceph
namespace Crush

/-! ### Hashes -/

/-- `hashmix`. -/
def hashmix (a b c : UInt32) : UInt32 × UInt32 × UInt32 :=
  let a := a - b; let a := a - c; let a := a ^^^ (c >>> 13)
  let b := b - c; let b := b - a; let b := b ^^^ (a <<< 8)
  let c := c - a; let c := c - b; let c := c ^^^ (b >>> 13)
  let a := a - b; let a := a - c; let a := a ^^^ (c >>> 12)
  let b := b - c; let b := b - a; let b := b ^^^ (a <<< 16)
  let c := c - a; let c := c - b; let c := c ^^^ (b >>> 5)
  let a := a - b; let a := a - c; let a := a ^^^ (c >>> 3)
  let b := b - c; let b := b - a; let b := b ^^^ (a <<< 10)
  let c := c - a; let c := c - b; let c := c ^^^ (b >>> 15)
  (a, b, c)

/-- `crush_hash_seed`. -/
def hashSeed : UInt32 := 1315423911

/-- `crush_hash32`. -/
def crushHash32 (a : UInt32) : UInt32 :=
  let (_, _, hash) := hashmix a 231232 (hashSeed ^^^ a)
  let (_, _, hash) := hashmix 1232 a hash
  hash

/-- `crush_hash32_2`. -/
def crushHash32_2 (a b : UInt32) : UInt32 :=
  let (a, b, hash) := hashmix a b (hashSeed ^^^ a ^^^ b)
  let (_, _, hash) := hashmix 231232 a hash
  let (_, _, hash) := hashmix b 1232 hash
  hash

/-- `crush_hash32_3`. -/
def crushHash32_3 (a b c : UInt32) : UInt32 :=
  let (a, b, hash) := hashmix a b (hashSeed ^^^ a ^^^ b ^^^ c)
  let (c, x, hash) := hashmix c 231232 hash
  let (y, _, hash) := hashmix 1232 a hash
  let (_, _, hash) := hashmix b x hash
  let (_, _, hash) := hashmix y c hash
  hash

/-- `crush_hash32_4`. -/
def crushHash32_4 (a b c d : UInt32) : UInt32 :=
  let (a, b, hash) := hashmix a b (hashSeed ^^^ a ^^^ b ^^^ c ^^^ d)
  let (c, d, hash) := hashmix c d hash
  let (_, x, hash) := hashmix a 231232 hash
  let (y, _, hash) := hashmix 1232 b hash
  let (_, _, hash) := hashmix c x hash
  let (_, _, hash) := hashmix y d hash
  hash

/-- The hash functions that a placement uses. -/
structure Hashes where
  hash32 : UInt32 → UInt32
  hash32_2 : UInt32 → UInt32 → UInt32
  hash32_3 : UInt32 → UInt32 → UInt32 → UInt32
  hash32_4 : UInt32 → UInt32 → UInt32 → UInt32 → UInt32

def crushHashes : Hashes := ⟨crushHash32, crushHash32_2, crushHash32_3, crushHash32_4⟩

/-! ### Maps -/

/-- What a bucket has beside its header, by the way it chooses: `crush_bucket_uniform`,
`crush_bucket_list`, `crush_bucket_tree`, `crush_bucket_straw`. -/
inductive Alg
  | uniform (primes : List ℕ) (itemWeight : ℕ)
  | list (itemWeights sumWeights : List ℕ)
  | tree (nodeWeights : List ℕ)
  | straw (straws : List ℕ)
deriving DecidableEq

/-- `bucket_type`. -/
def Alg.bucketType : Alg → ℕ
  | .uniform _ _ => 1
  | .list _ _ => 2
  | .tree _ => 3
  | .straw _ => 4

/-- `crush_bucket`. The size of a tree bucket is that of its array of nodes. -/
structure Bucket where
  id : ℤ
  type : ℕ
  weight : ℕ
  size : ℕ
  items : List ℤ
  alg : Alg
deriving DecidableEq

/-- `CRUSH_RULE_TAKE` and its like. -/
inductive Op | take | chooseFirstn | chooseIndep | emit
deriving DecidableEq

/-- `crush_rule_step`. -/
structure Step where
  op : Op
  arg1 : ℤ
  arg2 : ℤ
deriving DecidableEq

/-- `crush_map`: the arrays hold `none` where the source has a null pointer. -/
structure Map where
  buckets : List (Option Bucket)
  rules : List (Option (List Step))
  bucketParents : List ℤ
  deviceParents : List ℤ
  deviceOffload : Option (List ℕ)
  maxDevices : ℕ
deriving DecidableEq

/-- The bucket that a negative number stands for. -/
def Map.bucket (m : Map) (item : ℤ) : Option Bucket :=
  if item < 0 then (m.buckets[(-1 - item).toNat]?).join else none

end Crush
end Ceph
