/-
# CRUSH maps as bytes

`CrushWrapper` writes a map's buckets one after the other: a header, the items,
and the arrays of the bucket's kind. Which arrays these are is to be decided by
the kind, `bucket_type`, but both directions look at `type`, the level in the
hierarchy. What a bucket has at the place of another kind's array is written and
read then: all kinds have their first array at one place, only a list bucket has
a second one, and only a uniform bucket a weight behind its array.

A bucket comes back as it was just when what its level asks for is what its kind
has (`Kept`).
-/
import Ceph.Crush.Parents
import Ceph.Lib.Wire

namespace Ceph
namespace Crush

open List
open Option hiding max_eq_left max_le
open Wire

/-! ### Writing a map -/

/-- The array that all kinds have at one place. -/
def Alg.first : Alg → List ℕ
  | .uniform primes _ => primes
  | .list itemWeights _ => itemWeights
  | .tree nodeWeights => nodeWeights
  | .straw straws => straws

/-- The array behind the first one. -/
def Alg.second : Alg → Option (List ℕ)
  | .list _ sumWeights => some sumWeights
  | _ => none

/-- The weight behind the array of a uniform bucket. -/
def Alg.itemWeight : Alg → Option ℕ
  | .uniform _ itemWeight => some itemWeight
  | _ => none

/-- The first `n` elements of an array, which has to have as many. -/
def readArray {α : Type} (l : List α) (n : ℕ) : Option (List α) := if n ≤ l.length then some (l.take n) else none

/-- The numbers written for a bucket by its level. -/
def payload (b : Bucket) : Option (List ℕ) :=
  match b.type with
  | 1 => (readArray b.alg.first b.size).bind fun primes => b.alg.itemWeight.map fun w => primes ++ [w]
  | 2 =>
    if b.size = 0 then some []
    else
      (readArray b.alg.first b.size).bind fun itemWeights => (b.alg.second.bind (readArray · b.size)).map fun sums =>
        (itemWeights.zip sums).flatMap fun p => [p.1, p.2]
  | 3 | 4 => readArray b.alg.first b.size
  | _ => some []

/-- `id`, `type`, `bucket_type`, `weight` and `size`. -/
def header : Codec (ℤ × ℕ × ℕ × ℕ × ℕ) := pair (signed 4) (pair (raw 2) (pair (raw 2) (pair (raw 4) (raw 4))))

/-- One place of the array of buckets. -/
def encodeBucket : Option Bucket → Option Bytes
  | none => some (le 4 0)
  | some b =>
    (readArray b.items b.size).bind fun items => (payload b).map fun words =>
      le 4 b.alg.bucketType ++ header.enc (b.id, b.type, b.alg.bucketType, b.weight, b.size) ++
        items.flatMap (signed 4).enc ++ words.flatMap (raw 4).enc

def encodeBuckets : List (Option Bucket) → Option Bytes
  | [] => some []
  | b :: bs => (encodeBucket b).bind fun head => (encodeBuckets bs).map (head ++ ·)

/-- `CRUSH_RULE_TAKE` and its like as numbers. -/
def Op.code : Op → ℕ
  | .take => 0
  | .chooseFirstn => 1
  | .chooseIndep => 2
  | .emit => 3

def Op.ofCode : ℕ → Option Op
  | 0 => some .take
  | 1 => some .chooseFirstn
  | 2 => some .chooseIndep
  | 3 => some .emit
  | _ => none

/-- A step of a rule, as it is in memory. -/
def step : Codec Step where
  enc s := le 4 s.op.code ++ ((signed 4).enc s.arg1 ++ (signed 4).enc s.arg2)
  dec bs := ((pair (raw 4) (pair (signed 4) (signed 4))).dec bs).bind fun p =>
    (Op.ofCode p.1.1).map fun op => (⟨op, p.1.2.1, p.1.2.2⟩, p.2)

/-- One place of the array of rules. -/
def rule : Codec (Option (List Step)) where
  enc
    | none => le 4 0
    | some steps => le 4 1 ++ (list step).enc steps
  dec bs := ((raw 4).dec bs).bind fun p =>
    if p.1 = 0 then some (none, p.2) else ((list step).dec p.2).map fun q => (some q.1, q.2)

/-- `CrushWrapper::_encode`. -/
def encode (m : Map) : Option Bytes :=
  (m.deviceOffload.bind (readArray · m.maxDevices)).bind fun offload => (encodeBuckets m.buckets).map fun buckets =>
    le 4 m.buckets.length ++ le 4 m.rules.length ++ le 4 m.maxDevices ++ offload.flatMap (raw 4).enc ++ buckets ++
      m.rules.flatMap rule.enc

/-! ### Reading a map -/

/-- What a bucket of a kind holds when its first array is read and nothing else. -/
def alloc (kind : ℕ) (first : List ℕ) : Option Alg :=
  match kind with
  | 1 => some (.uniform first 0)
  | 2 => some (.list first [])
  | 3 => some (.tree first)
  | 4 => some (.straw first)
  | _ => none

/-- How many numbers are read for a level. -/
def wordCount (type size : ℕ) : ℕ :=
  match type with
  | 1 => size + 1
  | 2 => 2 * size
  | 3 | 4 => size
  | _ => 0

/-- Every other one of the numbers, from the first on. -/
def alternate : List ℕ → List ℕ
  | a :: _ :: l => a :: alternate l
  | l => l

/-- The numbers put in place by the level, into a bucket of a kind. -/
def place (kind type size : ℕ) (words : List ℕ) : Option Alg :=
  match type with
  | 1 => if kind = 1 then some (.uniform (words.take size) (words.getD size 0)) else none
  | 2 => if kind = 2 then some (.list (alternate words) (alternate words.tail)) else none
  | 3 | 4 => alloc kind words
  | _ => alloc kind []

/-- One place of the array of buckets. -/
def decodeBucket (bs : Bytes) : Option (Option Bucket × Bytes) := do
  let (kind, bs) ← (raw 4).dec bs
  if kind = 0 then return (none, bs)
  else
    let ((id, type, bucketType, weight, size), bs) ← header.dec bs
    let (items, bs) ← decN (signed 4) size bs
    let (words, bs) ← decN (raw 4) (wordCount type size) bs
    -- the object read into is one of `kind`
    if bucketType ≠ kind then none
    else
      let alg ← place kind type size words
      return (some { id, type, weight, size, items, alg }, bs)

def decodeBuckets : ℕ → Bytes → Option (List (Option Bucket) × Bytes)
  | 0, bs => some ([], bs)
  | n + 1, bs => (decodeBucket bs).bind fun p => (decodeBuckets n p.2).map fun q => (p.1 :: q.1, q.2)

/-- `CrushWrapper::_decode`. -/
def decode (bs : Bytes) : Option (Map × Bytes) := do
  let (maxBuckets, bs) ← (raw 4).dec bs
  let (maxRules, bs) ← (raw 4).dec bs
  let (maxDevices, bs) ← (raw 4).dec bs
  let (offload, bs) ← decN (raw 4) maxDevices bs
  let (buckets, bs) ← decodeBuckets maxBuckets bs
  let (rules, bs) ← decN rule maxRules bs
  return (finalize { crushCreate with buckets, rules, deviceOffload := some offload, maxDevices }, bs)

/-! ### The arrays of one bucket -/

/-- The arrays have the bucket's size, and numbers of 32 bits. -/
def Alg.Fits (size : ℕ) : Alg → Prop
  | .uniform primes itemWeight => 0 < size ∧ primes.length = size ∧ (∀ p ∈ primes, p < 256 ^ 4) ∧ itemWeight < 256 ^ 4
  | .list itemWeights sumWeights =>
    itemWeights.length = size ∧ sumWeights.length = size ∧ (∀ w ∈ itemWeights, w < 256 ^ 4) ∧ ∀ w ∈ sumWeights, w < 256 ^ 4
  | .tree nodeWeights => 0 < size ∧ nodeWeights.length = size ∧ ∀ w ∈ nodeWeights, w < 256 ^ 4
  | .straw straws => 0 < size ∧ straws.length = size ∧ ∀ s ∈ straws, s < 256 ^ 4

/-- **The level asks for what the kind has**: the level is the kind's own number, or that of another kind
with as much to be read and written. -/
def Bucket.Kept (b : Bucket) : Prop :=
  match b.alg with
  | .uniform _ itemWeight => b.type = 1 ∨ ((b.type = 3 ∨ b.type = 4) ∧ itemWeight = 0)
  | .list _ _ => b.type = 2 ∨ (b.size = 0 ∧ b.type ≠ 1)
  | .tree _ | .straw _ => b.type = 3 ∨ b.type = 4

instance (b : Bucket) : Decidable b.Kept := by
  unfold Bucket.Kept
  split <;> infer_instance

theorem readArray_all {α : Type} {l : List α} {n : ℕ} (hn : l.length = n) : readArray l n = some l := by
  subst hn
  rw [readArray, if_pos le_rfl, take_length]

theorem alternate_zip : ∀ as bs : List ℕ, as.length = bs.length →
    alternate ((as.zip bs).flatMap fun p => [p.1, p.2]) = as ∧
      alternate ((as.zip bs).flatMap fun p => [p.1, p.2]).tail = bs
  | [], [], _ => ⟨rfl, rfl⟩
  | a :: as, b :: bs, hlen => by
    obtain ⟨ha, hb⟩ := alternate_zip as bs (Nat.succ.inj hlen)
    simp only [zip_cons_cons, flatMap_cons, cons_append, nil_append, alternate, tail_cons, ha,
      true_and]
    cases hrest : (as.zip bs).flatMap fun p => [p.1, p.2] with
    | nil =>
      rw [hrest] at hb
      rw [alternate, ← hb]
      · rfl
      · nofun
    | cons c rest =>
      rw [hrest] at hb
      rw [alternate, ← hb, tail_cons]

theorem Alg.Fits.first {size : ℕ} {alg : Alg} (hfit : alg.Fits size) :
    alg.first.length = size ∧ ∀ w ∈ alg.first, w < 256 ^ 4 := by
  cases alg with
  | uniform primes itemWeight => exact ⟨hfit.2.1, hfit.2.2.1⟩
  | list itemWeights sumWeights => exact ⟨hfit.1, hfit.2.2.1⟩
  | tree nodeWeights => exact ⟨hfit.2.1, hfit.2.2⟩
  | straw straws => exact ⟨hfit.2.1, hfit.2.2⟩

variable {b : Bucket} {words : List ℕ} {h : Hashes}

theorem alloc_first (hfit : b.alg.Fits b.size) (ht : b.type = 3 ∨ b.type = 4) :
    ∃ alg, alloc b.alg.bucketType b.alg.first = some alg ∧ (alg = b.alg ↔ b.Kept) := by
  have hne : ¬ b.type = 1 ∧ ¬ b.type = 2 := by omega
  unfold Bucket.Kept
  cases halg : b.alg with
  | uniform primes itemWeight => exact ⟨_, rfl, by simp [Alg.first, hne, ht, eq_comm]⟩
  | list itemWeights sumWeights =>
    rw [halg] at hfit
    refine ⟨_, rfl, ?_⟩
    simp only [Alg.first, ne_eq, hne, false_or, not_false_eq_true, and_true, ← hfit.2.1, length_eq_zero_iff,
      Alg.list.injEq, true_and, eq_comm]
  | tree nodeWeights => exact ⟨_, rfl, iff_of_true rfl ht⟩
  | straw straws => exact ⟨_, rfl, iff_of_true rfl ht⟩

/-- A level that asks for nothing leaves the arrays empty. -/
theorem alloc_nil (hfit : b.alg.Fits b.size) (ht : b.type = 0 ∨ 4 < b.type) :
    ∃ alg, alloc b.alg.bucketType [] = some alg ∧ (alg = b.alg ↔ b.Kept) := by
  have hne : ¬ b.type = 1 ∧ ¬ b.type = 2 ∧ ¬ (b.type = 3 ∨ b.type = 4) := by omega
  have hempty : ∀ l : List ℕ, 0 < b.size → l.length = b.size → [] ≠ l := by
    rintro _ hpos hlen rfl
    rw [← hlen] at hpos
    exact absurd hpos (lt_irrefl 0)
  unfold Bucket.Kept
  cases halg : b.alg with
  | uniform primes itemWeight =>
    rw [halg] at hfit
    refine ⟨_, rfl, iff_of_false (fun heq => ?_) (by simp [hne])⟩
    exact hempty primes hfit.1 hfit.2.1 (Alg.uniform.inj heq).1
  | list itemWeights sumWeights =>
    rw [halg] at hfit
    refine ⟨_, rfl, ?_⟩
    simp only [ne_eq, hne, false_or, not_false_eq_true, and_true, Alg.list.injEq]
    constructor
    · rintro ⟨rfl, -⟩
      exact hfit.1.symm
    · intro h0
      exact ⟨(length_eq_zero_iff.mp (hfit.1.trans h0)).symm, (length_eq_zero_iff.mp (hfit.2.1.trans h0)).symm⟩
  | tree nodeWeights =>
    rw [halg] at hfit
    exact ⟨_, rfl, iff_of_false (fun heq => hempty nodeWeights hfit.1 hfit.2.1 (Alg.tree.inj heq)) hne.2.2⟩
  | straw straws =>
    rw [halg] at hfit
    exact ⟨_, rfl, iff_of_false (fun heq => hempty straws hfit.1 hfit.2.1 (Alg.straw.inj heq)) hne.2.2⟩

/-- The numbers of the bucket's level, read back into its kind. -/
def ReadBack (b : Bucket) (words : List ℕ) : Prop :=
  words.length = wordCount b.type b.size ∧ (∀ w ∈ words, w < 256 ^ 4) ∧
    ∃ alg, place b.alg.bucketType b.type b.size words = some alg ∧ (alg = b.alg ↔ b.Kept)

theorem placed_uniform (hfit : b.alg.Fits b.size) (ht : b.type = 1)
    (hp : payload b = some words) : ReadBack b words := by
  unfold payload at hp
  simp only [ht, readArray_all hfit.first.1, bind_some] at hp
  obtain ⟨w, hw, rfl⟩ := map_eq_some_iff.mp hp
  unfold ReadBack Bucket.Kept
  cases halg : b.alg with
  | uniform primes itemWeight =>
    rw [halg] at hfit hw
    cases hw
    obtain ⟨-, hlen, hprimes, hweight⟩ := hfit
    refine ⟨?_, ?_, _, ?_, iff_of_true rfl (.inl ht)⟩
    · rw [ht, wordCount, length_append, Alg.first, hlen, length_singleton]
    · rw [forall_mem_append]
      exact ⟨hprimes, forall_mem_singleton.mpr hweight⟩
    · have hget : (primes ++ [w]).getD b.size 0 = w := by
        rw [← hlen, getD_eq_getElem?_getD, getElem?_concat_length, getD_some]
      rw [Alg.first, Alg.bucketType, ht, place, if_pos rfl, take_left' hlen, hget]
  | list itemWeights sumWeights => cases halg ▸ hw
  | tree nodeWeights => cases halg ▸ hw
  | straw straws => cases halg ▸ hw

/-- Level 2 asks for two arrays, which a list bucket has. -/
theorem placed_list (hfit : b.alg.Fits b.size) (ht : b.type = 2)
    (hp : payload b = some words) : ReadBack b words := by
  obtain ⟨itemWeights, sumWeights, halg, hwords⟩ : ∃ ws sums, b.alg = .list ws sums ∧
      words = (ws.zip sums).flatMap fun p => [p.1, p.2] := by
    unfold payload at hp
    simp only [ht, readArray_all hfit.first.1, bind_some] at hp
    cases halg : b.alg with
    | list itemWeights sumWeights =>
      rw [halg] at hfit hp
      refine ⟨itemWeights, sumWeights, rfl, ?_⟩
      split_ifs at hp with h0
      · cases hp
        rw [length_eq_zero_iff.mp (hfit.1.trans h0)]
        rfl
      · simp only [Alg.second, bind_some, readArray_all hfit.2.1, map_some, Alg.first] at hp
        exact (some.inj hp).symm
    | uniform primes itemWeight =>
      rw [halg] at hfit hp
      rw [if_neg (Nat.pos_iff_ne_zero.mp hfit.1)] at hp
      nomatch hp
    | tree nodeWeights =>
      rw [halg] at hfit hp
      rw [if_neg (Nat.pos_iff_ne_zero.mp hfit.1)] at hp
      nomatch hp
    | straw straws =>
      rw [halg] at hfit hp
      rw [if_neg (Nat.pos_iff_ne_zero.mp hfit.1)] at hp
      nomatch hp
  rw [halg] at hfit
  obtain ⟨hlen, hlen', hws, hsums⟩ := hfit
  obtain ⟨heven, hodd⟩ := alternate_zip itemWeights sumWeights (hlen.trans hlen'.symm)
  subst hwords
  unfold ReadBack Bucket.Kept
  rw [halg]
  refine ⟨?_, ?_, _, ?_, iff_of_true rfl (.inl ht)⟩
  · have hzip : (itemWeights.zip sumWeights).length = b.size := by
      rw [length_zip, hlen, hlen', min_self]
    rw [ht, wordCount, length_flatMap]
    simp [hzip, mul_comm]
  · intro w hw
    obtain ⟨p, hp, hw⟩ := mem_flatMap.mp hw
    obtain ⟨h1, h2⟩ := of_mem_zip hp
    rcases mem_pair.mp hw with rfl | rfl
    · exact hws _ h1
    · exact hsums _ h2
  · rw [Alg.bucketType, ht, place, if_pos rfl, heven, hodd]

/-- What is written for the level is read again, and makes the bucket's arrays if the bucket is kept. -/
theorem payload_readBack (hfit : b.alg.Fits b.size) (hp : payload b = some words) :
    ReadBack b words := by
  by_cases h1 : b.type = 1
  · exact placed_uniform hfit h1 hp
  by_cases h2 : b.type = 2
  · exact placed_list hfit h2 hp
  by_cases h34 : b.type = 3 ∨ b.type = 4
  · have hwords : words = b.alg.first ∧ wordCount b.type b.size = b.size ∧
        place b.alg.bucketType b.type b.size words = alloc b.alg.bucketType words := by
      unfold payload at hp
      rcases h34 with ht | ht <;> simp only [ht, readArray_all hfit.first.1, some_inj] at hp <;>
        exact ⟨hp.symm, by rw [ht, wordCount], by rw [ht, place]⟩
    obtain ⟨rfl, hcount, hplace⟩ := hwords
    obtain ⟨alg, halloc, hiff⟩ := alloc_first hfit h34
    exact ⟨hfit.first.1.trans hcount.symm, hfit.first.2, alg, hplace.trans halloc, hiff⟩
  · have hother : b.type = 0 ∨ 4 < b.type := by omega
    have hpay : payload b = some [] := by
      unfold payload
      split <;> first | omega | rfl
    have hcount : wordCount b.type b.size = 0 := by
      unfold wordCount
      split <;> omega
    have hplace : place b.alg.bucketType b.type b.size [] = alloc b.alg.bucketType [] := by
      unfold place
      split <;> first | omega | rfl
    cases hp.symm.trans hpay
    obtain ⟨alg, halloc, hiff⟩ := alloc_nil hfit hother
    exact ⟨hcount.symm, nofun, alg, hplace.trans halloc, hiff⟩

/-- What is written for the level is there if the bucket is kept. -/
theorem payload_kept (hfit : b.alg.Fits b.size) (hk : b.Kept) : ∃ words, payload b = some words := by
  have hread := readArray_all hfit.first.1
  unfold payload
  split
  · -- only a uniform bucket is kept at level 1
    rename_i ht
    unfold Bucket.Kept at hk
    cases halg : b.alg with
    | uniform primes itemWeight => exact ⟨_, by rw [← halg, hread, bind_some, halg]; rfl⟩
    | list itemWeights sumWeights => simp [halg, ht] at hk
    | tree nodeWeights => simp [halg, ht] at hk
    | straw straws => simp [halg, ht] at hk
  · rename_i ht
    split_ifs with h0
    · exact ⟨[], rfl⟩
    · unfold Bucket.Kept at hk
      cases halg : b.alg with
      | uniform primes itemWeight => simp [halg, ht] at hk
      | list itemWeights sumWeights =>
        rw [halg] at hfit
        rw [← halg, hread, bind_some, halg, Alg.second, bind_some, readArray_all hfit.2.1]
        exact ⟨_, rfl⟩
      | tree nodeWeights => simp [halg, ht] at hk
      | straw straws => simp [halg, ht] at hk
  · exact ⟨_, hread⟩
  · exact ⟨_, hread⟩
  · exact ⟨[], rfl⟩

/-! ### Buckets and rules -/

/-- The numbers of a bucket are of their sizes. -/
structure Bucket.Fits (b : Bucket) : Prop where
  id : -(256 ^ 4 : ℤ) ≤ 2 * b.id ∧ 2 * b.id < 256 ^ 4
  type : b.type < 256 ^ 2
  weight : b.weight < 256 ^ 4
  size : b.size < 256 ^ 4
  length : b.items.length = b.size
  items : ∀ item ∈ b.items, -(256 ^ 4 : ℤ) ≤ 2 * item ∧ 2 * item < 256 ^ 4
  alg : b.alg.Fits b.size

theorem bucketType_bounds (alg : Alg) : 0 < alg.bucketType ∧ alg.bucketType ≤ 4 := by
  cases alg <;> simp [Alg.bucketType]

theorem encodeBucket_kept (hfit : b.Fits) (hk : b.Kept) : ∃ bytes, encodeBucket (some b) = some bytes := by
  obtain ⟨words, hwords⟩ := payload_kept hfit.alg hk
  exact ⟨_, by rw [encodeBucket, readArray_all hfit.length, bind_some, hwords, map_some]⟩

/-- **A bucket that can be written is read, and is as it was just when it is kept.** -/
theorem decodeBucket_encode {bytes : Bytes} (hfit : b.Fits) (he : encodeBucket (some b) = some bytes) :
    ∃ b', (∀ rest, decodeBucket (bytes ++ rest) = some (some b', rest)) ∧ (b' = b ↔ b.Kept) := by
  rw [encodeBucket, readArray_all hfit.length, bind_some] at he
  obtain ⟨words, hwords, rfl⟩ := map_eq_some_iff.mp he
  obtain ⟨hcount, hsmall, alg, hplace, hiff⟩ := payload_readBack hfit.alg hwords
  obtain ⟨hpos, hkind⟩ := bucketType_bounds b.alg
  refine ⟨{ b with alg }, fun rest => ?_, ?_⟩
  · have h1 : (raw 4).Reads b.alg.bucketType := reads_raw (by omega)
    have h2 : header.Reads (b.id, b.type, b.alg.bucketType, b.weight, b.size) :=
      (reads_signed hfit.id.1 hfit.id.2).pair <| (reads_raw hfit.type).pair <| (reads_raw (by omega)).pair <|
        (reads_raw hfit.weight).pair (reads_raw hfit.size)
    have h3 := decN_eq hfit.length (words.flatMap (raw 4).enc ++ rest) fun item hitem =>
      reads_signed (hfit.items item hitem).1 (hfit.items item hitem).2
    have h4 := decN_eq hcount rest fun w hw => reads_raw (hsmall w hw)
    have hbytes : (le 4 b.alg.bucketType ++ header.enc (b.id, b.type, b.alg.bucketType, b.weight, b.size) ++
        b.items.flatMap (signed 4).enc ++ words.flatMap (raw 4).enc) ++ rest =
        (raw 4).enc b.alg.bucketType ++ (header.enc (b.id, b.type, b.alg.bucketType, b.weight, b.size) ++
          (b.items.flatMap (signed 4).enc ++ (words.flatMap (raw 4).enc ++ rest))) := by
      simp only [append_assoc]
      rfl
    rw [hbytes, decodeBucket]
    simp only [h1 _, bind_eq_bind, bind_some, if_neg (Nat.pos_iff_ne_zero.mp hpos), h2 _, h3, h4, ne_eq,
      not_true_eq_false, if_false, hplace]
    rfl
  · rw [← hiff]
    constructor
    · exact congrArg Bucket.alg
    · exact fun heq => by rw [heq]

/-- The places written are read, and are as they were just when their buckets are kept. -/
theorem decodeBuckets_encode : ∀ {buckets : List (Option Bucket)} {bytes : Bytes},
    (∀ b, some b ∈ buckets → b.Fits) → encodeBuckets buckets = some bytes →
      ∃ buckets', (∀ rest, decodeBuckets buckets.length (bytes ++ rest) = some (buckets', rest)) ∧
        (buckets' = buckets ↔ ∀ b, some b ∈ buckets → b.Kept)
  | [], _, _, he => by
    cases he
    exact ⟨[], fun _ => rfl, iff_of_true rfl nofun⟩
  | slot :: buckets, _, hfit, he => by
    obtain ⟨head, hhead, he⟩ := bind_eq_some_iff.mp he
    obtain ⟨tail, htail, rfl⟩ := map_eq_some_iff.mp he
    obtain ⟨buckets', hdec, hiff⟩ := decodeBuckets_encode (fun b hb => hfit b (mem_cons_of_mem slot hb)) htail
    obtain ⟨slot', hslot, hkept⟩ : ∃ slot', (∀ rest, decodeBucket (head ++ rest) = some (slot', rest)) ∧
        (slot' = slot ↔ ∀ b, some b = slot → b.Kept) := by
      cases slot with
      | none =>
        cases hhead
        have hzero : (raw 4).Reads 0 := reads_raw (by decide)
        refine ⟨none, fun rest => ?_, iff_of_true rfl nofun⟩
        have henc : le 4 0 ++ rest = (raw 4).enc 0 ++ rest := rfl
        rfl
      | some b =>
        obtain ⟨b', hb', hiff'⟩ := decodeBucket_encode (hfit b mem_cons_self) hhead
        refine ⟨some b', hb', ?_⟩
        rw [some_inj, hiff']
        exact ⟨fun hk b'' heq => some_inj.mp heq ▸ hk, fun hk => hk b rfl⟩
    refine ⟨slot' :: buckets', fun rest => ?_, ?_⟩
    · rw [length_cons, decodeBuckets, append_assoc, hslot, bind_some, hdec, map_some]
    · rw [cons.injEq, hkept, hiff]
      constructor
      · rintro ⟨hhere, hthere⟩ b hb
        rcases mem_cons.mp hb with heq | hmem
        · exact hhere b heq
        · exact hthere b hmem
      · exact fun hall => ⟨fun b heq => hall b (heq ▸ mem_cons_self), fun b hmem => hall b (mem_cons_of_mem slot hmem)⟩

theorem encodeBuckets_kept : ∀ {buckets : List (Option Bucket)}, (∀ b, some b ∈ buckets → b.Fits) →
    (∀ b, some b ∈ buckets → b.Kept) → ∃ bytes, encodeBuckets buckets = some bytes
  | [], _, _ => ⟨[], rfl⟩
  | slot :: buckets, hfit, hk => by
    obtain ⟨tail, htail⟩ := encodeBuckets_kept (fun b hb => hfit b (mem_cons_of_mem slot hb))
      fun b hb => hk b (mem_cons_of_mem slot hb)
    obtain ⟨head, hhead⟩ : ∃ head, encodeBucket slot = some head := by
      cases slot with
      | none => exact ⟨_, rfl⟩
      | some b => exact encodeBucket_kept (hfit b mem_cons_self) (hk b mem_cons_self)
    exact ⟨head ++ tail, by rw [encodeBuckets, hhead, bind_some, htail, map_some]⟩

/-- The arguments of a step are of 32 bits. -/
def Step.Fits (s : Step) : Prop :=
  (-(256 ^ 4 : ℤ) ≤ 2 * s.arg1 ∧ 2 * s.arg1 < 256 ^ 4) ∧ -(256 ^ 4 : ℤ) ≤ 2 * s.arg2 ∧ 2 * s.arg2 < 256 ^ 4

theorem reads_step {s : Step} (hfit : s.Fits) : step.Reads s := by
  intro rest
  have hop : (raw 4).Reads s.op.code := reads_raw (by cases s.op <;> decide)
  have hall := (hop.pair ((reads_signed hfit.1.1 hfit.1.2).pair (reads_signed hfit.2.1 hfit.2.2))) rest
  have hcode : Op.ofCode s.op.code = some s.op := by cases s.op <;> rfl
  have henc : step.enc s = (pair (raw 4) (pair (signed 4) (signed 4))).enc (s.op.code, s.arg1, s.arg2) := rfl
  rw [henc]
  simp only [step, hall, bind_some, hcode, map_some]

theorem reads_rule {r : Option (List Step)} (hfit : ∀ steps, r = some steps → steps.length < 256 ^ 4 ∧ ∀ s ∈ steps, s.Fits) :
    rule.Reads r := by
  intro rest
  cases r with
  | none =>
    have hzero : (raw 4).Reads 0 := reads_raw (by decide)
    have hread := hzero rest
    change (raw 4).dec (rule.enc none ++ rest) = _ at hread
    simp only [rule] at hread ⊢
    rw [hread, bind_some, if_pos rfl]
  | some steps =>
    obtain ⟨hlen, hsteps⟩ := hfit steps rfl
    have hone : (raw 4).Reads 1 := reads_raw (by decide)
    have hlist := reads_list hlen (fun s hs => reads_step (hsteps s hs)) rest
    have hread := hone ((list step).enc steps ++ rest)
    have henc : rule.enc (some steps) ++ rest = (raw 4).enc 1 ++ ((list step).enc steps ++ rest) := append_assoc _ _ _
    rw [henc]
    simp only [rule, hread, bind_some, if_neg (one_ne_zero), hlist, map_some]

/-! ### Maps that are built -/

/-- What the builders are given is made of `int`s, and a tree's array can be counted in one. -/
structure Recipe.InRange (r : Recipe) : Prop where
  items : ∀ item ∈ r.items, -(2 ^ 31 : ℤ) ≤ item ∧ item < 2 ^ 31 - 1
  size : r.items.length < 2 ^ 31
  tree : r.isTree → treeDepth r.items.length < 31

/-- The maps that are built of buckets and rules. -/
inductive Built (h : Hashes) : Map → Prop
  | create : Built h crushCreate
  | bucket {m : Map} {r : Recipe} {b : Bucket} : Built h m → r.InRange → r.make h = some b → m.buckets.length ≤ 2 ^ 30 →
      Built h (addBucket m b).1
  | rule {m : Map} {ruleno : ℕ} {steps : List Step} : Built h m → ruleno < 2 ^ 31 → steps.length < 2 ^ 31 →
      (∀ s ∈ steps, s.Fits) → Built h (addRule m ruleno steps)

theorem u32_lt (n : ℕ) : u32 n < 256 ^ 4 := Nat.mod_lt _ (by decide)

theorem length_sumWeights : ∀ ws : List ℕ, (sumWeights ws).length = ws.length
  | [] => rfl
  | _ :: ws => by rw [sumWeights, length_cons, length_sumWeights ws, length_cons]

theorem sumWeights_lt : ∀ ws : List ℕ, ∀ s ∈ sumWeights ws, s < 256 ^ 4
  | [] => nofun
  | _ :: ws => forall_mem_cons.mpr ⟨u32_lt _, sumWeights_lt ws⟩

theorem forall_map_u32 {α : Type} (l : List α) (f : α → ℕ) : ∀ w ∈ l.map fun a => u32 (f a), w < 256 ^ 4 := by
  intro w hw
  obtain ⟨a, -, rfl⟩ := mem_map.mp hw
  exact u32_lt _

theorem climb_lt (w : ℕ) : ∀ (j n : ℕ) (ws : List ℕ), (∀ v ∈ ws, v < 256 ^ 4) → ∀ v ∈ climb w j n ws, v < 256 ^ 4
  | 0, _, _, hws => hws
  | j + 1, n, ws, hws => by
    refine climb_lt w j _ _ fun v hv => ?_
    obtain ⟨i, hi⟩ := mem_iff_getElem?.mp hv
    rw [getElem?_modify] at hi
    obtain ⟨old, hold, heq⟩ := map_eq_some_iff.mp hi
    split_ifs at heq
    · exact heq ▸ u32_lt _
    · exact heq ▸ hws old (mem_of_getElem? hold)

theorem putAll_lt {depth : ℕ} : ∀ (entries : List (ℤ × ℕ)) (i : ℕ) (t : Tree), (∀ v ∈ t.nodeWeights, v < 256 ^ 4) →
    t.weight < 256 ^ 4 → (∀ v ∈ (t.putAll depth i entries).nodeWeights, v < 256 ^ 4) ∧ (t.putAll depth i entries).weight < 256 ^ 4
  | [], _, _, hws, hw => ⟨hws, hw⟩
  | e :: entries, i, t, hws, _ => by
    refine putAll_lt entries (i + 1) _ (climb_lt _ _ _ _ fun v hv => ?_) (u32_lt _)
    rcases mem_or_eq_of_mem_set hv with hold | rfl
    · exact hws v hold
    · exact u32_lt _

/-- What a builder makes has arrays of its size. -/
theorem make_alg {r : Recipe} (hb : r.make h = some b) :
    b.alg.Fits b.size ∧ b.items.length = b.size ∧ b.type < 256 ^ 2 ∧ b.weight < 256 ^ 4 := by
  have htype : ∀ type : ℕ, type % 2 ^ 16 < 256 ^ 2 := fun _ => Nat.mod_lt _ (by decide)
  cases r with
  | uniform type items itemWeight =>
    obtain ⟨hne, hb⟩ := ite_none_left_eq_some.mp hb
    obtain ⟨primes, hprimes, rfl⟩ := map_eq_some_iff.mp hb
    refine ⟨⟨pos_of_ne_zero hne, ?_, forall_map_u32 primes id, u32_lt _⟩, rfl, htype _, u32_lt _⟩
    rw [length_map, length_primesFrom _ _ _ _ hprimes]
  | list type entries =>
    cases hb
    refine ⟨⟨length_map _, ?_, forall_map_u32 entries _, sumWeights_lt _⟩, length_map _, htype _, ?_⟩
    · rw [length_sumWeights, length_map]
      rfl
    · simp only [makeListBucket, sumWeights_headD]
      exact u32_lt _
  | tree type entries =>
    obtain ⟨t, ht, hf, rfl⟩ := makeTreeBucket_tree hb
    have hzero : ∀ v ∈ replicate (2 ^ treeDepth entries.length) 0, v < 256 ^ 4 := by
      intro v hv
      rw [eq_of_mem_replicate hv]
      decide
    obtain ⟨hws, hw⟩ := putAll_lt entries 0
      ⟨replicate (2 ^ treeDepth entries.length) 0, replicate (2 ^ treeDepth entries.length) 0, 0⟩ hzero
      (Nat.two_pow_pos 32)
    rw [← ht] at hws hw
    exact ⟨⟨Nat.two_pow_pos _, hf.length_nodes, hws⟩, hf.length_items, htype _, hw⟩
  | straw type entries straws =>
    obtain ⟨hne, ⟨⟩⟩ := ite_none_left_eq_some.mp hb
    refine ⟨⟨pos_of_ne_zero hne, ?_, forall_map_u32 _ straws⟩, length_map _, htype _, u32_lt _⟩
    rw [length_map, length_range]

theorem make_size {r : Recipe} (hb : r.make h = some b) :
    b.size = if r.isTree then 2 ^ treeDepth r.items.length else r.items.length := by
  cases r with
  | uniform type items itemWeight =>
    obtain ⟨hne, hb⟩ := ite_none_left_eq_some.mp hb
    obtain ⟨primes, hprimes, rfl⟩ := map_eq_some_iff.mp hb
    rfl
  | list type entries =>
    cases hb
    exact (length_map _).symm
  | tree type entries =>
    obtain ⟨t, ht, hf, rfl⟩ := makeTreeBucket_tree hb
    rw [Recipe.items, length_map]
    rfl
  | straw type entries straws =>
    obtain ⟨hne, ⟨⟩⟩ := ite_none_left_eq_some.mp hb
    exact (length_map _).symm

theorem mem_of_append_none {α : Type} {l : List (Option α)} {n : ℕ} {a : α}
    (hmem : some a ∈ l ++ replicate n none) : some a ∈ l := by
  rcases mem_append.mp hmem with hold | hnew
  · exact hold
  · nomatch eq_of_mem_replicate hnew

theorem make_fits {r : Recipe} (hr : r.InRange) (hb : r.make h = some b) {id : ℤ}
    (hid : -(2 ^ 31 : ℤ) ≤ id ∧ id < 0) :
    ({ b with id } : Bucket).Fits ∧ ∀ item ∈ b.items, item < 2 ^ 31 - 1 := by
  obtain ⟨halg, hlen, htype, hweight⟩ := make_alg hb
  have hitems : ∀ item ∈ b.items, -(2 ^ 31 : ℤ) ≤ item ∧ item < 2 ^ 31 - 1 := by
    intro item hmem
    rcases (make_items hb item).mp hmem with hgiven | ⟨-, rfl⟩
    · exact hr.items item hgiven
    · decide
  have hsize : b.size < 256 ^ 4 := by
    rw [make_size hb]
    split_ifs with htree
    · calc 2 ^ treeDepth r.items.length ≤ 2 ^ 31 := Nat.pow_le_pow_right two_pos (hr.tree htree).le
        _ < 256 ^ 4 := by decide
    · exact lt_trans hr.size (by decide)
  refine ⟨⟨by dsimp only; omega, htype, hweight, hsize, hlen, fun item hmem => ?_, halg⟩, fun item hmem => (hitems item hmem).2⟩
  have := hitems item hmem
  omega

/-- What holds of the maps that are built. -/
structure MapFits (m : Map) : Prop where
  bucket : ∀ b, some b ∈ m.buckets → b.Fits ∧ ∀ item ∈ b.items, item < 2 ^ 31 - 1
  buckets : m.buckets.length ≤ 2 ^ 31
  rule : ∀ steps, some steps ∈ m.rules → steps.length < 256 ^ 4 ∧ ∀ s ∈ steps, s.Fits
  rules : m.rules.length ≤ 2 ^ 31
  maxDevices : m.maxDevices = 0

theorem built_fits {m : Map} (hm : Built h m) : MapFits m := by
  induction hm with
  | create => exact ⟨nofun, Nat.zero_le _, nofun, Nat.zero_le _, rfl⟩
  | @bucket m r b hm hr hb hlen ih =>
    have hid : m.buckets.findIdx (· = none) ≤ m.buckets.length := findIdx_le_length
    refine ⟨fun b' hb' => ?_, ?_, ih.rule, ih.rules, ih.maxDevices⟩
    · simp only [addBucket] at hb'
      rcases mem_or_eq_of_mem_set hb' with hold | heq
      · refine ih.bucket b' ?_
        by_cases hfull : m.buckets.findIdx (· = none) = m.buckets.length
        · rw [if_pos hfull] at hold
          exact mem_of_append_none hold
        · rwa [if_neg hfull] at hold
      · cases heq
        exact make_fits hr hb (by omega)
    · simp only [addBucket, length_set]
      split_ifs <;> simp <;> omega
  | @rule m ruleno steps hm hno hlen hsteps ih =>
    refine ⟨ih.bucket, ih.buckets, fun steps' hs => ?_, ?_, ih.maxDevices⟩
    · rcases mem_or_eq_of_mem_set hs with hold | heq
      · exact ih.rule steps' (mem_of_append_none hold)
      · cases heq
        exact ⟨by omega, hsteps⟩
    · have hrules := ih.rules
      simp only [addRule, length_set, length_append, length_replicate]
      omega

/-- The devices' offloads set in a finished map. -/
def withOffload (m : Map) (offload : List ℕ) : Map := { m with deviceOffload := some offload }

theorem foldl_max_eq {n : ℕ} : ∀ items : List ℤ, (∀ item ∈ items, (item + 1).toNat ≤ n) →
    items.foldl (fun n item => max n (item + 1).toNat) n = n
  | [], _ => rfl
  | it :: items, hle => by
    rw [foldl_cons, max_eq_left (hle it mem_cons_self)]
    exact foldl_max_eq items fun item hmem => hle item (mem_cons_of_mem it hmem)

theorem finalize_again (m : Map) (offload : List ℕ) :
    finalize ⟨m.buckets, m.rules, [], [], some offload, (finalize m).maxDevices⟩ = withOffload (finalize m) offload := by
  obtain ⟨n, hn⟩ : ∃ n, n = (finalize m).maxDevices := ⟨_, rfl⟩
  have hmax : (m.buckets.reduceOption.flatMap (·.items)).foldl (fun n item => max n (item + 1).toNat) n = n := by
    refine foldl_max_eq _ fun item hmem => ?_
    rw [hn]
    exact (le_foldl_max item _ m.maxDevices).2 hmem
  rw [← hn]
  simp only [finalize, withOffload, calcParents, getD_some, hmax]
  rw [hn]
  rfl

theorem foldl_max_le {n : ℕ} : ∀ (items : List ℤ) (k : ℕ), k ≤ n → (∀ item ∈ items, (item + 1).toNat ≤ n) →
    items.foldl (fun n item => max n (item + 1).toNat) k ≤ n
  | [], _, hk, _ => hk
  | it :: items, _, hk, hle => foldl_max_le items _ (max_le hk (hle it mem_cons_self))
      fun item hmem => hle item (mem_cons_of_mem it hmem)

theorem maxDevices_lt {m : Map} (hf : MapFits m) : (finalize m).maxDevices < 256 ^ 4 := by
  refine lt_of_le_of_lt (foldl_max_le (n := 2 ^ 31) _ _ (hf.maxDevices ▸ Nat.zero_le _) fun item hmem => ?_) (by decide)
  obtain ⟨b, hb, hitem⟩ := mem_flatMap.mp hmem
  have hlt := (hf.bucket b (reduceOption_mem_iff.mp hb)).2 item hitem
  omega

section finished

variable {m : Map} {offload : List ℕ}

/-- What is written of a finished map, the buckets' bytes given. -/
def written (m : Map) (offload : List ℕ) (bytes : Bytes) : Bytes :=
  le 4 m.buckets.length ++ le 4 m.rules.length ++ le 4 (finalize m).maxDevices ++ offload.flatMap (raw 4).enc ++ bytes ++
    m.rules.flatMap rule.enc

theorem encode_finished (hlen : offload.length = (finalize m).maxDevices) :
    encode (withOffload (finalize m) offload) = (encodeBuckets m.buckets).map (written m offload) := by
  unfold encode
  simp only [withOffload, bind_some, readArray_all hlen]
  rfl

theorem decode_written (hf : MapFits m) (hlen : offload.length = (finalize m).maxDevices)
    (hoff : ∀ o ∈ offload, o < 256 ^ 4) {bytes : Bytes} {buckets : List (Option Bucket)}
    (hdec : ∀ rest, decodeBuckets m.buckets.length (bytes ++ rest) = some (buckets, rest)) (rest : Bytes) :
    decode (written m offload bytes ++ rest) =
      some (finalize ⟨buckets, m.rules, [], [], some offload, (finalize m).maxDevices⟩, rest) := by
  have h1 : (raw 4).Reads m.buckets.length := reads_raw (lt_of_le_of_lt hf.buckets (by decide))
  have h2 : (raw 4).Reads m.rules.length := reads_raw (lt_of_le_of_lt hf.rules (by decide))
  have h3 : (raw 4).Reads (finalize m).maxDevices := reads_raw (maxDevices_lt hf)
  have h4 := decN_eq hlen (bytes ++ (m.rules.flatMap rule.enc ++ rest)) fun o ho => reads_raw (hoff o ho)
  have h5 : decN rule m.rules.length (m.rules.flatMap rule.enc ++ rest) = some (m.rules, rest) :=
    decN_flatMap m.rules rest fun r hr => reads_rule fun steps heq => hf.rule steps (heq ▸ hr)
  have hbytes : written m offload bytes ++ rest =
      (raw 4).enc m.buckets.length ++ ((raw 4).enc m.rules.length ++ ((raw 4).enc (finalize m).maxDevices ++
        (offload.flatMap (raw 4).enc ++ (bytes ++ (m.rules.flatMap rule.enc ++ rest))))) := by
    simp only [written, append_assoc]
    rfl
  rw [hbytes, decode]
  simp only [h1 _, h2 _, h3 _, h4, hdec, h5, bind_eq_bind, bind_some]
  rfl

end finished

/-- **A map comes back just when the level of each of its buckets asks for what the bucket's kind has.** -/
theorem roundTrip_iff (h : Hashes) (m : Map) (hm : Built h m) (offload : List ℕ)
    (hlen : offload.length = (finalize m).maxDevices) (hoff : ∀ o ∈ offload, o < 256 ^ 4) :
    (∃ bytes, encode (withOffload (finalize m) offload) = some bytes ∧
      ∀ rest, decode (bytes ++ rest) = some (withOffload (finalize m) offload, rest)) ↔
    ∀ b, some b ∈ m.buckets → b.Kept := by
  have hf := built_fits hm
  have hfits : ∀ b, some b ∈ m.buckets → b.Fits := fun b hb => (hf.bucket b hb).1
  constructor
  · rintro ⟨bytes, hsome, hback⟩
    rw [encode_finished hlen] at hsome
    obtain ⟨bs, hbs, rfl⟩ := map_eq_some_iff.mp hsome
    obtain ⟨buckets', hdecs, hiff⟩ := decodeBuckets_encode hfits hbs
    have heq := (hback []).symm.trans (decode_written hf hlen hoff hdecs [])
    exact hiff.mp (congrArg (fun p => p.1.buckets) (some.inj heq)).symm
  · intro hk
    obtain ⟨bs, hbs⟩ := encodeBuckets_kept hfits hk
    obtain ⟨buckets', hdecs, hiff⟩ := decodeBuckets_encode hfits hbs
    refine ⟨written m offload bs, by rw [encode_finished hlen, hbs, map_some], fun rest => ?_⟩
    rw [decode_written hf hlen hoff hdecs rest, hiff.mpr hk, finalize_again]

/-- A list bucket at level 2 below a straw bucket at level 3, and a rule. -/
def keptMap : Map :=
  addRule (addBucket (addBucket crushCreate (makeListBucket 2 [(0, 65536), (1, 65536)])).1
    ⟨0, 3, 131072, 1, [-1], .straw [65536]⟩).1 0 [⟨.take, -2, 0⟩, ⟨.emit, 0, 0⟩]

theorem built_keptMap : Built crushHashes keptMap := by
  refine .rule (.bucket (r := .straw 3 [(-1, 131072)] fun _ => 65536) (.bucket (r := .list 2 [(0, 65536), (1, 65536)]) .create
    ⟨?_, ?_, nofun⟩ rfl ?_) ⟨?_, ?_, nofun⟩ rfl ?_) ?_ ?_ ?_
  all_goals simp [Recipe.items, Step.Fits, addBucket, crushCreate]

theorem roundTrip_kept : ∃ bytes, encode (withOffload (finalize keptMap) [0, 0x10000]) = some bytes ∧
    ∀ rest, decode (bytes ++ rest) = some (withOffload (finalize keptMap) [0, 0x10000], rest) :=
  (roundTrip_iff crushHashes keptMap built_keptMap [0, 0x10000] (by decide +kernel) (by decide)).mpr <| by
    have hkept : ∀ b ∈ keptMap.buckets.reduceOption, b.Kept := by decide +kernel
    exact fun b hb => hkept b (reduceOption_mem_iff.mpr hb)

/-- A list bucket at level 3. -/
def thirdLevel : Map := (addBucket crushCreate (makeListBucket 3 [(0, 65536), (1, 65536)])).1

theorem built_thirdLevel : Built crushHashes thirdLevel := by
  refine .bucket (r := .list 3 [(0, 65536), (1, 65536)]) .create ⟨?_, ?_, nofun⟩ rfl ?_
  all_goals simp [Recipe.items, crushCreate]

/-- The second array of a list bucket at level 3 is lost. -/
theorem sums_lost : Built crushHashes thirdLevel ∧ ∃ bytes m, encode (withOffload (finalize thirdLevel) [0, 0]) = some bytes ∧
    decode bytes = some (m, []) ∧ m ≠ withOffload (finalize thirdLevel) [0, 0] := by
  refine ⟨built_thirdLevel, (encode (withOffload (finalize thirdLevel) [0, 0])).getD [],
    (((encode (withOffload (finalize thirdLevel) [0, 0])).bind decode).getD (crushCreate, [])).1, ?_, ?_, ?_⟩
  all_goals decide +kernel

end Crush
end Ceph
