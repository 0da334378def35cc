/-
# Transactions and their journal entries

`ObjectStore::Transaction` of `osd/ObjectStore.h` is a list of operation codes
and one list for each kind of argument; applying it takes the arguments off
the front of the lists. The entry in the journal is the transaction encoded,
without the attribute sets of `setattrs`, of which it holds pointers only.

The updates are an inductive type, `Update`; the methods of `Transaction` push
one to the lists. The operations that read are left out.
-/
import Mathlib.Data.List.TakeWhile
import Ceph.Ebofs.Objects

namespace Ceph
namespace Ebofs

open Wire Codec.Reads

/-- The methods of `Transaction` that update. -/
inductive Update
  | write (oid : PObject) (off : Int64) (len : UInt64) (bl : Bytes)
  | zero (oid : PObject) (off : Int64) (len : UInt64)
  | truncate (oid : PObject) (off : Int64)
  | remove (oid : PObject)
  | setattr (oid : PObject) (name : CStr) (value : Bytes)
  | setattrs (oid : PObject) (attrset : Attrs)
  | rmattr (oid : PObject) (name : CStr)
  | clone (oid noid : PObject)
  | trimFromCache (oid : PObject) (off : Int64) (len : UInt64)
  | createCollection (cid : Coll)
  | removeCollection (cid : Coll)
  | collectionAdd (cid : Coll) (oid : PObject)
  | collectionRemove (cid : Coll) (oid : PObject)
  | collectionSetattr (cid : Coll) (name : CStr) (value : Bytes)
  | collectionRmattr (cid : Coll) (name : CStr)

/-- `OP_WRITE`, `OP_ZERO`, ... -/
def Update.op : Update → UInt8
  | .write .. => 10
  | .zero .. => 11
  | .truncate .. => 12
  | .remove .. => 13
  | .setattr .. => 14
  | .setattrs .. => 15
  | .rmattr .. => 16
  | .clone .. => 17
  | .trimFromCache .. => 18
  | .createCollection .. => 20
  | .removeCollection .. => 21
  | .collectionAdd .. => 22
  | .collectionRemove .. => 23
  | .collectionSetattr .. => 24
  | .collectionRmattr .. => 25

/-- `Transaction`, less what only reads use. -/
structure Transaction where
  ops : List UInt8
  bls : List Bytes
  oids : List PObject
  cids : List Coll
  lengths : List Int64
  attrnames : List CStr
  pattrsets : List Attrs

namespace Transaction

def empty : Transaction := ⟨[], [], [], [], [], [], []⟩

/-- What a method pushes. -/
def ofUpdate (u : Update) : Transaction :=
  match u with
  | .write oid off len bl => { empty with ops := [u.op], oids := [oid], lengths := [off, len.toInt64], bls := [bl] }
  | .zero oid off len => { empty with ops := [u.op], oids := [oid], lengths := [off, len.toInt64] }
  | .truncate oid off => { empty with ops := [u.op], oids := [oid], lengths := [off] }
  | .remove oid => { empty with ops := [u.op], oids := [oid] }
  | .setattr oid name value => { empty with ops := [u.op], oids := [oid], attrnames := [name], bls := [value] }
  | .setattrs oid attrset => { empty with ops := [u.op], oids := [oid], pattrsets := [attrset] }
  | .rmattr oid name => { empty with ops := [u.op], oids := [oid], attrnames := [name] }
  | .clone oid noid => { empty with ops := [u.op], oids := [oid, noid] }
  | .trimFromCache oid off len => { empty with ops := [u.op], oids := [oid], lengths := [off, len.toInt64] }
  | .createCollection cid => { empty with ops := [u.op], cids := [cid] }
  | .removeCollection cid => { empty with ops := [u.op], cids := [cid] }
  | .collectionAdd cid oid => { empty with ops := [u.op], cids := [cid], oids := [oid] }
  | .collectionRemove cid oid => { empty with ops := [u.op], cids := [cid], oids := [oid] }
  | .collectionSetattr cid name value =>
    { empty with ops := [u.op], cids := [cid], attrnames := [name], bls := [value] }
  | .collectionRmattr cid name => { empty with ops := [u.op], cids := [cid], attrnames := [name] }

/-- `push_back` on every list. -/
def append (t t' : Transaction) : Transaction :=
  ⟨t.ops ++ t'.ops, t.bls ++ t'.bls, t.oids ++ t'.oids, t.cids ++ t'.cids, t.lengths ++ t'.lengths,
    t.attrnames ++ t'.attrnames, t.pattrsets ++ t'.pattrsets⟩

/-- A method of `Transaction`. -/
def push (t : Transaction) (u : Update) : Transaction := t.append (ofUpdate u)

/-- The transaction of some updates. -/
def build (us : List Update) : Transaction := us.foldl push empty

/-! ### Taking arguments; the front of an empty list is undefined -/

def getBl (t : Transaction) : Option (Bytes × Transaction) :=
  match t.bls with
  | [] => none
  | b :: bs => some (b, { t with bls := bs })

def getOid (t : Transaction) : Option (PObject × Transaction) :=
  match t.oids with
  | [] => none
  | o :: os => some (o, { t with oids := os })

def getCid (t : Transaction) : Option (Coll × Transaction) :=
  match t.cids with
  | [] => none
  | c :: cs => some (c, { t with cids := cs })

def getLength (t : Transaction) : Option (Int64 × Transaction) :=
  match t.lengths with
  | [] => none
  | l :: ls => some (l, { t with lengths := ls })

def getAttrname (t : Transaction) : Option (CStr × Transaction) :=
  match t.attrnames with
  | [] => none
  | a :: as => some (a, { t with attrnames := as })

def getPattrset (t : Transaction) : Option (Attrs × Transaction) :=
  match t.pattrsets with
  | [] => none
  | a :: as => some (a, { t with pattrsets := as })

end Transaction

variable {δ : Type} (B : Blocks δ) (cloneable : Bool)

/-! ### Applying a transaction -/

/-- What one update does to the store. -/
def perform : Update → Store δ → Option (ℤ × Store δ)
  | .write oid off len bl, s => write B oid off len bl s
  | .zero oid off len, s => some (zero B oid off len s)
  | .truncate oid off, s => some (truncate B oid off s)
  | .remove oid, s => some (remove B oid s)
  | .setattr oid name value, s => some (setattr oid name value s)
  | .setattrs oid attrset, s => some (setattrs oid attrset s)
  | .rmattr oid name, s => some (rmattr oid name s)
  | .clone oid noid, s => some (clone B cloneable oid noid s)
  | .trimFromCache _ _ _, s => some (0, s)
  | .createCollection cid, s => some (createCollection cid s)
  | .removeCollection cid, s => some (destroyCollection cid s)
  | .collectionAdd cid oid, s => some (collectionAdd cid oid s)
  | .collectionRemove cid oid, s => some (collectionRemove cid oid s)
  | .collectionSetattr cid name value, s => some (collectionSetattr cid name value s)
  | .collectionRmattr cid name, s => some (collectionRmattr cid name s)

/-- The arguments of an operation, in the order the `switch` takes them. -/
def getUpdate (op : UInt8) (t : Transaction) : Option (Update × Transaction) :=
  if op = 10 then do
    let (oid, t) ← t.getOid
    let (off, t) ← t.getLength
    let (len, t) ← t.getLength
    let (bl, t) ← t.getBl
    return (.write oid off len.toUInt64 bl, t)
  else if op = 11 then do
    let (oid, t) ← t.getOid
    let (off, t) ← t.getLength
    let (len, t) ← t.getLength
    return (.zero oid off len.toUInt64, t)
  else if op = 18 then do
    let (oid, t) ← t.getOid
    let (off, t) ← t.getLength
    let (len, t) ← t.getLength
    return (.trimFromCache oid off len.toUInt64, t)
  else if op = 12 then do
    let (oid, t) ← t.getOid
    let (off, t) ← t.getLength
    return (.truncate oid off, t)
  else if op = 13 then do
    let (oid, t) ← t.getOid
    return (.remove oid, t)
  else if op = 14 then do
    let (oid, t) ← t.getOid
    let (name, t) ← t.getAttrname
    let (bl, t) ← t.getBl
    return (.setattr oid name bl, t)
  else if op = 15 then do
    let (oid, t) ← t.getOid
    let (attrset, t) ← t.getPattrset
    return (.setattrs oid attrset, t)
  else if op = 16 then do
    let (oid, t) ← t.getOid
    let (name, t) ← t.getAttrname
    return (.rmattr oid name, t)
  else if op = 17 then do
    let (oid, t) ← t.getOid
    let (noid, t) ← t.getOid
    return (.clone oid noid, t)
  else if op = 20 then do
    let (cid, t) ← t.getCid
    return (.createCollection cid, t)
  else if op = 21 then do
    let (cid, t) ← t.getCid
    return (.removeCollection cid, t)
  else if op = 22 then do
    let (cid, t) ← t.getCid
    let (oid, t) ← t.getOid
    return (.collectionAdd cid oid, t)
  else if op = 23 then do
    let (cid, t) ← t.getCid
    let (oid, t) ← t.getOid
    return (.collectionRemove cid oid, t)
  else if op = 24 then do
    let (cid, t) ← t.getCid
    let (name, t) ← t.getAttrname
    let (bl, t) ← t.getBl
    return (.collectionSetattr cid name bl, t)
  else if op = 25 then do
    let (cid, t) ← t.getCid
    let (name, t) ← t.getAttrname
    return (.collectionRmattr cid name, t)
  else none    -- "bad op"

/-- The loop of `_apply_transaction`: the transaction is what is left of it. The
return codes are dropped, as `r &= bit` drops them. -/
def applyOps : List UInt8 → Transaction → Store δ → Option (Transaction × Store δ)
  | [], t, s => some (t, s)
  | op :: ops, t, s => do
    let (u, t) ← getUpdate op { t with ops := ops }
    let (_, s) ← perform B cloneable u s
    applyOps ops t s

/-- `_apply_transaction`. -/
def applyTransaction (t : Transaction) (s : Store δ) : Option (Transaction × Store δ) :=
  applyOps B cloneable t.ops t s

/-! ### Entries -/

/-- `pobject_t` as it is in memory. -/
def pobject : Codec PObject :=
  via (pair (raw 4) (pair (raw 4) (pair (raw 8) (pair (raw 4) (raw 4)))))
    (fun o => (o.volume.toNat, o.rank.toNat, o.ino.toNat, o.bno.toNat, o.rev.toNat))
    (fun (v, r, i, b, e) => ⟨.ofNat v, .ofNat r, .ofNat i, .ofNat b, .ofNat e⟩)

/-- `list<const char*>` is written, `list<string>` read: a name ends at its first
zero byte. -/
def cstr : Codec CStr :=
  via blob (fun a => a.1) fun b => ⟨b.takeWhile (· ≠ 0), by
    intro h
    have := List.mem_takeWhile_imp h
    simp at this⟩

/-- The lists that are encoded. -/
def lists : Codec (List UInt8 × List Bytes × List PObject × List Coll × List Int64 × List CStr) :=
  pair (list (via (raw 1) UInt8.toNat UInt8.ofNat)) <| pair (list blob) <| pair (list pobject) <|
    pair (list (via (raw 8) UInt64.toNat UInt64.ofNat)) <|
    pair (list (via (raw 8) (fun l => l.toUInt64.toNat) (fun n => (UInt64.ofNat n).toInt64))) <|
    list cstr

/-- `Transaction::_encode`. -/
def Transaction.encode (t : Transaction) : Bytes :=
  lists.enc (t.ops, t.bls, t.oids, t.cids, t.lengths, t.attrnames)

/-- `Transaction::_decode` into a new transaction. -/
def Transaction.decode (bs : Bytes) : Option Transaction :=
  (lists.dec bs).map fun ((ops, bls, oids, cids, lengths, attrnames), _) =>
    ⟨ops, bls, oids, cids, lengths, attrnames, []⟩

/-- `apply_transaction`, with what it hands to the journal. -/
def submitTransaction (t : Transaction) (s : Store δ) : Option (Bytes × Store δ) :=
  (applyTransaction B cloneable t s).map fun p => (p.1.encode, p.2)

/-- An entry is written for an operation that did not fail; `write` and `zero`
write none for a length of zero, and assert that `int` holds the length.
`trim_from_cache` writes none. -/
def journaled : Update → ℤ → Option Bool
  | .write _ _ len _, r => if 0 < r then if r = len.toNat then some true else none else some false
  | .zero _ _ len, r => if 0 < r then if r = len.toNat then some true else none else some false
  | .trimFromCache .., _ => some false
  | _, r => some (0 ≤ r)

/-- The entry points for one operation: `write`, `zero`, `truncate`, ..., with
what they hand to the journal. -/
def call (u : Update) (s : Store δ) : Option (Option Bytes × Store δ) := do
  let (r, s) ← perform B cloneable u s
  let j ← journaled u r
  return (if j then some (Transaction.build [u]).encode else none, s)

/-- The replay of an entry at `mount`. -/
def replay (bs : Bytes) (s : Store δ) : Option (Store δ) := do
  let t ← Transaction.decode bs
  let (_, s) ← applyTransaction B cloneable t s
  return s

/-! ### Applying takes everything -/

namespace Transaction

theorem append_assoc (t t' t'' : Transaction) : (t.append t').append t'' = t.append (t'.append t'') := by
  simp [append]

@[simp] theorem empty_append (t : Transaction) : empty.append t = t := rfl

@[simp] theorem append_empty (t : Transaction) : t.append empty = t := by
  simp [append, empty]

theorem foldl_push : ∀ (us : List Update) (t : Transaction), us.foldl push t = t.append (build us)
  | [], t => (append_empty t).symm
  | u :: us, t => by
    have h1 := foldl_push us (t.push u)
    have h2 := foldl_push us (empty.push u)
    simp only [build, List.foldl_cons] at h1 h2 ⊢
    rw [h1, h2]
    simp only [push, append_assoc, empty_append]

theorem build_cons (u : Update) (us : List Update) : build (u :: us) = (ofUpdate u).append (build us) :=
  foldl_push us (empty.push u)

theorem ofUpdate_ops (u : Update) : (ofUpdate u).ops = [u.op] := by
  cases u <;> rfl

end Transaction

open Transaction

theorem getUpdate_ofUpdate (u : Update) (ops : List UInt8) (t : Transaction) :
    getUpdate u.op { (ofUpdate u).append t with ops := ops } = some (u, { t with ops := ops }) := by
  cases u <;> rfl

theorem applyOps_cons (u : Update) (us : List Update) (s : Store δ) :
    applyTransaction B cloneable (build (u :: us)) s =
      (perform B cloneable u s).bind fun p => applyTransaction B cloneable (build us) p.2 := by
  unfold applyTransaction
  have hops : ((ofUpdate u).append (build us)).ops = u.op :: (build us).ops := by
    simp [append, ofUpdate_ops]
  rw [build_cons, hops]
  have hget := getUpdate_ofUpdate u (build us).ops (build us)
  simp only [applyOps, hget, bind, Option.bind_some]

/-- The store after some updates. -/
def performAll : List Update → Store δ → Option (Store δ)
  | [], s => some s
  | u :: us, s => (perform B cloneable u s).bind fun p => performAll us p.2

/-- **Applying takes everything.** Nothing is left of a transaction. -/
theorem applyOps_build (us : List Update) : ∀ s : Store δ,
    applyTransaction B cloneable (build us) s = (performAll B cloneable us s).map fun s => (empty, s) := by
  induction us with
  | nil => exact fun _ => rfl
  | cons u us ih =>
    intro s
    rw [applyOps_cons]
    unfold performAll
    cases perform B cloneable u s with
    | none => rfl
    | some p => exact ih p.2

/-! ### Entries come back -/

theorem reads_pobject (o : PObject) : pobject.Reads o := by
  have hlt32 : ∀ v : UInt32, v.toNat < 256 ^ 4 := fun v => v.toNat_lt
  have hlt64 : ∀ v : UInt64, v.toNat < 256 ^ 8 := fun v => v.toNat_lt
  refine via ?_ ?_
  · exact (reads_raw (hlt32 _)).pair ((reads_raw (hlt32 _)).pair ((reads_raw (hlt64 _)).pair
      ((reads_raw (hlt32 _)).pair (reads_raw (hlt32 _)))))
  · simp

theorem reads_cstr {a : CStr} (h : a.1.length < 256 ^ 4) : cstr.Reads a := by
  refine via (reads_blob h) (Subtype.ext ?_)
  refine List.takeWhile_eq_self_iff.mpr fun x hx => ?_
  simp only [ne_eq, decide_eq_true_eq]
  rintro rfl
  exact a.2 hx

/-- The lists are no longer than their counters can say. -/
structure Transaction.Fits (t : Transaction) : Prop where
  ops : t.ops.length < 256 ^ 4
  bls : t.bls.length < 256 ^ 4
  bl : ∀ b ∈ t.bls, b.length < 256 ^ 4
  oids : t.oids.length < 256 ^ 4
  cids : t.cids.length < 256 ^ 4
  lengths : t.lengths.length < 256 ^ 4
  attrnames : t.attrnames.length < 256 ^ 4
  attrname : ∀ a ∈ t.attrnames, a.1.length < 256 ^ 4

/-- **An entry comes back**, but for the attribute sets. -/
theorem decode_encode {t : Transaction} (h : t.Fits) : decode t.encode = some { t with pattrsets := [] } := by
  have hops : (list (via (raw 1) UInt8.toNat UInt8.ofNat)).Reads t.ops := by
    refine reads_list h.ops fun b _ => via (reads_raw b.toNat_lt) ?_
    simp
  have hcids : (list (via (raw 8) UInt64.toNat UInt64.ofNat)).Reads t.cids := by
    refine reads_list h.cids fun c _ => via (reads_raw c.toNat_lt) ?_
    simp
  have hlengths : (list (via (raw 8) (fun l : Int64 => l.toUInt64.toNat)
      fun n => (UInt64.ofNat n).toInt64)).Reads t.lengths := by
    refine reads_list h.lengths fun l _ => via (reads_raw l.toUInt64.toNat_lt) ?_
    simp
  have hall : lists.Reads (t.ops, t.bls, t.oids, t.cids, t.lengths, t.attrnames) :=
    hops.pair ((reads_list h.bls fun b hb => reads_blob (h.bl b hb)).pair
      ((reads_list h.oids fun o _ => reads_pobject o).pair (hcids.pair (hlengths.pair
        (reads_list h.attrnames fun a ha => reads_cstr (h.attrname a ha))))))
  have hdec := hall []
  rw [List.append_nil] at hdec
  simp only [decode, encode, hdec, Option.map_some]

end Ebofs
end Ceph
