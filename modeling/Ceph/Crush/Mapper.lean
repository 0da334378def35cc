/-
# Choosing from a CRUSH map

Each kind of bucket yields one of its items for an input and a number of the
trial. `crushChoose` draws from a bucket until it has as many different items of
one type as asked, and `crushDoRule` follows a rule from its start to the
devices. A device that is to be the first of them (`forcefeed`) is led to by the
tables of parents.

What does not come back in the source is `none` here: a failed assertion, a
division by zero, an index out of bounds.
-/
import Ceph.Crush.Builder

namespace Ceph
namespace Crush

variable (h : Hashes)

/-! ### Choosing from a bucket -/

/-- The low 16 bits of a hash. -/
def low16 (n : UInt32) : ℕ := n.toNat % 2 ^ 16

/-- `crush_bucket_uniform_choose`. -/
def uniformChoose (b : Bucket) (primes : List ℕ) (x r : ℤ) : Option ℤ :=
  if b.size = 0 then none
  else
    let o := low16 (h.hash32_2 (UInt32.ofInt x) (UInt32.ofInt b.id))
    (primes[(h.hash32_2 (UInt32.ofInt b.id) (UInt32.ofInt x)).toNat % b.size]?).bind fun p =>
      let s := (UInt32.ofInt (x + o + (r + 1) * p)).toNat % b.size
      b.items[s]?

/-- The loop of `crush_bucket_list_choose`; it is not to run off the end. -/
def listLoop (x r id : ℤ) : List ℤ → List ℕ → List ℕ → Option ℤ
  | item :: items, weight :: weights, sum :: sums =>
    let w := low16 (h.hash32_4 (UInt32.ofInt x) (UInt32.ofInt item) (UInt32.ofInt r) (UInt32.ofInt id)) * sum
    if w >>> 16 < weight then some item else listLoop x r id items weights sums
  | _, _, _ => none

/-- `crush_bucket_list_choose`. -/
def listChoose (b : Bucket) (itemWeights sums : List ℕ) (x r : ℤ) : Option ℤ :=
  listLoop h x r b.id b.items itemWeights sums

/-- `left`. -/
def left (x : ℕ) : ℕ := x - 1 <<< (height x - 1)

/-- `right`. -/
def right (x : ℕ) : ℕ := x + 1 <<< (height x - 1)

/-- The loop of `crush_bucket_tree_choose`, down to a leaf. -/
def treeLoop (nodeWeights : List ℕ) (x r id : ℤ) : ℕ → ℕ → Option ℕ
  | 0, _ => none
  | k + 1, n =>
    if n % 2 = 1 then some n
    else
      nodeWeights[n]?.bind fun w => nodeWeights[left n]?.bind fun below =>
        let t := (h.hash32_4 (UInt32.ofInt x) (UInt32.ofNat n) (UInt32.ofInt r) (UInt32.ofInt id)).toNat * w
        treeLoop nodeWeights x r id k (if t >>> 32 < below then left n else right n)

/-- `crush_bucket_tree_choose`. -/
def treeChoose (b : Bucket) (nodeWeights : List ℕ) (x r : ℤ) : Option ℤ :=
  (treeLoop h nodeWeights x r b.id b.size (b.size >>> 1)).bind fun n => b.items[n]?

/-- The loop of `crush_bucket_straw_choose`, with the highest draw so far. -/
def strawLoop (x r : ℤ) : List ℤ → List ℕ → Option (ℤ × ℕ) → Option ℤ
  | item :: items, straw :: straws, high =>
    let draw := low16 (h.hash32_3 (UInt32.ofInt x) (UInt32.ofInt item) (UInt32.ofInt r)) * straw
    strawLoop x r items straws (match high with
      | none => some (item, draw)
      | some (best, highDraw) => if highDraw < draw then some (item, draw) else some (best, highDraw))
  | _, _, high => high.map Prod.fst

/-- `crush_bucket_straw_choose`. -/
def strawChoose (b : Bucket) (straws : List ℕ) (x r : ℤ) : Option ℤ := strawLoop h x r b.items straws none

/-- The choice by the kind of the bucket. -/
def bucketChoose (b : Bucket) (x r : ℤ) : Option ℤ :=
  match b.alg with
  | .uniform primes _ => uniformChoose h b primes x r
  | .list itemWeights sums => listChoose h b itemWeights sums x r
  | .tree nodeWeights => treeChoose h b nodeWeights x r
  | .straw straws => strawChoose h b straws x r

/-! ### Choosing several items -/

variable (m : Map)

/-- `is_out`. -/
def isOut (item x : ℤ) : Option Bool :=
  if item < 0 then none
  else (m.deviceOffload.bind (·[item.toNat]?)).map fun offload =>
    offload ≠ 0 && (0x10000 ≤ offload || low16 (h.hash32_2 (UInt32.ofInt x) (UInt32.ofInt item)) < offload)

/-- `itemtype`. -/
def itemType (item : ℤ) : Option ℤ := if item < 0 then (m.bucket item).map (·.type) else some 0

/-- `r`, the number of a trial, from the failures so far. -/
def trial (b : Bucket) (numrep : ℕ) (firstn : Bool) (rep ftotal flocal : ℕ) : ℤ :=
  match b.alg with
  | .uniform _ _ =>
    if firstn || b.size ≤ numrep then rep + ftotal
    else if b.size % numrep = 0 then rep + (numrep + 1) * flocal
    else rep + numrep * flocal
  | _ => if firstn then rep + ftotal else rep + numrep * flocal

/-- The trials for one place, with the items `out` taken already: `some none` gives the
place up. An item of another type is to be gone into, but the `continue` there ends
both loops, and the item stands. -/
def tryRep (b : Bucket) (x : ℤ) (numrep : ℕ) (type : ℤ) (firstn : Bool) (rep : ℕ) (out : List ℤ) :
    ℕ → ℕ → ℕ → Option (Option ℤ)
  | 0, _, _ => none
  | k + 1, ftotal, flocal =>
    (bucketChoose h b x (trial b numrep firstn rep ftotal flocal)).bind fun item =>
      (itemType m item).bind fun itemtype =>
        if itemtype ≠ type then if 0 ≤ item then none else some (some item)
        else
          let collide := out.contains item
          (if itemtype = 0 then isOut h m item x else some false).bind fun reject =>
            if reject || collide then
              if collide && flocal + 1 < 3 then
                tryRep b x numrep type firstn rep out k (ftotal + 1) (flocal + 1)
              else if ftotal + 1 < 10 then tryRep b x numrep type firstn rep out k (ftotal + 1) 0
              else some none
            else some (some item)

/-- More trials than one place can take. -/
def maxTrials : ℕ := 13

/-- The places from `rep` on. -/
def chooseLoop (b : Bucket) (x : ℤ) (numrep : ℕ) (type : ℤ) (firstn : Bool) : ℕ → ℕ → List ℤ → Option (List ℤ)
  | 0, _, out => some out
  | k + 1, rep, out =>
    (tryRep h m b x numrep type firstn rep out maxTrials 0 0).bind fun item =>
      chooseLoop b x numrep type firstn k (rep + 1) (out ++ item.toList)

/-- `crush_choose`: the items in `out` are there, and others are written after them. -/
def crushChoose (b : Bucket) (x : ℤ) (numrep : ℕ) (type : ℤ) (out : List ℤ) (firstn : Bool) : Option (List ℤ) :=
  chooseLoop h m b x numrep type firstn (numrep - out.length) out.length out

/-! ### Rules -/

/-- `CRUSH_MAX_DEPTH`, the size of the stack of forced items. -/
def maxDepth : ℕ := 10

/-- `CRUSH_MAX_SET`, the size of the arrays a rule works on. -/
def maxSet : ℕ := 10

/-- `force_stack`, from the item and those above it; the last one pushed is the first here. -/
def forceStack : ℕ → ℤ → List ℤ → Option (List ℤ)
  | 0, _, _ => none
  | k + 1, item, stack =>
    let up := if 0 ≤ item then m.deviceParents.getD item.toNat 0 else m.bucketParents.getD (-1 - item).toNat 0
    if up = 0 then some (item :: stack) else forceStack k up (item :: stack)

/-- Where a rule is: the items it works on, those that are forced yet, and what it has emitted. -/
structure Work where
  w : List ℤ
  force : List ℤ
  result : List ℤ

/-- A choose step: for each bucket in turn, with the items chosen so far. -/
def chooseEach (x : ℤ) (numrep : ℕ) (type : ℤ) (firstn : Bool) :
    List ℤ → List ℤ → List ℤ → Option (List ℤ × List ℤ)
  | [], force, o => some (o, force)
  | i :: w, force, o =>
    let (out, force) := match o, force with
      | [], forced :: force => ([forced], force)
      | _, force => ([], force)
    (m.bucket i).bind fun b => (crushChoose h m b x numrep type out firstn).bind fun out =>
      if maxSet < (o ++ out).length then none else chooseEach x numrep type firstn w force (o ++ out)

/-- One step of a rule. -/
def ruleStep (x : ℤ) (resultMax : ℕ) (k : Work) (step : Step) : Option Work :=
  match step.op with
  | .take =>
    match k.force with
    | forced :: force => if forced ≠ step.arg1 then none else some { k with w := [forced], force }
    | [] => some { k with w := [step.arg1] }
  | .chooseFirstn | .chooseIndep =>
    if k.w = [] then none
    else
      (chooseEach h m x step.arg1.toNat step.arg2 (step.op = .chooseFirstn) k.w k.force []).map fun o =>
        { k with w := o.1, force := o.2 }
  | .emit => some { k with w := [], result := k.result ++ k.w.take (resultMax - k.result.length) }

/-- The steps of a rule. -/
def ruleSteps (x : ℤ) (resultMax : ℕ) : List Step → Work → Option Work
  | [], k => some k
  | step :: steps, k => (ruleStep h m x resultMax k step).bind (ruleSteps x resultMax steps)

/-- What `crush_do_rule` returns: that the forced device does not exist, or the items. -/
inductive Placed
  | dne
  | items (result : List ℤ)
deriving DecidableEq

/-- `crush_do_rule`. -/
def crushDoRule (ruleno : ℕ) (x : ℤ) (resultMax : ℕ) (forcefeed : ℤ) : Option Placed :=
  (m.rules[ruleno]?).join.bind fun rule =>
    let run (force : List ℤ) := (ruleSteps h m x resultMax rule ⟨[], force, []⟩).map fun k => Placed.items k.result
    if 0 ≤ forcefeed ∧ forcefeed < m.maxDevices then
      if m.deviceParents.getD forcefeed.toNat 0 = 0 then some .dne
      else (isOut h m forcefeed x).bind fun out =>
        if out then run [] else (forceStack m maxDepth forcefeed []).bind run
    else run []

end Crush
end Ceph
