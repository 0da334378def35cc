/-
# What a transaction returns

`_apply_transaction` performs the operations of a transaction and collects in a bit field which of them
failed; `apply_transaction` gives up the callback of one that reports a failure. The field starts as zero and is
and-ed with the bit of an operation that fails, so that it stays zero.

The arguments come out of a transaction as they were put in (`applyOps_build`), so a transaction is the list of
its operations here, those that read among them. What `attempt_read` comes to in the end is the
layer below's.
-/
import Ceph.Ebofs.Replay

namespace Ceph
namespace Ebofs

open Wire (Bytes)

/-- The operations of a transaction. -/
inductive Operation
  | read (oid : PObject) (off len : Int64)
  | stat (oid : PObject)
  | getattr (oid : PObject) (name : CStr) (size : ℕ)
  | getattrs (oid : PObject)
  | update (u : Update)

variable {δ κ : Type} (B : Blocks δ) (attemptRead : δ → ℤ → ℤ → ℤ × Bytes) (cloneable : Bool)

/-! ### The code -/

/-- `_read`. -/
def read (oid : PObject) (off len : Int64) (s : Store δ) : ℤ :=
  match s.onodes oid with
  | none => -ENOENT
  | some on =>
    if on.objectSize ≤ off.toInt then 0
    else
      let tryLen := if len = 0 then on.objectSize else len.toInt
      let willRead := min (off.toInt + tryLen) on.objectSize - off.toInt
      let (r, bl) := attemptRead on.data off.toInt willRead
      if r < 0 then r else bl.length

/-- `_stat`. -/
def stat (oid : PObject) (s : Store δ) : ℤ := if (s.onodes oid).isSome then 0 else -ENOENT

/-- `_getattr`. -/
def getattr (oid : PObject) (name : CStr) (size : ℕ) (s : Store δ) : ℤ :=
  match s.onodes oid with
  | none => -ENOENT
  | some on =>
    match on.attr name.1 with
    | none => -1
    | some value => min value.length size

/-- `_getattrs`. -/
def getattrs (oid : PObject) (s : Store δ) : ℤ := if (s.onodes oid).isSome then 0 else -ENOENT

/-- What one operation returns and does. -/
def performOperation : Operation → Store δ → Option (ℤ × Store δ)
  | .read oid off len, s => some (read attemptRead oid off len s, s)
  | .stat oid, s => some (stat oid s, s)
  | .getattr oid name size, s => some (getattr oid name size s, s)
  | .getattrs oid, s => some (getattrs oid s, s)
  | .update u, s => perform B cloneable u s

/-- The operations whose result the `switch` looks at. -/
def Operation.tested : Operation → Bool
  | .update (.trimFromCache ..) | .update (.collectionAdd ..) => false
  | _ => true

/-- An operation failed. -/
def Failed (p : Operation × ℤ) : Prop := p.1.tested = true ∧ p.2 < 0

instance (p : Operation × ℤ) : Decidable (Failed p) := inferInstanceAs (Decidable (_ ∧ _))

/-- The loop of `_apply_transaction`. -/
def applyLoop : List Operation → Store δ → BitVec 32 → BitVec 32 → Option (BitVec 32 × Store δ)
  | [], s, r, _ => some (r, s)
  | op :: ops, s, r, bit => (performOperation B attemptRead cloneable op s).bind fun p =>
      applyLoop ops p.2 (if Failed (op, p.1) then r &&& bit else r) (bit <<< 1)

/-- `_apply_transaction`. -/
def applyOperations (ops : List Operation) (s : Store δ) : Option (BitVec 32 × Store δ) :=
  applyLoop B attemptRead cloneable ops s 0 1

/-- `apply_transaction`: its result, and the callback that goes on to the journal. -/
def applyAndReport (ops : List Operation) (onsafe : Option κ) (s : Store δ) :
    Option (BitVec 32 × Option κ × Store δ) :=
  (applyOperations B attemptRead cloneable ops s).map fun p => (p.1, if p.1 ≠ 0 then none else onsafe, p.2)

/-! ### What it should return -/

/-- What each operation returns, one after the other. -/
def codes : List Operation → Store δ → Option (List (Operation × ℤ))
  | [], _ => some []
  | op :: ops, s => (performOperation B attemptRead cloneable op s).bind fun p => (codes ops p.2).map ((op, p.1) :: ·)

/-- The failures among `cs` are reported by `r`, and `kept` is what is left of the callback. -/
structure Reported (cs : List (Operation × ℤ)) (onsafe : Option κ) (r : BitVec 32) (kept : Option κ) : Prop where
  bit : ∀ i p, cs[i]? = some p → (r.getLsbD i = true ↔ Failed p)
  nonzero : r ≠ 0 ↔ ∃ p ∈ cs, Failed p
  discards : ∀ c, onsafe = some c → (kept = none ↔ ∃ p ∈ cs, Failed p)

theorem applyLoop_zero : ∀ (ops : List Operation) (s : Store δ) (bit : BitVec 32),
    (applyLoop B attemptRead cloneable ops s 0 bit).map Prod.fst =
      (codes B attemptRead cloneable ops s).map fun _ => 0
  | [], _, _ => rfl
  | op :: ops, s, bit => by
    rw [applyLoop, codes]
    cases performOperation B attemptRead cloneable op s with
    | none => rfl
    | some p =>
      have hand : (if Failed (op, p.1) then 0 &&& bit else 0) = (0 : BitVec 32) := by simp
      rw [Option.bind_some, Option.bind_some, hand, applyLoop_zero ops p.2, Option.map_map]
      rfl

/-- **Failures are reported** exactly where there are none. -/
theorem failures_reported_iff (ops : List Operation) (onsafe : κ) (s : Store δ) :
    (∀ cs r kept s', codes B attemptRead cloneable ops s = some cs →
      applyAndReport B attemptRead cloneable ops (some onsafe) s = some (r, kept, s') → Reported cs (some onsafe) r kept) ↔
    ∀ cs, codes B attemptRead cloneable ops s = some cs → ∀ p ∈ cs, ¬ Failed p := by
  have hzero := applyLoop_zero B attemptRead cloneable ops s 1
  have hrun : ∀ cs, codes B attemptRead cloneable ops s = some cs →
      ∃ s', applyAndReport B attemptRead cloneable ops (some onsafe) s = some (0, some onsafe, s') := fun cs hcs => by
    rw [hcs] at hzero
    obtain ⟨⟨r, s'⟩, hloop, hr⟩ := Option.map_eq_some_iff.mp hzero
    obtain rfl : r = 0 := hr
    exact ⟨s', by rw [applyAndReport, applyOperations, hloop]; rfl⟩
  constructor
  · intro h cs hcs p hp hfail
    obtain ⟨s', hs'⟩ := hrun cs hcs
    exact (h cs 0 _ s' hcs hs').nonzero.mpr ⟨p, hp, hfail⟩ rfl
  · intro h cs r kept s' hcs hs'
    obtain ⟨s'', hs''⟩ := hrun cs hcs
    obtain ⟨rfl, rfl, rfl⟩ : r = 0 ∧ kept = some onsafe ∧ s' = s'' := by
      simpa [hs''] using hs'.symm
    have hnone : ¬ ∃ p ∈ cs, Failed p := fun ⟨p, hp, hfail⟩ => h cs hcs p hp hfail
    refine ⟨fun i p hi => ?_, iff_of_false (not_not_intro rfl) hnone, fun c _ => iff_of_false nofun hnone⟩
    exact iff_of_false (by simp) (h cs hcs p (List.mem_of_getElem? hi))

/-- `attempt_read` of plain bytes. -/
def readPlain (d : Bytes) (off len : ℤ) : ℤ × Bytes := (1, (d.drop off.toNat).take len.toNat)

/-- Nobody hears that an object is not there. -/
theorem failure_unreported : ∃ cs s', codes plain readPlain true [.stat anObject] blank = some cs ∧
    applyAndReport plain readPlain true [.stat anObject] (some ()) blank = some (0, some (), s') ∧
    ¬ Reported cs (some ()) 0 (some ()) := by
  refine ⟨_, _, rfl, rfl, fun h => ?_⟩
  exact h.nonzero.mpr ⟨_, List.mem_singleton_self _, by decide⟩ rfl

end Ebofs
end Ceph
