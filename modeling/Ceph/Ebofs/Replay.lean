/-
# What the replay of an entry does

`apply_transaction` applies the transaction and then encodes it, when its
lists are empty; the entry says nothing, and its replay changes nothing. The
entry points for one operation encode a transaction of their own, whose replay
does what they did, except `setattrs`: the attribute set is not in the entry.
-/
import Ceph.Ebofs.Transaction

namespace Ceph
namespace Ebofs

open Option
open Wire Transaction

variable {δ : Type} (B : Blocks δ) (cloneable : Bool)

/-- The same objects, contents, attributes and collections. -/
structure Same (s s' : Store δ) : Prop where
  onodes : s'.onodes = s.onodes
  cnodes : s'.cnodes = s.cnodes
  coTab : s'.coTab = s.coTab

theorem Same.refl (s : Store δ) : Same s s := ⟨rfl, rfl, rfl⟩

/-- The replay of the entry `e`, on the store as it was, gives the store as it is. -/
def Reproduces (e : Bytes) (s s' : Store δ) : Prop := ∃ s'', replay B cloneable e s = some s'' ∧ Same s' s''

/-! ### Transactions -/

theorem replay_empty (s : Store δ) : replay B cloneable empty.encode s = some s := by
  have hdec : decode empty.encode = some empty := rfl
  rfl

/-- The updates, one after the other, leave everything as it was. -/
def Ineffective (us : List Update) (s : Store δ) : Prop :=
  ∀ s', performAll B cloneable us s = some s' → Same s' s

/-- **Transactions.** The entry reproduces a transaction that changes nothing,
and no other. -/
theorem reproduces_submit_iff (us : List Update) (s : Store δ) :
    (∀ e s', submitTransaction B cloneable (build us) s = some (e, s') → Reproduces B cloneable e s s') ↔
      Ineffective B cloneable us s := by
  have hsubmit : submitTransaction B cloneable (build us) s =
      (performAll B cloneable us s).map fun s' => (empty.encode, s') := by
    unfold submitTransaction
    rw [applyOps_build, Option.map_map]
    rfl
  constructor
  · intro h s' hs'
    rw [hs', map_some] at hsubmit
    obtain ⟨s'', hrep, hsame⟩ := h _ s' hsubmit
    cases hrep
    exact hsame
  · intro h e s' hs'
    rw [hsubmit] at hs'
    obtain ⟨s1, hperf, ⟨⟩⟩ := map_eq_some_iff.mp hs'
    exact ⟨s, replay_empty B cloneable s, h s' hperf⟩

/-! ### The entry points for one operation -/

/-- The object is there and may be changed. -/
def Writable (oid : PObject) (s : Store δ) : Prop := ∃ on, s.onodes oid = some on ∧ on.readonly = false

/-- The entry of the update is shorter than `int off` can say. -/
def Update.Fits (u : Update) : Prop := (build [u]).encode.length < 2 ^ 31

theorem length_le_of_mem {α : Type} {c : Codec α} {l : List α} {a : α} (h : a ∈ l) :
    (c.enc a).length ≤ ((list c).enc l).length := by
  have hsub : List.Sublist (c.enc a) (l.flatMap c.enc) := by
    exact List.sublist_flatten_of_mem (List.mem_map_of_mem h)
  have hlen := hsub.length_le
  simp only [list, List.length_append]
  omega

theorem length_bl_le {t : Transaction} {b : Bytes} (hb : b ∈ t.bls) : b.length ≤ t.encode.length := by
  have h1 := length_le_of_mem (c := blob) hb
  have h2 : b.length ≤ (blob.enc b).length := by
    simp [blob]
  simp only [Transaction.encode, lists, Wire.pair, List.length_append]
  omega

theorem length_attrname_le {t : Transaction} {a : CStr} (ha : a ∈ t.attrnames) :
    a.1.length ≤ t.encode.length := by
  have h1 := length_le_of_mem (c := cstr) ha
  have h2 : a.1.length ≤ (cstr.enc a).length := by
    simp [cstr, Wire.via, blob]
  simp only [Transaction.encode, lists, Wire.pair, List.length_append]
  omega

theorem build_singleton_le (u : Update) : (build [u]).ops.length ≤ 2 ∧ (build [u]).bls.length ≤ 2 ∧
    (build [u]).oids.length ≤ 2 ∧ (build [u]).cids.length ≤ 2 ∧ (build [u]).lengths.length ≤ 2 ∧
    (build [u]).attrnames.length ≤ 2 := by
  cases u <;> simp [build, push, append, ofUpdate, empty]

theorem Update.Fits.fits {u : Update} (h : u.Fits) : (build [u]).Fits := by
  obtain ⟨h1, h2, h3, h4, h5, h6⟩ := build_singleton_le u
  have hsmall : (2 : ℕ) ^ 31 < 256 ^ 4 := by decide
  have htwo : ∀ k : ℕ, k ≤ 2 → k < 256 ^ 4 := fun k hk => lt_of_le_of_lt hk (by decide)
  refine ⟨htwo _ h1, htwo _ h2, fun b hb => ?_, htwo _ h3, htwo _ h4, htwo _ h5, htwo _ h6, fun a ha => ?_⟩
  · exact lt_trans (lt_of_le_of_lt (length_bl_le hb) h) hsmall
  · exact lt_trans (lt_of_le_of_lt (length_attrname_le ha) h) hsmall

theorem replay_build {u : Update} (hfit : u.Fits) (hptr : (build [u]).pattrsets = []) (s : Store δ) :
    replay B cloneable (build [u]).encode s = (perform B cloneable u s).map Prod.snd := by
  have hdec : decode (build [u]).encode = some (build [u]) := by
    rw [decode_encode hfit.fits, ← hptr]
  simp only [replay, hdec, bind, bind_some, applyOps_build, performAll]
  cases perform B cloneable u s <;> rfl

/-- The replay of a `setattrs` looks for the set where there is none. -/
theorem replay_setattrs (oid : PObject) (attrset : Attrs) (hfit : (Update.setattrs oid attrset).Fits)
    (s : Store δ) : replay B cloneable (build [.setattrs oid attrset]).encode s = none := by
  have hdec := decode_encode hfit.fits
  simp only [replay, hdec, bind, bind_some]
  rfl

/-- Only `setattrs` carries a pointer. -/
theorem pattrsets_build {u : Update} (h : ∀ oid attrset, u ≠ .setattrs oid attrset) :
    (build [u]).pattrsets = [] := by
  cases u with
  | setattrs oid attrset => exact absurd rfl (h oid attrset)
  | _ => rfl

/-- **Single operations.** What an entry point hands to the journal reproduces
what it did, unless it is `setattrs` of an object that may be changed. -/
theorem reproduces_call_iff {u : Update} (hfit : u.Fits) (s : Store δ) :
    (∀ e s', call B cloneable u s = some (some e, s') → Reproduces B cloneable e s s') ↔
      ∀ oid attrset, u = .setattrs oid attrset → ¬ Writable oid s := by
  constructor
  · rintro h oid attrset rfl ⟨on, hon, hro⟩
    have hcall : ∃ s', call B cloneable (.setattrs oid attrset) s =
        some (some (build [.setattrs oid attrset]).encode, s') := by
      simp [call, perform, setattrs, changeOnode, hon, hro, journaled]
    obtain ⟨s', hcall⟩ := hcall
    obtain ⟨s'', hrep, -⟩ := h _ s' hcall
    rw [replay_setattrs B cloneable oid attrset hfit] at hrep
    cases hrep
  · intro h e s' hcall
    obtain ⟨⟨r, s1⟩, hperf, hcall⟩ := bind_eq_some_iff.mp hcall
    obtain ⟨j, hj, hcall⟩ := bind_eq_some_iff.mp hcall
    have hset : ∀ oid attrset, u ≠ .setattrs oid attrset := by
      rintro oid attrset rfl
      -- it failed, and was not journaled
      have hr : r < 0 := by
        have hnot := h oid attrset rfl
        simp only [perform, setattrs, changeOnode, some.injEq] at hperf
        cases hon : s.onodes oid with
        | none =>
          simp only [hon, Prod.mk.injEq] at hperf
          rw [← hperf.1]
          decide
        | some on =>
          have hro : on.readonly = true := by
            by_contra hro
            exact hnot ⟨on, hon, by simpa using hro⟩
          simp only [hon, hro, if_true, Prod.mk.injEq] at hperf
          rw [← hperf.1]
          decide
      simp only [journaled, some.injEq] at hj
      subst hj
      simp [not_le.mpr hr] at hcall
    cases j with
    | false => simp at hcall
    | true =>
      simp only [if_true, Option.pure_def, some.injEq, Prod.mk.injEq] at hcall
      obtain ⟨rfl, rfl⟩ := hcall
      refine ⟨s1, ?_, .refl s1⟩
      rw [replay_build B cloneable hfit (pattrsets_build hset), hperf]
      rfl

/-- **Replay.** The entry of a transaction reproduces it exactly when it changed
nothing; that of a single operation, exactly when it is not the `setattrs` of
an object that may be changed. -/
theorem replay_reproduces :
    (∀ (us : List Update) (s : Store δ),
      (∀ e s', submitTransaction B cloneable (build us) s = some (e, s') → Reproduces B cloneable e s s') ↔
        Ineffective B cloneable us s) ∧
    (∀ (u : Update) (s : Store δ), u.Fits →
      ((∀ e s', call B cloneable u s = some (some e, s') → Reproduces B cloneable e s s') ↔
        ∀ oid attrset, u = .setattrs oid attrset → ¬ Writable oid s)) :=
  ⟨reproduces_submit_iff B cloneable, fun _ s hfit => reproduces_call_iff B cloneable hfit s⟩

/-! ### A store of byte strings -/

/-- Data as plain bytes. -/
def plain : Blocks Bytes where
  empty := []
  write free d off bl := (free, (d.take off.toNat).rightpad off.toNat 0 ++ bl ++ d.drop (off.toNat + bl.length))
  zero free d off len :=
    (free, d.take off.toNat ++ List.replicate len 0 ++ d.drop (off.toNat + len), true)
  truncate free d size := (free, d.take size.toNat)
  share free d := (free, d, d)
  release free _ := free

/-- A store with nothing in it. -/
def blank : Store Bytes := ⟨fun _ => none, fun _ => none, ∅, 1000, ∅, ∅⟩

def anObject : PObject := ⟨0, 0, 1, 0, 0⟩

/-- The operation `setattr` is replayed as it was done. -/
theorem replay_setattr :
    (∀ e s', call plain true (.setattr anObject ⟨[97], by decide⟩ [1]) blank = some (some e, s') →
      Reproduces plain true e blank s') := by
  refine ((replay_reproduces plain true).2 _ blank ?_).mpr nofun
  show _ < _
  decide

/-- A transaction that writes two bytes is not. -/
theorem replay_write_lost :
    ¬ ∀ (us : List Update) (s : Store Bytes) (e : Bytes) (s' : Store Bytes),
      submitTransaction plain true (build us) s = some (e, s') → Reproduces plain true e s s' := by
  intro h
  have hnone := (reproduces_submit_iff plain true [.write anObject 0 2 [1, 2]] blank).mp (h _ blank)
  have hrun : ((performAll plain true [.write anObject 0 2 [1, 2]] blank).map
      fun s => (s.onodes anObject).isSome) = some true := by
    decide
  obtain ⟨s', hs', hsome⟩ := map_eq_some_iff.mp hrun
  have hsame := (hnone s' hs').onodes
  rw [← hsame] at hsome
  simp [blank] at hsome

end Ebofs
end Ceph
