/-
# What `crush_choose` writes

`crush_choose` is to go down through the levels between its bucket and the type
asked for. Its `continue` in an inner `do … while (retry_bucket)` ends that loop
and the one around it, and the item of the first level is written. So the items
are as asked just when the bucket yields nothing but items of that type; they
are then pairwise distinct, distinct from those that were there, and not out.
-/
import Ceph.Crush.Mapper

namespace Ceph
namespace Crush

open List Option

variable {h : Hashes} {m : Map} {b : Bucket} {x type : ℤ}

/-- The items are as asked, beside those in `out`. -/
structure Chosen (h : Hashes) (m : Map) (x type : ℤ) (out items : List ℤ) : Prop where
  typed : ∀ item ∈ items, itemType m item = some type
  inside : type = 0 → ∀ item ∈ items, isOut h m item x = some false
  nodup : items.Nodup
  fresh : ∀ item ∈ items, item ∉ out

/-- The bucket yields no bucket of another type. -/
def Draws (h : Hashes) (m : Map) (b : Bucket) (x type : ℤ) : Prop :=
  ∀ (r : ℕ) (item : ℤ) (child : Bucket), bucketChoose h b x r = some item → m.bucket item = some child →
    (child.type : ℤ) = type

variable {item : ℤ} {firstn : Bool}

variable {child : Bucket}

theorem bucket_neg (hchild : m.bucket item = some child) : item < 0 := by
  by_contra hpos
  rw [Map.bucket, if_neg hpos] at hchild
  nomatch hchild

theorem itemType_bucket (hchild : m.bucket item = some child) :
    itemType m item = some (child.type : ℤ) := by
  rw [itemType, if_pos (bucket_neg hchild), hchild, map_some]

theorem trial_nat (b : Bucket) (numrep : ℕ) (firstn : Bool) (rep ftotal flocal : ℕ) :
    ∃ r : ℕ, trial b numrep firstn rep ftotal flocal = r := by
  unfold trial
  split
  · split_ifs
    · exact ⟨rep + ftotal, by push_cast; rfl⟩
    · exact ⟨rep + (numrep + 1) * flocal, by push_cast; rfl⟩
    · exact ⟨rep + numrep * flocal, by push_cast; rfl⟩
  · split_ifs
    · exact ⟨rep + ftotal, by push_cast; rfl⟩
    · exact ⟨rep + numrep * flocal, by push_cast; rfl⟩

theorem trial_first (b : Bucket) (numrep rep : ℕ) (firstn : Bool) : trial b numrep firstn rep 0 0 = rep := by
  unfold trial
  split <;> simp

/-! ### One place -/

variable {numrep rep : ℕ} {out : List ℤ}

/-- An item that is written was drawn. It is of the type, not out, and not there yet, or it is of another type
and no bucket. -/
theorem tryRep_drawn :
    ∀ {fuel ftotal flocal : ℕ}, tryRep h m b x numrep type firstn rep out fuel ftotal flocal = some (some item) →
      ∃ r : ℕ, bucketChoose h b x r = some item ∧
        ((itemType m item = some type ∧ (type = 0 → isOut h m item x = some false) ∧ item ∉ out) ∨
          ∃ child, m.bucket item = some child ∧ (child.type : ℤ) ≠ type)
  | 0, _, _, ht => nomatch ht
  | fuel + 1, ftotal, flocal, ht => by
    obtain ⟨r, hr⟩ := trial_nat b numrep firstn rep ftotal flocal
    rw [tryRep, hr] at ht
    obtain ⟨drawn, hdraw, ht⟩ := bind_eq_some_iff.mp ht
    obtain ⟨itemtype, htype, ht⟩ := bind_eq_some_iff.mp ht
    by_cases hne : itemtype = type
    · rw [if_neg (not_not.mpr hne)] at ht
      rw [hne] at ht htype
      obtain ⟨reject, hreject, ht⟩ := bind_eq_some_iff.mp ht
      split_ifs at ht with hfail
      · exact tryRep_drawn ht
      · exact tryRep_drawn ht
      · nomatch ht
      · cases ht
        simp only [Bool.or_eq_true, not_or, Bool.not_eq_true] at hfail
        refine ⟨r, hdraw, .inl ⟨htype, fun h0 => ?_, ?_⟩⟩
        · rw [if_pos h0] at hreject
          rw [hreject, hfail.1]
        · simpa using hfail.2
    · rw [if_pos hne] at ht
      split_ifs at ht with hpos
      cases ht
      rw [itemType, if_pos (Int.not_le.mp hpos)] at htype
      obtain ⟨child, hchild, rfl⟩ := map_eq_some_iff.mp htype
      exact ⟨r, hdraw, .inr ⟨child, hchild, hne⟩⟩

theorem tryRep_chosen (hd : Draws h m b x type) {fuel ftotal flocal : ℕ}
    (ht : tryRep h m b x numrep type firstn rep out fuel ftotal flocal = some (some item)) :
    itemType m item = some type ∧ (type = 0 → isOut h m item x = some false) ∧ item ∉ out := by
  obtain ⟨r, hdraw, hin | ⟨child, hchild, hne⟩⟩ := tryRep_drawn ht
  · exact hin
  · -- an item of another type is no bucket's, by what the bucket yields
    exact absurd (hd r item child hdraw hchild) hne

/-! ### All places -/

theorem chooseLoop_chosen (hd : Draws h m b x type) :
    ∀ {places rep : ℕ} {out out' : List ℤ}, chooseLoop h m b x numrep type firstn places rep out = some out' →
      ∃ items, out' = out ++ items ∧ Chosen h m x type out items
  | 0, _, out, _, hc => by
    cases hc
    exact ⟨[], (append_nil out).symm, nofun, nofun, nodup_nil, nofun⟩
  | places + 1, rep, out, out', hc => by
    obtain ⟨item, htry, hc⟩ := bind_eq_some_iff.mp hc
    obtain ⟨items, rfl, hch⟩ := chooseLoop_chosen hd hc
    cases item with
    | none =>
      rw [toList_none, append_nil] at hch ⊢
      exact ⟨items, rfl, hch⟩
    | some item =>
      obtain ⟨htype, hin, hfresh⟩ := tryRep_chosen hd htry
      refine ⟨item :: items, by rw [toList_some, List.append_assoc, singleton_append], ?_⟩
      have hnot : item ∉ items := fun hmem => hch.fresh item hmem (mem_append_right out (mem_singleton_self item))
      refine ⟨?_, ?_, nodup_cons.mpr ⟨hnot, hch.nodup⟩, ?_⟩
      · exact forall_mem_cons.mpr ⟨htype, hch.typed⟩
      · exact fun h0 => forall_mem_cons.mpr ⟨hin h0, hch.inside h0⟩
      · refine forall_mem_cons.mpr ⟨hfresh, fun it hit hout => ?_⟩
        exact hch.fresh it hit (mem_append_left _ hout)

theorem crushChoose_chosen (hd : Draws h m b x type) {out' : List ℤ}
    (hc : crushChoose h m b x numrep type out firstn = some out') :
    ∃ items, out' = out ++ items ∧ Chosen h m x type out items :=
  chooseLoop_chosen hd hc

theorem crushChoose_wrong {r : ℕ} (hdraw : bucketChoose h b x r = some item)
    (hchild : m.bucket item = some child) (hne : (child.type : ℤ) ≠ type) (hlen : out.length = r) :
    crushChoose h m b x (r + 1) type out true = some (out ++ [item]) := by
  have htry : tryRep h m b x (r + 1) type true r out maxTrials 0 0 = some (some item) := by
    rw [maxTrials, tryRep, trial_first, hdraw]
    simp only [bind_some, itemType_bucket hchild]
    rw [if_pos hne, if_neg (Int.not_le.mpr (bucket_neg hchild))]
  rw [crushChoose, hlen, Nat.add_sub_cancel_left, chooseLoop, htry]
  rfl

/-- Two levels: a bucket of type 2 over one of type 1 with a device. -/
def twoLevels : Map :=
  ((assemble crushHashes [.list 1 [(0, 65536)], .list 2 [(-1, 65536)]]).map finalize).getD crushCreate

/-- Every draw yields an item that can be looked at: one of another type is a bucket. -/
def Sound (h : Hashes) (m : Map) (b : Bucket) (x type : ℤ) : Prop :=
  ∀ r : ℕ, ∃ item itemtype, bucketChoose h b x r = some item ∧ itemType m item = some itemtype ∧
    (itemtype ≠ type → item < 0) ∧ (itemtype = 0 → ∃ o, isOut h m item x = some o)

theorem tryRep_returns (hs : Sound h m b x type) (numrep rep : ℕ) (firstn : Bool) (out : List ℤ) :
    ∀ fuel ftotal flocal : ℕ, ftotal ≤ flocal + 9 → flocal ≤ 2 → 12 ≤ ftotal + fuel →
      ∃ got, tryRep h m b x numrep type firstn rep out fuel ftotal flocal = some got
  | 0, _, _, _, _, _ => by omega
  | fuel + 1, ftotal, flocal, htotal, hlocal, hfuel => by
    obtain ⟨r, hr⟩ := trial_nat b numrep firstn rep ftotal flocal
    obtain ⟨item, itemtype, hdraw, htype, hneg, hout⟩ := hs r
    rw [tryRep, hr, hdraw, bind_some, htype, bind_some]
    by_cases hne : itemtype = type
    · obtain ⟨reject, hreject⟩ : ∃ reject, (if itemtype = 0 then isOut h m item x else some false) = some reject := by
        split_ifs with h0
        · exact hout h0
        · exact ⟨false, rfl⟩
      rw [if_neg (not_not.mpr hne), hreject, bind_some]
      split_ifs with hfail hagain hten
      · rw [Bool.and_eq_true, decide_eq_true_eq] at hagain
        exact tryRep_returns hs numrep rep firstn out fuel _ _ (by omega) (by omega) (by omega)
      · exact tryRep_returns hs numrep rep firstn out fuel _ _ (by omega) (by omega) (by omega)
      · exact ⟨none, rfl⟩
      · exact ⟨some item, rfl⟩
    · rw [if_pos hne, if_neg (Int.not_le.mpr (hneg hne))]
      exact ⟨some item, rfl⟩

theorem chooseLoop_returns (hs : Sound h m b x type) (numrep : ℕ) (firstn : Bool) : ∀ (places rep : ℕ) (out : List ℤ),
    ∃ out', chooseLoop h m b x numrep type firstn places rep out = some out'
  | 0, _, out => ⟨out, rfl⟩
  | places + 1, rep, out => by
    obtain ⟨got, hgot⟩ := tryRep_returns hs numrep rep firstn out maxTrials 0 0 (by decide) (by decide) (by decide)
    rw [chooseLoop, hgot]
    exact chooseLoop_returns hs numrep firstn places _ _

/-- **Choosing comes to an end**: the bound on the trials that is kept here cuts none off. -/
theorem crushChoose_returns (hs : Sound h m b x type) (numrep : ℕ) (firstn : Bool) (out : List ℤ) :
    ∃ out', crushChoose h m b x numrep type out firstn = some out' :=
  chooseLoop_returns hs numrep firstn _ _ _

/-! ### What is written was drawn -/

theorem chooseLoop_drawn :
    ∀ {places rep : ℕ} {out out' : List ℤ}, chooseLoop h m b x numrep type firstn places rep out = some out' →
      ∃ items, out' = out ++ items ∧ items.length ≤ places ∧ ∀ item ∈ items, ∃ r : ℕ, bucketChoose h b x r = some item
  | 0, _, out, _, hc => by
    cases hc
    exact ⟨[], (append_nil out).symm, Nat.le_refl 0, nofun⟩
  | places + 1, rep, out, out', hc => by
    obtain ⟨item, htry, hc⟩ := bind_eq_some_iff.mp hc
    obtain ⟨items, rfl, hlen, hdrawn⟩ := chooseLoop_drawn hc
    refine ⟨item.toList ++ items, List.append_assoc _ _ _, ?_, ?_⟩
    · have hone : item.toList.length ≤ 1 := length_toList_le
      rw [List.length_append]
      omega
    · intro it hit
      rcases mem_append.mp hit with hit | hit
      · rw [mem_toList.mp hit] at htry
        obtain ⟨r, hdraw, -⟩ := tryRep_drawn htry
        exact ⟨r, hdraw⟩
      · exact hdrawn it hit

theorem crushChoose_first {item itemtype : ℤ} (hs : Sound h m b x type) (hdraw : bucketChoose h b x 0 = some item)
    (ht : itemType m item = some itemtype) (hdev : itemtype ≠ 0) (places : ℕ) (firstn : Bool) :
    ∃ items, crushChoose h m b x (places + 1) type [] firstn = some (item :: items) := by
  obtain ⟨item', itemtype', hdraw', ht', hneg, -⟩ := hs 0
  cases hdraw.symm.trans hdraw'
  cases ht.symm.trans ht'
  have htry : tryRep h m b x (places + 1) type firstn 0 [] maxTrials 0 0 = some (some item) := by
    have h0 : trial b (places + 1) firstn 0 0 0 = 0 := trial_first b (places + 1) 0 firstn
    rw [maxTrials, tryRep, h0, hdraw, bind_some, ht, bind_some, if_neg hdev, bind_some]
    by_cases hne : itemtype = type
    · rw [if_neg (not_not.mpr hne)]
      rfl
    · rw [if_pos hne, if_neg (Int.not_le.mpr (hneg hne))]
  obtain ⟨out, hout⟩ := chooseLoop_returns hs (places + 1) firstn places 1 [item]
  obtain ⟨items, rfl, -⟩ := chooseLoop_drawn hout
  refine ⟨items, ?_⟩
  rw [crushChoose, length_nil, Nat.sub_zero, chooseLoop, htry]
  exact hout

end Crush
end Ceph
