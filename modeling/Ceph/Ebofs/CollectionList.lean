/-
# Listing a collection

`co_tab` has a key for each object of each collection, compared by the collection first. `collection_list`
goes to the least key that an object of the collection could have, and from there to the right until the
collection changes.

It stops where `move_right` returns a negative number. At the last key of the table it returns 0,
though, and moves into the add position, so the loop takes one more key: what is in the array
behind the last item. After a removal this is what was there before.
-/
import Ceph.Ebofs.Table
import Ceph.Ebofs.Transaction

namespace Ceph
namespace Ebofs

open List
open Btree

/-! ### The code -/

/-- `coll_pobject_t`. -/
structure CollPobject where
  first : Coll
  second : PObject

/-- The bytes of an object name, which `memcmp` compares. -/
def PObject.memory (o : PObject) : List ℕ := (pobject.enc o).map UInt8.toNat

theorem PObject.memory_injective : Function.Injective PObject.memory := by
  intro a b h
  have henc : pobject.enc a = pobject.enc b := map_injective_iff.mpr (fun _ _ => UInt8.toNat_inj.mp) h
  have ha := reads_pobject a []
  rw [henc, reads_pobject b []] at ha
  exact (Prod.mk.inj (Option.some.inj ha)).1.symm

/-- A `pair` is compared by its parts. -/
instance : LinearOrder CollPobject :=
  LinearOrder.lift' (fun k => toLex (k.first.toNat, k.second.memory)) fun a b h => by
    obtain ⟨hfirst, hsecond⟩ := Prod.mk.inj (toLex.injective h)
    obtain ⟨a₁, a₂⟩ := a
    obtain ⟨b₁, b₂⟩ := b
    rw [CollPobject.mk.injEq]
    exact ⟨UInt64.toNat_inj.mp hfirst, PObject.memory_injective hsecond⟩

/-- `pobject_t()`. -/
def PObject.init : PObject := ⟨0, 0, 0, 0, 0⟩

/-- `co_tab`. -/
abbrev CoTab := Table CollPobject Bool

/-- The loop of `collection_list`. -/
def listLoop (t : CoTab) (cid : Coll) : ℕ → Cursor CollPobject Bool → List PObject
  | 0, _ => []
  | fuel + 1, c =>
    match current c with
    | none => []
    | some item =>
      if item.1.first ≠ cid then []       -- end!
      else item.1.second :: if (t.moveRight c).1 < 0 then [] else listLoop t cid fuel (t.moveRight c).2

/-- `collection_list`, of a collection that exists. The loop sees each key once, and one place behind them. -/
def collectionList (t : CoTab) (cid : Coll) : List PObject :=
  if 0 ≤ (t.find ⟨cid, PObject.init⟩).1 then listLoop t cid (t.nkeys + 1) (t.find ⟨cid, PObject.init⟩).2 else []

/-! ### What it should list -/

/-- The objects of a collection, by the keys of the table. -/
def members (t : CoTab) (cid : Coll) : List PObject :=
  (t.keys.filter fun k => k.first = cid).map CollPobject.second

/-- What the loop takes for an object behind the last key. -/
def behindLast (t : CoTab) (cid : Coll) : List PObject :=
  match t.slotBehind with
  | some item => if item.1.first = cid then [item.1.second] else []
  | none => []

/-- If the collection has objects, then its first key is found, and the loop ends with its last one: another
collection comes behind it, or a slot that is not of this one. -/
def Listable (t : CoTab) (cid : Coll) : Prop :=
  members t cid ≠ [] → ¬ InGap t ⟨cid, PObject.init⟩ ∧
    ((∀ k ∈ t.keys.getLast?, k.first = cid) → behindLast t cid = [])

/-! ### The order of the keys -/

section order

variable {k k' : CollPobject} {cid : Coll}

theorem CollPobject.le_iff : k ≤ k' ↔
    k.first.toNat < k'.first.toNat ∨ k.first.toNat = k'.first.toNat ∧ k.second.memory ≤ k'.second.memory :=
  Prod.Lex.le_iff

theorem CollPobject.first_le (h : k ≤ k') : k.first.toNat ≤ k'.first.toNat := by
  rcases CollPobject.le_iff.mp h with h | h
  · exact h.le
  · exact h.1.le

theorem PObject.length_memory (o : PObject) : o.memory.length = 24 := by
  simp [PObject.memory, pobject, Wire.via, Wire.pair, Wire.raw]

theorem replicate_zero_le : ∀ l : List ℕ, replicate l.length 0 ≤ l
  | [] => le_rfl
  | a :: l => by
    rw [length_cons, replicate_succ]
    rcases eq_zero_or_pos a with rfl | ha
    · exact cons_le_cons 0 (replicate_zero_le l)
    · have hlt : 0 :: replicate l.length 0 < a :: l := .rel ha
      exact hlt.le

/-- No object name is less than `pobject_t()`. -/
theorem PObject.init_le (o : PObject) : PObject.init.memory ≤ o.memory := by
  have hinit : PObject.init.memory = replicate 24 0 := by decide
  rw [hinit, ← o.length_memory]
  exact replicate_zero_le _

theorem CollPobject.floor_le : (⟨cid, .init⟩ : CollPobject) ≤ k ↔ cid.toNat ≤ k.first.toNat := by
  refine ⟨CollPobject.first_le, fun h => CollPobject.le_iff.mpr ?_⟩
  rcases lt_or_eq_of_le h with h | h
  · exact .inl h
  · exact .inr ⟨h, k.second.init_le⟩

end order

/-! ### What it lists -/

section list

variable {t : CoTab} {cid : Coll} {fuel p : ℕ} {c : Cursor CollPobject Bool}
  {pre post : List (List (CollPobject × Bool))} {l : List (CollPobject × Bool)}

/-- The items of a collection at the head of a list, and whether the list has no others. -/
def listed (t : CoTab) (cid : Coll) (rest : List (CollPobject × Bool)) : List PObject :=
  ((rest.takeWhile fun a => a.1.first = cid).map fun a => a.1.second) ++
    if ∀ a ∈ rest, a.1.first = cid then behindLast t cid else []

theorem listed_cons_of_pos {a : CollPobject × Bool} (h : a.1.first = cid) (rest : List (CollPobject × Bool)) :
    listed t cid (a :: rest) = a.1.second :: listed t cid rest := by
  have hall : (∀ b ∈ a :: rest, b.1.first = cid) ↔ ∀ b ∈ rest, b.1.first = cid := by
    rw [forall_mem_cons]
    exact and_iff_right h
  have htake : (a :: rest).takeWhile (fun b => decide (b.1.first = cid)) =
      a :: rest.takeWhile fun b => decide (b.1.first = cid) := takeWhile_cons_of_pos (decide_eq_true h)
  rw [listed, listed, htake]
  simp only [hall, map_cons, cons_append]

theorem listed_cons_of_neg {a : CollPobject × Bool} (h : a.1.first ≠ cid) (rest : List (CollPobject × Bool)) :
    listed t cid (a :: rest) = [] := by
  have hall : ¬ ∀ b ∈ a :: rest, b.1.first = cid := fun hall => h (hall a mem_cons_self)
  rw [listed, takeWhile_cons_of_neg (by simpa using h), if_neg hall]
  rfl

theorem listLoop_behind (hwf : t.Wf) (h : At t.pool t.depth t.root c pre l [] p) (hp : p + 1 = l.length) :
    listLoop t cid (fuel + 1) (intoAddPosition c) = behindLast t cid := by
  have hshaped := hwf.shaped h.depth_ne_zero
  have hslot : current (intoAddPosition c) = t.slotBehind := by
    rw [Table.slotBehind, h.eq_descendRight hshaped hp]
  have hmove : t.moveRight (intoAddPosition c) = (-1, intoAddPosition c) := by
    rw [moveRight_last hshaped h.intoAddPosition (by omega), if_neg (by omega)]
  rw [listLoop, hslot, behindLast]
  cases t.slotBehind with
  | none => rfl
  | some item =>
    dsimp only
    rw [hmove]
    by_cases hc : item.1.first = cid
    · rw [if_neg (not_not.mpr hc), if_pos hc, if_pos (by simp)]
    · rw [if_pos hc, if_neg hc]

/-- **The loop** lists what there is of the collection, and at the end of the table the slot behind it. -/
theorem listLoop_eq (hwf : t.Wf) (h : At t.pool t.depth t.root c pre l post p) (hp : p < l.length)
    (hfuel : (l.drop p ++ post.flatten).length < fuel) :
    listLoop t cid fuel c = listed t cid (l.drop p ++ post.flatten) := by
  induction fuel generalizing c pre l post p with
  | zero => exact absurd hfuel (Nat.not_lt_zero _)
  | succ fuel ih =>
    rw [drop_eq_getElem_cons hp, cons_append, length_cons] at hfuel
    rw [listLoop, h.current_eq hp, drop_eq_getElem_cons hp, cons_append]
    dsimp only
    by_cases hc : l[p].1.first = cid
    · rw [if_neg (not_not.mpr hc), listed_cons_of_pos hc]
      refine congrArg _ ?_
      rcases Btree.moveRight_item hwf h hp with ⟨c', pre', l', post', p', hmove, hat, hp', hrest⟩ | ⟨hend, rfl, hstop⟩
      · rw [hrest] at hfuel ⊢
        rw [hmove, if_neg (by simp)]
        exact ih hat hp' (Nat.lt_of_succ_lt_succ hfuel)
      · obtain ⟨fuel, rfl⟩ := Nat.exists_eq_succ_of_ne_zero (show fuel ≠ 0 by omega)
        rw [hstop, if_neg (by simp), Nat.succ_eq_add_one, listLoop_behind hwf h (by omega),
          drop_eq_nil_of_le hend]
        simp [listed]
    · rw [if_pos hc, listed_cons_of_neg hc]

/-- Up to a place where a predicate ends for good, `takeWhile` is `filter`. -/
theorem takeWhile_eq_filter {α : Type} {q : α → Bool} :
    ∀ {rest : List α}, (rest.Pairwise fun a b => q b = true → q a = true) → rest.takeWhile q = rest.filter q
  | [], _ => rfl
  | a :: rest, h => by
    obtain ⟨hhead, htail⟩ := pairwise_cons.mp h
    by_cases hq : q a = true
    · rw [takeWhile_cons_of_pos hq, filter_cons_of_pos hq, takeWhile_eq_filter htail]
    · have hnone : (a :: rest).filter q = [] := filter_eq_nil_iff.mpr fun b hb => by
        rcases mem_cons.mp hb with rfl | hb
        · exact hq
        · exact fun hqb => hq (hhead b hb hqb)
      rw [takeWhile_cons_of_neg hq, hnone]

theorem mem_members {o : PObject} : o ∈ members t cid ↔ ⟨cid, o⟩ ∈ t.keys := by
  constructor
  · intro h
    obtain ⟨k, hk, rfl⟩ := mem_map.mp h
    obtain ⟨hmem, hfirst⟩ := mem_filter.mp hk
    obtain ⟨first, second⟩ := k
    obtain rfl : first = cid := of_decide_eq_true hfirst
    exact hmem
  · intro h
    exact mem_map.mpr ⟨⟨cid, o⟩, mem_filter.mpr ⟨h, decide_eq_true rfl⟩, rfl⟩

theorem nodup_members (hwf : t.Wf) : (members t cid).Nodup := by
  have hkeys : t.keys.Nodup := (pairwise_map.mpr hwf.sorted).imp fun h => h.ne
  refine List.Nodup.map_on ?_ (hkeys.filter _)
  intro a ha b hb heq
  obtain ⟨a1, a2⟩ := a
  obtain ⟨b1, b2⟩ := b
  have hfirst : a1 = cid := of_decide_eq_true (mem_filter.mp ha).2
  have hfirst' : b1 = cid := of_decide_eq_true (mem_filter.mp hb).2
  rw [hfirst, hfirst', show a2 = b2 from heq]

theorem collectionList_of_gap (hwf : t.Wf) (h : InGap t ⟨cid, .init⟩) : collectionList t cid = [] := by
  rw [collectionList, h.find_eq hwf, if_neg (by decide)]

/-- Outside the gaps, **the list** has the objects of the collection, and more only where the table ends
with them. -/
theorem collectionList_eq (hwf : t.Wf) (hgap : ¬ InGap t ⟨cid, .init⟩) :
    collectionList t cid = members t cid ++
      if members t cid ≠ [] ∧ ∀ k ∈ t.keys.getLast?, k.first = cid then behindLast t cid else [] := by
  obtain ⟨A, B, h⟩ := find_split hwf hgap
  have hmembers : members t cid = (B.filter fun a => a.1.first = cid).map fun a => a.1.second := by
    have hA : A.filter (fun a => decide (a.1.first = cid)) = [] := filter_eq_nil_iff.mpr fun a ha hcid => by
      have hge : (⟨cid, .init⟩ : CollPobject) ≤ a.1 :=
        CollPobject.floor_le.mpr (by rw [of_decide_eq_true hcid])
      exact absurd (h.below a ha) (not_lt.mpr hge)
    rw [members, Table.keys, filter_map, map_map, h.cut, filter_append]
    simp only [Function.comp_def, hA, nil_append]
  by_cases hne : B = []
  · subst hne
    have hneg : ¬ 0 ≤ Cursor.OOB := by decide
    have hnil : members t cid = [] := hmembers
    rw [collectionList, if_neg (by rw [h.result]; exact hneg), hnil, if_neg fun hc => hc.1 rfl]
    rfl
  · obtain ⟨pre, l, post, p, hat, hp, hrest⟩ := h.cursor hne
    have hsorted : B.Pairwise fun a b => a.1 < b.1 := (pairwise_append.mp (h.cut ▸ hwf.sorted)).2.1
    -- whatever is before an object of the collection is one itself
    have hdown : B.Pairwise fun a b => decide (b.1.first = cid) = true → decide (a.1.first = cid) = true := by
      refine List.Pairwise.imp_of_mem (fun {a b} ha _ hab hb => ?_) hsorted
      have hle := CollPobject.first_le hab.le
      rw [of_decide_eq_true hb] at hle
      exact decide_eq_true (UInt64.toNat_inj.mp (le_antisymm hle (CollPobject.floor_le.mp (h.above a ha))))
    have hlist : collectionList t cid = listed t cid B := by
      rw [collectionList, if_pos (h.nonneg hne), hrest]
      refine listLoop_eq hwf hat hp ?_
      rw [← hrest, hwf.count, Table.keys, h.cut, length_map, length_append]
      omega
    obtain ⟨B', b, hconcat⟩ := eq_nil_or_concat B |>.resolve_left hne
    rw [concat_eq_append] at hconcat
    have hlast : t.keys.getLast? = some b.1 := by
      rw [Table.keys, h.cut, hconcat, ← append_assoc, map_append, map_singleton, getLast?_concat]
    -- the list has no others if its last one is of the collection
    have hall : (members t cid ≠ [] ∧ ∀ k ∈ t.keys.getLast?, k.first = cid) ↔ ∀ a ∈ B, a.1.first = cid := by
      rw [hlast]
      constructor
      · rintro ⟨-, hb⟩ a ha
        rw [hconcat] at ha hdown
        rcases mem_append.mp ha with ha | ha
        · exact of_decide_eq_true ((pairwise_append.mp hdown).2.2 a ha b (mem_singleton.mpr rfl)
            (decide_eq_true (hb b.1 rfl)))
        · rw [mem_singleton.mp ha]
          exact hb b.1 rfl
      · intro hB
        have hb : b.1.first = cid := hB b (by rw [hconcat]; simp)
        refine ⟨fun hnil => ?_, fun k hk => ?_⟩
        · rw [hmembers, map_eq_nil_iff] at hnil
          exact filter_eq_nil_iff.mp hnil b (by rw [hconcat]; simp) (decide_eq_true hb)
        · obtain rfl : b.1 = k := Option.some.inj hk
          exact hb
    rw [hlist, listed, takeWhile_eq_filter hdown, ← hmembers]
    simp only [hall]

/-- **`collection_list` gives each object of the collection once and nothing else**, exactly if the collection
can be listed. -/
theorem collectionList_iff (hwf : t.Wf) :
    ((collectionList t cid).Nodup ∧ ∀ o, o ∈ collectionList t cid ↔ ⟨cid, o⟩ ∈ t.keys) ↔ Listable t cid := by
  constructor
  · rintro ⟨hnodup, hmem⟩ hne
    obtain ⟨o, ho⟩ := exists_mem_of_ne_nil _ hne
    have hgap : ¬ InGap t ⟨cid, .init⟩ := fun hgap => by
      have hlist := (hmem o).mpr (mem_members.mp ho)
      rw [collectionList_of_gap hwf hgap] at hlist
      nomatch hlist
    refine ⟨hgap, fun hlast => ?_⟩
    rw [collectionList_eq hwf hgap, if_pos ⟨hne, hlast⟩] at hnodup hmem
    refine eq_nil_iff_forall_not_mem.mpr fun x hx => ?_
    have hin : x ∈ members t cid := mem_members.mpr ((hmem x).mp (mem_append_right _ hx))
    exact (nodup_append.mp hnodup).2.2 x hin x hx rfl
  · intro h
    have hlist : collectionList t cid = members t cid := by
      by_cases hne : members t cid = []
      · by_cases hgap : InGap t ⟨cid, .init⟩
        · rw [collectionList_of_gap hwf hgap, hne]
        · rw [collectionList_eq hwf hgap, if_neg fun hc => hc.1 hne, append_nil]
      · obtain ⟨hgap, hlast⟩ := h hne
        rw [collectionList_eq hwf hgap]
        split
        · next hc => rw [hlast hc.2, append_nil]
        · rw [append_nil]
    rw [hlist]
    exact ⟨nodup_members hwf, fun o => mem_members⟩

end list

end Ebofs
end Ceph
