/-
# Collections and their objects

Which objects a collection has is stored twice: in the onode of each object, and in `co_tab`. The seven
operations that change it change both.

Two ways lead apart. An `insert` into `co_tab` is refused when there are few free nodes, and nobody looks at
its result. And `_destroy_collection` takes the objects from `collection_list`, which may list none of
them, or one that is not there any more. Apart from these, the two agree in every state of every run, and
then it is only the listing itself that can go wrong.

How `insert` and `remove` place the items in the nodes is left open: `Nodes` says that they put a key into the
table or take it out.
-/
import Ceph.Ebofs.CollectionList
import Ceph.Ebofs.SingleLeaf

namespace Ceph
namespace Ebofs
namespace Membership

open List Option Function
open Btree

/-! ### The code -/

/-- The free nodes, and the tables that `insert` and `remove` make of others. -/
structure Nodes where
  numFree : CoTab → ℕ
  insert : CoTab → CollPobject → CoTab
  remove : CoTab → CollPobject → CoTab
  insert_wf : ∀ {t k}, t.Wf → k ∉ t.keys → (insert t k).Wf
  mem_insert : ∀ {t k k'}, t.Wf → k ∉ t.keys → (k' ∈ (insert t k).keys ↔ k' = k ∨ k' ∈ t.keys)
  remove_wf : ∀ {t k}, t.Wf → k ∈ t.keys → (remove t k).Wf
  mem_remove : ∀ {t k k'}, t.Wf → k ∈ t.keys → (k' ∈ (remove t k).keys ↔ k' ≠ k ∧ k' ∈ t.keys)

variable (T : Nodes)

/-- `almost_full`. -/
def AlmostFull (t : CoTab) : Prop := T.numFree t < 2 * (t.depth + 1)

instance (t : CoTab) : Decidable (AlmostFull T t) := inferInstanceAs (Decidable (_ < _))

/-- `co_tab->insert`. -/
def tabInsert (t : CoTab) (k : CollPobject) : ℤ × CoTab := if AlmostFull T t then (-1, t) else (0, T.insert t k)

/-- `co_tab->remove`; `none`: `assert(0)`. -/
def tabRemove (t : CoTab) (k : CollPobject) : Option CoTab :=
  if AlmostFull T t then none else if (t.find k).1 ≤ 0 then none else some (T.remove t k)

/-- The collections of each onode, those that exist, and `co_tab`. -/
structure Store where
  onodes : PObject → Option (List Coll)     -- on->collections
  cnodes : Coll → Bool
  coTab : CoTab

/-- A new file system. -/
def Store.mkfs : Store :=
  ⟨fun _ => none, fun _ => false, ⟨fun _ => .leaf (fun _ => (⟨0, PObject.init⟩, false)) 0, 0, 0, 0⟩⟩

/-- `new_onode`, where there is none. -/
def newOnode (oid : PObject) (s : Store) : Store :=
  match s.onodes oid with
  | some _ => s
  | none => { s with onodes := Function.update s.onodes oid (some []) }

/-- `_create_collection`. -/
def createCollection (cid : Coll) (s : Store) : ℤ × Store :=
  if s.cnodes cid = true then (-EEXIST, s) else (0, { s with cnodes := Function.update s.cnodes cid true })

/-- `_collection_add`. -/
def collectionAdd (cid : Coll) (oid : PObject) (s : Store) : ℤ × Store :=
  if s.cnodes cid = false then (-ENOENT, s)
  else match s.onodes oid with
    | none => (-ENOENT, s)
    | some collections =>
      if cid ∈ collections then (-ENOENT, s)      -- already in collection
      else (0, { s with
        onodes := Function.update s.onodes oid (some (cid :: collections))
        coTab := (tabInsert T s.coTab ⟨cid, oid⟩).2 })

/-- `_collection_remove`. -/
def collectionRemove (cid : Coll) (oid : PObject) (s : Store) : Option (ℤ × Store) :=
  if s.cnodes cid = false then some (-ENOENT, s)
  else match s.onodes oid with
    | none => some (-ENOENT, s)
    | some collections =>
      if cid ∈ collections then
        (tabRemove T s.coTab ⟨cid, oid⟩).map fun t => (0, { s with
          onodes := Function.update s.onodes oid (some (collections.erase cid))
          coTab := t })
      else some (-ENOENT, s)

/-- `collection_list`. -/
def listCollection (cid : Coll) (s : Store) : ℤ × List PObject :=
  if s.cnodes cid = false then (-ENOENT, [])
  else ((collectionList s.coTab cid).length, collectionList s.coTab cid)

/-- The loop of `_destroy_collection`. -/
def hoseMappings (cid : Coll) : List PObject → Store → Option Store
  | [], s => some s
  | oid :: objects, s =>
    match tabRemove T s.coTab ⟨cid, oid⟩ with
    | none => none
    | some t =>
      match s.onodes oid with
      | none => hoseMappings cid objects { s with coTab := t }
      | some collections => hoseMappings cid objects { s with
          onodes := Function.update s.onodes oid (some (collections.erase cid))
          coTab := t }

/-- `_destroy_collection`. -/
def destroyCollection (cid : Coll) (s : Store) : Option (ℤ × Store) :=
  if s.cnodes cid = false then some (-ENOENT, s)
  else (hoseMappings T cid (listCollection cid s).2 s).map fun s =>
    (0, { s with cnodes := Function.update s.cnodes cid false })

/-- The collections of a clone are added one by one. -/
def addAll (oid : PObject) : List Coll → Store → Store
  | [], s => s
  | cid :: collections, s => addAll oid collections (collectionAdd T cid oid s).2

/-- `_clone`. -/
def clone (cloneable : Bool) (src dst : PObject) (s : Store) : ℤ × Store :=
  if cloneable = false then (-1, s)
  else match s.onodes src, s.onodes dst with
    | none, _ => (-ENOENT, s)
    | some _, some _ => (-EEXIST, s)
    | some collections, none => (0, addAll T dst collections (newOnode dst s))

/-- The keys of a removed object. -/
def removeKeys : List CollPobject → CoTab → Option CoTab
  | [], t => some t
  | k :: ks, t =>
    match tabRemove T t k with
    | none => none
    | some t => removeKeys ks t

/-- `_remove`, with `remove_onode`. -/
def remove (oid : PObject) (s : Store) : Option (ℤ × Store) :=
  match s.onodes oid with
  | none => some (-ENOENT, s)
  | some collections =>
    (removeKeys T (collections.map (⟨·, oid⟩)) s.coTab).map fun t =>
      (0, { s with onodes := Function.update s.onodes oid none, coTab := t })

/-- The operations. Objects are created by `_write` and others, by `new_onode`. -/
inductive Op
  | createCollection (cid : Coll)
  | destroyCollection (cid : Coll)
  | collectionAdd (cid : Coll) (oid : PObject)
  | collectionRemove (cid : Coll) (oid : PObject)
  | create (oid : PObject)
  | clone (cloneable : Bool) (src dst : PObject)
  | remove (oid : PObject)

/-- An operation; `none`: an assertion failed. -/
def exec : Op → Store → Option (ℤ × Store)
  | .createCollection cid, s => some (createCollection cid s)
  | .destroyCollection cid, s => destroyCollection T cid s
  | .collectionAdd cid oid, s => some (collectionAdd T cid oid s)
  | .collectionRemove cid oid, s => collectionRemove T cid oid s
  | .create oid, s => some (0, newOnode oid s)
  | .clone cloneable src dst, s => some (clone T cloneable src dst s)
  | .remove oid, s => remove T oid s

/-! ### Runs -/

/-- What is reached from a new file system by operations for which `C` holds. Each may find other
nodes free and lay out the nodes another way. -/
inductive Reached (C : Nodes → Op → Store → Prop) : Store → Prop
  | mkfs : Reached C .mkfs
  | exec {s s' : Store} {r : ℤ} (T : Nodes) (op : Op) :
      Reached C s → C T op s → exec T op s = some (r, s') → Reached C s'

/-- Membership is consistent. -/
structure Consistent (s : Store) : Prop where
  indexed : ∀ cid oid, ⟨cid, oid⟩ ∈ s.coTab.keys ↔ ∃ collections, s.onodes oid = some collections ∧ cid ∈ collections
  exist : ∀ oid collections, s.onodes oid = some collections → ∀ cid ∈ collections, s.cnodes cid = true
  listed : ∀ cid, (listCollection cid s).2.Nodup ∧ ∀ oid, oid ∈ (listCollection cid s).2 ↔ ⟨cid, oid⟩ ∈ s.coTab.keys

/-- The object is there and not yet in the collection, which is there too. -/
def Adds (cid : Coll) (oid : PObject) (s : Store) : Prop :=
  s.cnodes cid = true ∧ ∃ collections, s.onodes oid = some collections ∧ cid ∉ collections

/-- Where one is added, `co_tab` takes it. -/
def Room (oid : PObject) : List Coll → Store → Prop
  | [], _ => True
  | cid :: collections, s =>
    (Adds cid oid s → ¬ AlmostFull T s.coTab) ∧ Room oid collections (collectionAdd T cid oid s).2

/-- No insert is refused, and a collection that is destroyed can be listed. -/
def Clear : Op → Store → Prop
  | .destroyCollection cid, s => s.cnodes cid = true → Listable s.coTab cid
  | .collectionAdd cid oid, s => Room T oid [cid] s
  | .clone _ src dst, s => ∀ collections, s.onodes src = some collections → s.onodes dst = none →
      Room T dst collections (newOnode dst s)
  | _, _ => True

/-- The invariant: the two agree. -/
structure Agree (s : Store) : Prop where
  wf : s.coTab.Wf
  nodup : ∀ oid collections, s.onodes oid = some collections → collections.Nodup
  indexed : ∀ cid oid, ⟨cid, oid⟩ ∈ s.coTab.keys ↔ ∃ collections, s.onodes oid = some collections ∧ cid ∈ collections
  exist : ∀ oid collections, s.onodes oid = some collections → ∀ cid ∈ collections, s.cnodes cid = true

/-! ### Steps -/

section steps

variable {T} {s s' : Store} {t t' : CoTab} {cid : Coll} {oid : PObject} {k : CollPobject}

theorem tabRemove_spec (hwf : t.Wf) (h : tabRemove T t k = some t') :
    k ∈ t.keys ∧ t'.Wf ∧ ∀ k', k' ∈ t'.keys ↔ k' ≠ k ∧ k' ∈ t.keys := by
  unfold tabRemove at h
  split at h
  · nomatch h
  · split at h
    · nomatch h
    · next hfound =>
      have hgap : ¬ InGap t k := fun hgap => hfound (by
        rw [hgap.find_eq hwf]
        decide)
      obtain ⟨A, B, hsplit⟩ := find_split hwf hgap
      have hmatch : (t.find k).1 = Cursor.MATCH := by
        rw [hsplit.result] at hfound ⊢
        unfold resultAt at hfound ⊢
        split at hfound
        · exact absurd (by decide) hfound
        · split at hfound
          · next heq => rw [if_pos heq]
          · exact absurd (by decide) hfound
      have hk : k ∈ t.keys := (hsplit.findLaw hwf).on_key.mp hmatch
      cases h
      exact ⟨hk, T.remove_wf hwf hk, fun k' => T.mem_remove hwf hk⟩

section

variable (h : Agree s)
include h

theorem Agree.update (oid : PObject) {x : Option (List Coll)} (hwf : t'.Wf)
    (hnodup : ∀ collections, x = some collections → collections.Nodup)
    (hexist : ∀ collections, x = some collections → ∀ c ∈ collections, s.cnodes c = true)
    (hkeys : ∀ k, k ∈ t'.keys ↔
      if k.second = oid then ∃ collections, x = some collections ∧ k.first ∈ collections else k ∈ s.coTab.keys) :
    Agree { s with onodes := Function.update s.onodes oid x, coTab := t' } := by
  refine ⟨hwf, fun o cs (ho : Function.update s.onodes oid x o = some cs) => ?_, fun c o => ?_,
    fun o cs (ho : Function.update s.onodes oid x o = some cs) => ?_⟩
  · by_cases heq : o = oid
    · subst heq
      exact hnodup cs (by rwa [update_self] at ho)
    · exact h.nodup o cs (by rwa [update_of_ne heq] at ho)
  · rw [hkeys]
    by_cases heq : o = oid
    · subst heq
      rw [if_pos rfl]
      simp only [update_self]
    · rw [if_neg heq, h.indexed]
      simp only [update_of_ne heq]
  · by_cases heq : o = oid
    · subst heq
      exact hexist cs (by rwa [update_self] at ho)
    · exact h.exist o cs (by rwa [update_of_ne heq] at ho)

theorem newOnode_keeps (oid : PObject) : Agree (newOnode oid s) := by
  unfold newOnode
  split
  · exact h
  · next hnone =>
    refine h.update oid h.wf ?_ ?_ fun k => ?_
    · rintro cs hcs
      obtain rfl : [] = cs := some.inj hcs
      exact nodup_nil
    · rintro cs hcs
      obtain rfl : [] = cs := some.inj hcs
      exact nofun
    · split
      · next heq =>
        obtain ⟨c, o⟩ := k
        obtain rfl : o = oid := heq
        rw [h.indexed, hnone]
        simp
      · rfl

theorem collectionAdd_keeps (hroom : Adds cid oid s → ¬ AlmostFull T s.coTab) :
    Agree (collectionAdd T cid oid s).2 := by
  unfold collectionAdd
  split
  · exact h
  · next hc =>
    split
    · exact h
    · next cs hcs =>
      split
      · exact h
      · next hnew =>
        have hexists : s.cnodes cid = true := eq_true_of_ne_false hc
        have habsent : ⟨cid, oid⟩ ∉ s.coTab.keys := fun hk => by
          obtain ⟨cs', hcs', hmem⟩ := (h.indexed cid oid).mp hk
          obtain rfl : cs = cs' := some.inj (hcs.symm.trans hcs')
          exact hnew hmem
        have hins : (tabInsert T s.coTab ⟨cid, oid⟩).2 = T.insert s.coTab ⟨cid, oid⟩ := by
          rw [tabInsert, if_neg (hroom ⟨hexists, cs, hcs, hnew⟩)]
        rw [hins]
        refine h.update oid (T.insert_wf h.wf habsent) ?_ ?_ fun k => ?_
        · rintro cs' hcs'
          obtain rfl : cid :: cs = cs' := some.inj hcs'
          exact nodup_cons.mpr ⟨hnew, h.nodup oid cs hcs⟩
        · rintro cs' hcs'
          obtain rfl : cid :: cs = cs' := some.inj hcs'
          exact forall_mem_cons.mpr ⟨hexists, h.exist oid cs hcs⟩
        · rw [T.mem_insert h.wf habsent]
          obtain ⟨c, o⟩ := k
          by_cases heq : o = oid
          · subst heq
            rw [if_pos rfl, h.indexed, hcs]
            simp
          · rw [if_neg heq]
            simp [heq]

theorem erase_keeps {collections : List Coll} (hrem : tabRemove T s.coTab ⟨cid, oid⟩ = some t')
    (hcs : s.onodes oid = some collections) :
    Agree { s with onodes := Function.update s.onodes oid (some (collections.erase cid)), coTab := t' } := by
  obtain ⟨hk, hwf, hkeys⟩ := tabRemove_spec h.wf hrem
  have hnodup := h.nodup oid collections hcs
  refine h.update oid hwf ?_ ?_ fun k => ?_
  · rintro cs' hcs'
    cases hcs'
    exact hnodup.erase cid
  · rintro cs' hcs' c hc
    cases hcs'
    exact h.exist oid collections hcs c (mem_of_mem_erase hc)
  · obtain ⟨c, o⟩ := k
    rw [hkeys]
    by_cases heq : o = oid
    · subst heq
      rw [if_pos rfl, h.indexed, hcs]
      simp [hnodup.mem_erase_iff]
    · rw [if_neg heq]
      simp [heq]

theorem collectionRemove_keeps {r : ℤ} (hrem : collectionRemove T cid oid s = some (r, s')) : Agree s' := by
  unfold collectionRemove at hrem
  split at hrem
  · cases hrem
    exact h
  · split at hrem
    · cases hrem
      exact h
    · next cs hcs =>
      split at hrem
      · obtain ⟨t, ht, ⟨⟩⟩ := map_eq_some_iff.mp hrem
        exact erase_keeps h ht hcs
      · cases hrem
        exact h

/-- **The loop of `_destroy_collection`** takes the objects it is given out of the collection. -/
theorem hoseMappings_spec {objects : List PObject} (hhose : hoseMappings T cid objects s = some s') :
    Agree s' ∧ s'.cnodes = s.cnodes ∧ ∀ k ∈ s'.coTab.keys, k ∈ s.coTab.keys ∧ ¬ (k.first = cid ∧ k.second ∈ objects) := by
  induction objects generalizing s with
  | nil =>
    cases hhose
    exact ⟨h, rfl, fun k hk => ⟨hk, fun hc => nomatch hc.2⟩⟩
  | cons o objects ih =>
    rw [hoseMappings] at hhose
    split at hhose
    · nomatch hhose
    · next t ht =>
      obtain ⟨hk, -, hkeys⟩ := tabRemove_spec h.wf ht
      obtain ⟨cs, hcs, -⟩ := (h.indexed cid o).mp hk
      rw [hcs] at hhose
      obtain ⟨hagree, hcnodes, hrest⟩ := ih (erase_keeps h ht hcs) hhose
      refine ⟨hagree, hcnodes, fun k hk => ?_⟩
      obtain ⟨hin, hnot⟩ := hrest k hk
      obtain ⟨hne, hin⟩ := (hkeys k).mp hin
      refine ⟨hin, ?_⟩
      rintro ⟨hfirst, hsecond⟩
      rcases mem_cons.mp hsecond with hsecond | hsecond
      · obtain ⟨c, x⟩ := k
        exact hne (by rw [show c = cid from hfirst, show x = o from hsecond])
      · exact hnot ⟨hfirst, hsecond⟩

theorem destroyCollection_keeps {r : ℤ} (hlist : s.cnodes cid = true → Listable s.coTab cid)
    (hdestroy : destroyCollection T cid s = some (r, s')) : Agree s' := by
  unfold destroyCollection at hdestroy
  split at hdestroy
  · cases hdestroy
    exact h
  · next hc =>
    obtain ⟨u, hu, ⟨⟩⟩ := map_eq_some_iff.mp hdestroy
    obtain ⟨hagree, hcnodes, hkeys⟩ := hoseMappings_spec h hu
    -- the list was complete, so that no object is left in the collection
    have hnone : ∀ o, ⟨cid, o⟩ ∉ u.coTab.keys := fun o ho => by
      obtain ⟨hin, hnot⟩ := hkeys _ ho
      refine hnot ⟨rfl, ?_⟩
      rw [listCollection, if_neg hc]
      exact (((collectionList_iff h.wf).mpr (hlist (eq_true_of_ne_false hc))).2 o).mpr hin
    refine ⟨hagree.wf, hagree.nodup, hagree.indexed, fun o cs ho c hmem => ?_⟩
    have hne : c ≠ cid := fun heq => hnone o ((hagree.indexed cid o).mpr ⟨cs, ho, heq ▸ hmem⟩)
    dsimp only
    rw [update_of_ne hne]
    exact hagree.exist o cs ho c hmem

theorem addAll_keeps {collections : List Coll} (hroom : Room T oid collections s) :
    Agree (addAll T oid collections s) := by
  induction collections generalizing s with
  | nil => exact h
  | cons c collections ih => exact ih (collectionAdd_keeps h hroom.1) hroom.2

theorem clone_keeps {cloneable : Bool} {src dst : PObject}
    (hroom : Clear T (.clone cloneable src dst) s) : Agree (clone T cloneable src dst s).2 := by
  unfold clone
  split
  · exact h
  · split
    · exact h
    · exact h
    · next cs hsrc hdst => exact addAll_keeps (newOnode_keeps h dst) (hroom cs hsrc hdst)

end

theorem removeKeys_spec {ks : List CollPobject} (hwf : t.Wf) (h : removeKeys T ks t = some t') :
    t'.Wf ∧ ∀ k, k ∈ t'.keys ↔ k ∉ ks ∧ k ∈ t.keys := by
  induction ks generalizing t with
  | nil =>
    cases h
    exact ⟨hwf, fun k => by simp⟩
  | cons k ks ih =>
    rw [removeKeys] at h
    split at h
    · nomatch h
    · next u hu =>
      obtain ⟨-, hwf', hkeys⟩ := tabRemove_spec hwf hu
      obtain ⟨hwf'', hrest⟩ := ih hwf' h
      refine ⟨hwf'', fun k' => ?_⟩
      rw [hrest, hkeys, mem_cons, not_or]
      exact ⟨fun ⟨h1, h2, h3⟩ => ⟨⟨h2, h1⟩, h3⟩, fun ⟨⟨h1, h2⟩, h3⟩ => ⟨h2, h1, h3⟩⟩

theorem remove_keeps {r : ℤ} (h : Agree s) (hrem : remove T oid s = some (r, s')) : Agree s' := by
  unfold remove at hrem
  split at hrem
  · cases hrem
    exact h
  · next cs hcs =>
    obtain ⟨t, ht, ⟨⟩⟩ := map_eq_some_iff.mp hrem
    obtain ⟨hwf, hkeys⟩ := removeKeys_spec h.wf ht
    refine h.update oid hwf nofun nofun fun k => ?_
    obtain ⟨c, o⟩ := k
    rw [hkeys, h.indexed]
    by_cases heq : o = oid
    · subst heq
      rw [if_pos rfl, hcs]
      simp
    · rw [if_neg heq]
      refine and_iff_right fun hmem => ?_
      obtain ⟨c', -, hk⟩ := List.mem_map.mp hmem
      exact heq (CollPobject.mk.inj hk).2.symm

theorem createCollection_keeps (h : Agree s) : Agree (createCollection cid s).2 := by
  unfold createCollection
  split
  · exact h
  · refine ⟨h.wf, h.nodup, h.indexed, fun o cs ho c hc => ?_⟩
    dsimp only
    by_cases heq : c = cid
    · rw [heq, update_self]
    · rw [update_of_ne heq]
      exact h.exist o cs ho c hc

/-- **One operation** keeps the two in agreement. -/
theorem exec_keeps {op : Op} {r : ℤ} (h : Agree s) (hclear : Clear T op s) (hexec : exec T op s = some (r, s')) :
    Agree s' := by
  cases op with
  | createCollection cid =>
    obtain rfl : (createCollection cid s).2 = s' := congrArg Prod.snd (some.inj hexec)
    exact createCollection_keeps h
  | destroyCollection cid => exact destroyCollection_keeps h hclear hexec
  | collectionAdd cid oid =>
    obtain rfl : (collectionAdd T cid oid s).2 = s' := congrArg Prod.snd (some.inj hexec)
    exact collectionAdd_keeps h hclear.1
  | collectionRemove cid oid => exact collectionRemove_keeps h hexec
  | create oid =>
    obtain rfl : newOnode oid s = s' := congrArg Prod.snd (some.inj hexec)
    exact newOnode_keeps h oid
  | clone cloneable src dst =>
    obtain rfl : (clone T cloneable src dst s).2 = s' := congrArg Prod.snd (some.inj hexec)
    exact clone_keeps h hclear
  | remove oid => exact remove_keeps h hexec

theorem mkfs_agree : Agree .mkfs := by
  refine ⟨⟨fun h => absurd rfl h, nofun, .nil, rfl⟩, nofun, fun c o => ?_, nofun⟩
  exact ⟨nofun, fun ⟨_, h, _⟩ => nomatch h⟩

/-- **A run** without refused inserts and bad listings. -/
theorem Reached.agree (h : Reached Clear s) : Agree s := by
  induction h with
  | mkfs => exact mkfs_agree
  | exec T op _ hclear hexec ih => exact exec_keeps ih hclear hexec

theorem Agree.consistent_iff (h : Agree s) :
    Consistent s ↔ ∀ cid, s.cnodes cid = true → Listable s.coTab cid := by
  constructor
  · intro hcons cid hc
    have hlisted := hcons.listed cid
    rw [listCollection, if_neg (by rw [hc]; exact Bool.noConfusion)] at hlisted
    exact (collectionList_iff h.wf).mp hlisted
  · intro hlist
    refine ⟨h.indexed, h.exist, fun cid => ?_⟩
    by_cases hc : s.cnodes cid = false
    · rw [listCollection, if_pos hc]
      refine ⟨nodup_nil, fun o => ⟨nofun, fun ho => ?_⟩⟩
      obtain ⟨cs, hcs, hmem⟩ := (h.indexed cid o).mp ho
      rw [h.exist o cs hcs cid hmem] at hc
      nomatch hc
    · rw [listCollection, if_neg hc]
      exact (collectionList_iff h.wf).mpr (hlist cid (eq_true_of_ne_false hc))

end steps

/-! ### A table of one leaf -/

/-- Enough free nodes, and all keys in one leaf. The array of a new node is zeros. -/
def leafNodes : Nodes where
  numFree _ := 1000
  insert t k := t.insertLeaf (⟨0, PObject.init⟩, false) k true
  remove t k := t.removeLeaf (⟨0, PObject.init⟩, false) k
  insert_wf := insertLeaf_wf
  mem_insert := fun hwf _ => mem_insertLeaf hwf
  remove_wf := fun hwf _ => removeLeaf_wf hwf
  mem_remove := mem_removeLeaf

def objectA : PObject := ⟨0, 0, 1, 0, 0⟩

def objectB : PObject := ⟨0, 0, 2, 0, 0⟩

/-- The object A in the collection 1. -/
def oneMember : Store :=
  (collectionAdd leafNodes 1 objectA (newOnode objectA (createCollection 1 .mkfs).2)).2

theorem oneMember_reached : Reached Clear oneMember := by
  have h0 : Reached Clear (createCollection 1 .mkfs).2 :=
    .exec leafNodes (.createCollection 1) .mkfs trivial rfl
  have h1 : Reached Clear (newOnode objectA (createCollection 1 .mkfs).2) :=
    .exec leafNodes (.create objectA) h0 trivial rfl
  exact .exec leafNodes (.collectionAdd 1 objectA) h1 ⟨fun _ => by decide, trivial⟩ rfl

theorem oneMember_listable : Listable oneMember.coTab 1 := by
  have hleaves : oneMember.coTab.leaves = [[(⟨1, objectA⟩, true)]] := rfl
  have hbehind : behindLast oneMember.coTab 1 = [] := by decide +kernel
  refine fun _ => ⟨?_, fun _ => hbehind⟩
  rintro ⟨ls, ls', hls, hls', hcut, -⟩
  rcases append_eq_singleton_iff.mp hcut.symm with ⟨h, -⟩ | ⟨-, h⟩
  · exact hls h
  · exact hls' h

/-- **Membership is consistent** in every state of a run without refused inserts, and without the destruction
of collections that cannot be listed, exactly if all collections can be listed. -/
theorem membership_consistent (s : Store) (h : Reached Clear s) :
    Consistent s ↔ ∀ cid, s.cnodes cid = true → Listable s.coTab cid :=
  h.agree.consistent_iff

/-- Both say that A is in the collection 1, and it is listed. -/
theorem membership_consistent_one : Consistent oneMember := by
  refine (membership_consistent oneMember oneMember_reached).mpr fun cid hcid => ?_
  by_cases hone : cid = 1
  · rw [hone]
    exact oneMember_listable
  · have hnone : oneMember.cnodes cid = false := update_of_ne hone _ _
    rw [hnone] at hcid
    nomatch hcid

/-- Some operations. -/
def execAll : List Op → Store → Option Store
  | [], s => some s
  | op :: ops, s => (exec leafNodes op s).bind fun r => execAll ops r.2

theorem Reached.execAll {C : Nodes → Op → Store → Prop} (hC : ∀ T op s, C T op s) {ops : List Op} {s s' : Store}
    (h : Reached C s) (hall : execAll ops s = some s') : Reached C s' := by
  induction ops generalizing s with
  | nil =>
    cases hall
    exact h
  | cons op ops ih =>
    obtain ⟨r, hr, hrest⟩ := bind_eq_some_iff.mp hall
    exact ih (.exec leafNodes op h (hC _ _ _) hr) hrest

/-- A and B are in the collection 1, and A leaves it. In the leaf B moves to the front and also stays where it was. -/
def leave : List Op :=
  [.createCollection 1, .create objectA, .create objectB, .collectionAdd 1 objectA, .collectionAdd 1 objectB,
    .collectionRemove 1 objectA]

/-- Then **B is listed twice**. -/
theorem member_listed_twice : ∃ s, Reached (fun _ _ _ => True) s ∧ listCollection 1 s = (2, [objectB, objectB]) ∧
    ¬ Consistent s := by
  have hlist : (execAll leave .mkfs).map (listCollection 1) = some (2, [objectB, objectB]) := by decide +kernel
  obtain ⟨s, hs, hls⟩ := map_eq_some_iff.mp hlist
  refine ⟨s, Reached.execAll (fun _ _ _ => trivial) .mkfs hs, hls, fun hcons => ?_⟩
  have hnodup := (hcons.listed 1).1
  rw [hls] at hnodup
  exact absurd hnodup (by decide)

end Membership
end Ebofs
end Ceph
