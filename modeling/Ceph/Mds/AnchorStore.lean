/-
# The anchor table on disk

`AnchorTable::save` writes the whole table at the start of an object, and
`_loaded` reads it back from the whole object: the version, the anchors, and the
four maps of what is pending. What an earlier save has left behind the end of the
last one is not cut off, and `_loaded` asserts that nothing is left.
-/
import Ceph.Lib.Wire
import Ceph.Mds.AnchorTable
import Mathlib.Algebra.Order.BigOperators.Group.List

namespace Ceph
namespace Anchors

open List
open Wire

/-! ### The encoding -/

/-- What is saved of a table: the anchors in the order the hash map goes through them, and the pending operations in the
order of their numbers. -/
structure Image where
  version : ℕ
  anchorMap : List Anchor
  pendingReqmds : List (ℕ × ℕ)
  pendingCreate : List (ℕ × ℕ)
  pendingDestroy : List (ℕ × ℕ)
  pendingUpdate : List (ℕ × (ℕ × List Anchor))
deriving DecidableEq

/-- `Anchor::_encode`: the inode, the dirfrag with its padding, and the count. -/
def anchor : Codec Anchor :=
  via (pair (raw 8) (pair (raw 8) (pair (raw 4) (pair (raw 4) (signed 4)))))
    (fun a => (a.ino, a.dirfrag.ino, a.dirfrag.frag, 0, a.nref)) fun p => ⟨p.1, ⟨p.2.1, p.2.2.1⟩, p.2.2.2.2⟩

/-- An anchor in a vector is written as it lies in memory, with the padding behind it. -/
def rawAnchor : Codec Anchor := via (pair anchor (raw 4)) (fun a => (a, 0)) Prod.fst

/-- A pending operation: its number, the inode, and the trace. -/
def pendingOp : Codec (ℕ × (ℕ × List Anchor)) := pair (raw 8) (pair (raw 8) (list rawAnchor))

/-- What `save` builds up and `_loaded` takes apart. -/
def image : Codec Image :=
  via (pair (raw 8) (pair (listOf 8 anchor) (pair (list (pair (raw 8) (raw 4))) (pair (list (pair (raw 8) (raw 8)))
      (pair (list (pair (raw 8) (raw 8))) (listOf 8 pendingOp))))))
    (fun i => (i.version, i.anchorMap, i.pendingReqmds, i.pendingCreate, i.pendingDestroy, i.pendingUpdate))
    fun p => ⟨p.1, p.2.1, p.2.2.1, p.2.2.2.1, p.2.2.2.2.1, p.2.2.2.2.2⟩

/-- A map that is read in: each entry in turn. -/
def entered {α : Type} (l : List (ℕ × α)) : ℕ → Option α :=
  l.foldl (fun m p => Function.update m p.1 (some p.2)) fun _ => none

/-- The table an image stands for: each anchor and each operation is entered in turn. -/
def Image.table (i : Image) : Table where
  anchorMap := i.anchorMap.foldl (fun m a => m.insert a.ino a) ∅
  pendingReqmds := entered i.pendingReqmds
  pendingCreate := entered i.pendingCreate
  pendingDestroy := entered i.pendingDestroy
  pendingUpdate := entered i.pendingUpdate
  version := i.version

/-! ### Saving and loading -/

/-- The object, and the version that is being committed. -/
structure Disk where
  object : Bytes
  committingVersion : ℕ

/-- A write at the start of an object. -/
def overwrite (object bytes : Bytes) : Bytes := bytes ++ object.drop bytes.length

/-- `save`, of a table that is open. -/
def save (d : Disk) (i : Image) : Disk :=
  if d.committingVersion = i.version then d else ⟨overwrite d.object (image.enc i), i.version⟩

/-- `load` and `_loaded`, with `assert(off == (int)bl.length())` at the end. -/
def load (d : Disk) : Option Table :=
  (image.dec d.object).bind fun p => if p.2 = [] then some p.1.table else none

/-- An object that is not there, and a table that has not been saved. -/
def fresh : Disk := ⟨[], 0⟩

/-! ### What fits its fields -/

def Anchor.Fits (a : Anchor) : Prop :=
  a.ino < 2 ^ 64 ∧ a.dirfrag.ino < 2 ^ 64 ∧ a.dirfrag.frag < 2 ^ 32 ∧ -2 ^ 31 ≤ a.nref ∧ a.nref < 2 ^ 31

instance (a : Anchor) : Decidable a.Fits := inferInstanceAs (Decidable (_ ∧ _))

/-- The bytes of an image. -/
def Image.size (i : Image) : ℕ :=
  8 + (8 + 28 * i.anchorMap.length) + (4 + 12 * i.pendingReqmds.length) + (4 + 16 * i.pendingCreate.length) +
    (4 + 16 * i.pendingDestroy.length) + (8 + (i.pendingUpdate.map fun p => 20 + 32 * p.2.2.length).sum)

/-- The numbers of an image fit their fields, and its bytes are counted by an `int`. -/
def Image.Fits (i : Image) : Prop :=
  (0 < i.version ∧ i.version < 2 ^ 64) ∧ (∀ a ∈ i.anchorMap, a.Fits) ∧
    (∀ p ∈ i.pendingReqmds, p.1 < 2 ^ 64 ∧ p.2 < 2 ^ 31) ∧ (∀ p ∈ i.pendingCreate, p.1 < 2 ^ 64 ∧ p.2 < 2 ^ 64) ∧
    (∀ p ∈ i.pendingDestroy, p.1 < 2 ^ 64 ∧ p.2 < 2 ^ 64) ∧
    (∀ p ∈ i.pendingUpdate, p.1 < 2 ^ 64 ∧ p.2.1 < 2 ^ 64 ∧ ∀ a ∈ p.2.2, a.Fits) ∧ i.size < 2 ^ 31

instance (i : Image) : Decidable i.Fits := inferInstanceAs (Decidable (_ ∧ _))

/-- What the image of a table is: its entries, each once. -/
structure Image.Of (i : Image) (t : Table) : Prop where
  version : i.version = t.version
  anchors : (i.anchorMap.map Anchor.ino).Nodup
  anchor : ∀ ino a, t.anchorMap.lookup ino = some a ↔ a ∈ i.anchorMap ∧ a.ino = ino
  reqmds : (i.pendingReqmds.map Prod.fst).Nodup
  reqmd : ∀ atid mds, t.pendingReqmds atid = some mds ↔ (atid, mds) ∈ i.pendingReqmds
  creates : (i.pendingCreate.map Prod.fst).Nodup
  create : ∀ atid ino, t.pendingCreate atid = some ino ↔ (atid, ino) ∈ i.pendingCreate
  destroys : (i.pendingDestroy.map Prod.fst).Nodup
  destroy : ∀ atid ino, t.pendingDestroy atid = some ino ↔ (atid, ino) ∈ i.pendingDestroy
  updates : (i.pendingUpdate.map Prod.fst).Nodup
  update : ∀ atid op, t.pendingUpdate atid = some op ↔ (atid, op) ∈ i.pendingUpdate

/-! ### What is read back -/

section entered

variable {α : Type}

theorem foldl_update : ∀ (l : List (ℕ × α)) (m : ℕ → Option α), (l.map Prod.fst).Nodup → ∀ k v,
    (l.foldl (fun m p => Function.update m p.1 (some p.2)) m : ℕ → Option α) k = some v ↔
      (k, v) ∈ l ∨ (k ∉ l.map Prod.fst ∧ m k = some v)
  | [], m, _, k, v => by simp
  | p :: l, m, hnodup, k, v => by
    rw [map_cons, nodup_cons] at hnodup
    rw [foldl_cons, foldl_update l _ hnodup.2, map_cons, mem_cons, mem_cons, not_or, Prod.ext_iff]
    by_cases hk : k = p.1
    · subst hk
      have hnot : (p.1, v) ∉ l := fun h => hnodup.1 (mem_map.mpr ⟨_, h, rfl⟩)
      simp [hnot, hnodup.1, eq_comm]
    · simp [hk]

theorem mem_entered {l : List (ℕ × α)} (hnodup : (l.map Prod.fst).Nodup) (k : ℕ) (v : α) :
    entered l k = some v ↔ (k, v) ∈ l := by
  rw [entered, foldl_update l _ hnodup]
  simp

theorem entered_eq {l : List (ℕ × α)} {m : ℕ → Option α} (hnodup : (l.map Prod.fst).Nodup)
    (hm : ∀ k v, m k = some v ↔ (k, v) ∈ l) : entered l = m := by
  funext k
  apply Option.ext
  intro v
  rw [mem_entered hnodup, hm]

end entered

theorem foldl_insert : ∀ (l : List Anchor) (m : AnchorMap), (l.map Anchor.ino).Nodup → ∀ ino a,
    (l.foldl (fun m a => m.insert a.ino a) m).lookup ino = some a ↔
      (a ∈ l ∧ a.ino = ino) ∨ (ino ∉ l.map Anchor.ino ∧ m.lookup ino = some a)
  | [], m, _, ino, a => by simp
  | b :: l, m, hnodup, ino, a => by
    rw [map_cons, nodup_cons] at hnodup
    rw [foldl_cons, foldl_insert l _ hnodup.2, map_cons, mem_cons, mem_cons, not_or]
    by_cases hino : ino = b.ino
    · subst hino
      have hnot : ¬ (a ∈ l ∧ a.ino = b.ino) := fun h => hnodup.1 (h.2 ▸ mem_map_of_mem h.1)
      rw [Finmap.lookup_insert]
      constructor
      · rintro (h | ⟨-, h⟩)
        · exact absurd h hnot
        · cases h
          exact .inl ⟨.inl rfl, rfl⟩
      · rintro (⟨rfl | h, hab⟩ | ⟨⟨h, -⟩, -⟩)
        · exact .inr ⟨hnodup.1, rfl⟩
        · exact absurd ⟨h, hab⟩ hnot
        · exact absurd rfl h
    · rw [Finmap.lookup_insert_of_ne m hino]
      constructor
      · rintro (⟨h, hab⟩ | ⟨h, hm⟩)
        · exact .inl ⟨.inr h, hab⟩
        · exact .inr ⟨⟨hino, h⟩, hm⟩
      · rintro (⟨rfl | h, hab⟩ | ⟨⟨-, h⟩, hm⟩)
        · exact absurd hab.symm hino
        · exact .inl ⟨h, hab⟩
        · exact .inr ⟨h, hm⟩

theorem Image.Of.table_eq {i : Image} {t : Table} (h : i.Of t) : i.table = t := by
  have hanchors : i.anchorMap.foldl (fun m a => m.insert a.ino a) ∅ = t.anchorMap := by
    apply Finmap.ext_lookup
    intro ino
    apply Option.ext
    intro a
    rw [foldl_insert _ _ h.anchors, h.anchor]
    simp
  have hreqmds := entered_eq h.reqmds h.reqmd
  have hcreates := entered_eq h.creates h.create
  have hdestroys := entered_eq h.destroys h.destroy
  have hupdates := entered_eq h.updates h.update
  rw [Image.table, hanchors, hreqmds, hcreates, hdestroys, hupdates, h.version]

theorem Image.of_table {i : Image} (ha : (i.anchorMap.map Anchor.ino).Nodup) (hr : (i.pendingReqmds.map Prod.fst).Nodup)
    (hc : (i.pendingCreate.map Prod.fst).Nodup) (hd : (i.pendingDestroy.map Prod.fst).Nodup)
    (hu : (i.pendingUpdate.map Prod.fst).Nodup) : i.Of i.table where
  version := rfl
  anchors := ha
  anchor ino a := by
    rw [Image.table, foldl_insert _ _ ha]
    simp
  reqmds := hr
  reqmd := mem_entered hr
  creates := hc
  create := mem_entered hc
  destroys := hd
  destroy := mem_entered hd
  updates := hu
  update := mem_entered hu

theorem reads_anchor {a : Anchor} (h : a.Fits) : anchor.Reads a := by
  obtain ⟨hino, hdir, hfrag, hlow, hhigh⟩ := h
  refine Codec.Reads.via (Codec.Reads.pair (reads_raw hino) (Codec.Reads.pair (reads_raw hdir)
    (Codec.Reads.pair (reads_raw hfrag) (Codec.Reads.pair (reads_raw (by decide)) (reads_signed ?_ ?_))))) rfl
  · norm_num at hlow ⊢
    linarith
  · norm_num at hhigh ⊢
    linarith

theorem reads_rawAnchor {a : Anchor} (h : a.Fits) : rawAnchor.Reads a :=
  Codec.Reads.via (Codec.Reads.pair (reads_anchor h) (reads_raw (by decide))) rfl

theorem Image.lengths_lt {i : Image} (h : i.size < 2 ^ 31) : i.anchorMap.length < 256 ^ 8 ∧
    i.pendingReqmds.length < 256 ^ 4 ∧ i.pendingCreate.length < 256 ^ 4 ∧ i.pendingDestroy.length < 256 ^ 4 ∧
    i.pendingUpdate.length < 256 ^ 8 ∧ ∀ p ∈ i.pendingUpdate, p.2.2.length < 256 ^ 4 := by
  unfold Image.size at h
  have hcount : ∀ l : List (ℕ × (ℕ × List Anchor)), l.length ≤ (l.map fun p => 20 + 32 * p.2.2.length).sum := by
    intro l
    induction l with
    | nil => exact le_rfl
    | cons p l ih =>
      rw [map_cons, sum_cons, length_cons]
      omega
  have hop : ∀ p ∈ i.pendingUpdate, 20 + 32 * p.2.2.length ≤ (i.pendingUpdate.map fun p => 20 + 32 * p.2.2.length).sum :=
    fun p hp => le_sum_of_mem (mem_map.mpr ⟨p, hp, rfl⟩)
  have hall := hcount i.pendingUpdate
  refine ⟨by omega, by omega, by omega, by omega, by omega, fun p hp => ?_⟩
  have hp' := hop p hp
  omega

/-- **An image is read back**, whatever follows it. -/
theorem reads_image {i : Image} (h : i.Fits) : image.Reads i := by
  obtain ⟨⟨-, hversion⟩, hanchors, hreqmds, hcreates, hdestroys, hupdates, hsize⟩ := h
  obtain ⟨ha, hr, hc, hd, hu, ht⟩ := Image.lengths_lt hsize
  have h31 : ∀ {n : ℕ}, n < 2 ^ 31 → n < 256 ^ 4 := fun hn => hn.trans (by decide)
  refine Codec.Reads.via (Codec.Reads.pair (reads_raw hversion) (Codec.Reads.pair (reads_listOf ha fun a h => ?_)
    (Codec.Reads.pair (reads_list hr fun p h => ?_) (Codec.Reads.pair (reads_list hc fun p h => ?_)
      (Codec.Reads.pair (reads_list hd fun p h => ?_) (reads_listOf hu fun p h => ?_)))))) rfl
  · exact reads_anchor (hanchors a h)
  · exact Codec.Reads.pair (reads_raw (hreqmds p h).1) (reads_raw (h31 (hreqmds p h).2))
  · exact Codec.Reads.pair (reads_raw (hcreates p h).1) (reads_raw (hcreates p h).2)
  · exact Codec.Reads.pair (reads_raw (hdestroys p h).1) (reads_raw (hdestroys p h).2)
  · exact Codec.Reads.pair (reads_raw (hupdates p h).1) (Codec.Reads.pair (reads_raw (hupdates p h).2.1)
      (reads_list (ht p h) fun a ha => reads_rawAnchor ((hupdates p h).2.2 a ha)))

theorem length_enc_anchor (a : Anchor) : (anchor.enc a).length = 28 := by
  simp [anchor, via, pair, raw, signed]

/-- An image takes as many bytes as are counted. -/
theorem length_enc_image (i : Image) : (image.enc i).length = i.size := by
  have hraw : ∀ a : Anchor, (rawAnchor.enc a).length = 32 := by
    intro a
    have ha := length_enc_anchor a
    simp [rawAnchor, via, pair, raw, ha]
  have hnum : ∀ p : ℕ × ℕ, ((pair (raw 8) (raw 8)).enc p).length = 16 := fun p => by simp [pair, raw]
  have hmds : ∀ p : ℕ × ℕ, ((pair (raw 8) (raw 4)).enc p).length = 12 := fun p => by simp [pair, raw]
  have hop : ∀ p : ℕ × (ℕ × List Anchor), (pendingOp.enc p).length = 20 + 32 * p.2.2.length := by
    intro p
    have hflat := length_flatMap_enc hraw p.2.2
    simp only [pendingOp, pair, raw, list, length_append, length_le, hflat]
    ring
  have hanchors := length_flatMap_enc length_enc_anchor i.anchorMap
  have hreqmds := length_flatMap_enc hmds i.pendingReqmds
  have hcreates := length_flatMap_enc hnum i.pendingCreate
  have hdestroys := length_flatMap_enc hnum i.pendingDestroy
  have hupdates : (i.pendingUpdate.flatMap pendingOp.enc).length = (i.pendingUpdate.map fun p => 20 + 32 * p.2.2.length).sum := by
    rw [length_flatMap]
    simp only [hop]
  rw [Image.size]
  change (le 8 i.version ++ ((le 8 i.anchorMap.length ++ i.anchorMap.flatMap anchor.enc) ++
    ((le 4 i.pendingReqmds.length ++ i.pendingReqmds.flatMap (pair (raw 8) (raw 4)).enc) ++
    ((le 4 i.pendingCreate.length ++ i.pendingCreate.flatMap (pair (raw 8) (raw 8)).enc) ++
    ((le 4 i.pendingDestroy.length ++ i.pendingDestroy.flatMap (pair (raw 8) (raw 8)).enc) ++
    (le 8 i.pendingUpdate.length ++ i.pendingUpdate.flatMap pendingOp.enc)))))).length = _
  simp only [length_append, length_le, hanchors, hreqmds, hcreates, hdestroys, hupdates]
  ring

/-! ### One save after the other -/

theorem overwrite_length (object bytes : Bytes) : (overwrite object bytes).length = max bytes.length object.length := by
  rw [overwrite, length_append, length_drop]
  omega

/-- The object begins with the last image, and is as long as the longest. -/
structure Holds (d : Disk) (saves : List Image) (i : Image) : Prop where
  committing : d.committingVersion = i.version
  head : ∃ rest, d.object = image.enc i ++ rest
  upper : ∀ j ∈ saves ++ [i], j.size ≤ d.object.length
  least : ∃ j ∈ saves ++ [i], d.object.length = j.size

/-- What one save does to an object: a table whose version is being committed is not written again. -/
theorem Holds.save {d : Disk} {saves : List Image} {i j : Image} (h : Holds d saves i)
    (hver : i.version = j.version → i = j) : Holds (save d j) (saves ++ [i]) j := by
  have hcommit := h.committing
  obtain ⟨k, hk, hlen⟩ := h.least
  unfold Anchors.save
  split_ifs with hsame
  · obtain rfl := hver (hcommit.symm.trans hsame)
    refine ⟨hsame, h.head, fun m hm => ?_, k, mem_append_left _ hk, hlen⟩
    rcases mem_append.mp hm with hm | hm
    · exact h.upper m hm
    · exact h.upper m (mem_append_right saves hm)
  · have hover := overwrite_length d.object (image.enc j)
    rw [length_enc_image] at hover
    refine ⟨rfl, ⟨_, rfl⟩, fun m hm => ?_, ?_⟩
    · change m.size ≤ (overwrite d.object (image.enc j)).length
      rw [hover]
      rcases mem_append.mp hm with hm | hm
      · exact (h.upper m hm).trans (le_max_right _ _)
      · rw [mem_singleton.mp hm]
        exact le_max_left _ _
    · change ∃ m : Image, m ∈ saves ++ [i] ++ [j] ∧ (overwrite d.object (image.enc j)).length = m.size
      rw [hover]
      rcases le_total j.size d.object.length with hle | hle
      · exact ⟨k, mem_append_left _ hk, by rw [max_eq_right hle, hlen]⟩
      · exact ⟨j, mem_append_right _ mem_cons_self, max_eq_left hle⟩

theorem saved (saves : List Image) : ∀ i : Image, (∀ a ∈ saves ++ [i], 0 < a.version) →
    (∀ a ∈ saves ++ [i], ∀ b ∈ saves ++ [i], a.version = b.version → a = b) →
      Holds ((saves ++ [i]).foldl save fresh) saves i := by
  induction saves using reverseRecOn with
  | nil =>
    intro i hpos _
    have hne : fresh.committingVersion ≠ i.version := (hpos i mem_cons_self).ne
    have hobj : save fresh i = ⟨overwrite [] (image.enc i), i.version⟩ := if_neg hne
    have hlen : (overwrite [] (image.enc i)).length = i.size := by
      rw [overwrite_length, length_enc_image]
      exact max_zero _
    rw [nil_append, foldl_cons, foldl_nil, hobj]
    refine ⟨rfl, ⟨_, rfl⟩, forall_mem_singleton.mpr hlen.ge, i, mem_cons_self, hlen⟩
  | append_singleton saves j ih =>
    intro i hpos hver
    have hsub : ∀ a ∈ saves ++ [j], a ∈ saves ++ [j] ++ [i] := fun a ha => mem_append_left _ ha
    have hj := ih j (fun a ha => hpos a (hsub a ha)) fun a ha b hb => hver a (hsub a ha) b (hsub b hb)
    rw [foldl_append]
    exact hj.save (hver j (hsub j (mem_append_right _ mem_cons_self)) i (mem_append_right _ mem_cons_self))

/-- **What is loaded after some saves** is the last table, just when no table saved before took more bytes. -/
theorem load_last (saves : List (Table × Image)) (last : Table × Image) (hof : ∀ p ∈ saves ++ [last], p.2.Of p.1 ∧ p.2.Fits)
    (hver : ∀ p ∈ saves ++ [last], ∀ q ∈ saves ++ [last], p.2.version = q.2.version → p.2 = q.2) :
    load (((saves ++ [last]).map Prod.snd).foldl save fresh) = some last.1 ↔ ∀ p ∈ saves, p.2.size ≤ last.2.size := by
  rw [map_append, map_singleton]
  have hmem : ∀ i ∈ saves.map Prod.snd ++ [last.2], ∃ p ∈ saves ++ [last], p.2 = i := by
    intro i hi
    rw [← map_singleton, ← map_append] at hi
    exact mem_map.mp hi
  have hholds := saved (saves.map Prod.snd) last.2
    (fun i hi => by
      obtain ⟨p, hp, rfl⟩ := hmem i hi
      exact (hof p hp).2.1.1)
    fun i hi j hj => by
      obtain ⟨p, hp, rfl⟩ := hmem i hi
      obtain ⟨q, hq, rfl⟩ := hmem j hj
      exact hver p hp q hq
  obtain ⟨hlastOf, hlastFits⟩ := hof last (mem_append_right _ mem_cons_self)
  obtain ⟨rest, hrest⟩ := hholds.head
  have hlen : (((saves.map Prod.snd ++ [last.2]).foldl save fresh).object).length = last.2.size + rest.length := by
    rw [hrest, length_append, length_enc_image]
  have hload : load ((saves.map Prod.snd ++ [last.2]).foldl save fresh) = if rest = [] then some last.1 else none := by
    rw [load, hrest, reads_image hlastFits, Option.bind_some]
    rw [hlastOf.table_eq]
  rw [hload, Option.ite_none_right_eq_some, and_iff_left rfl]
  constructor
  · rintro rfl p hp
    have hle := hholds.upper p.2 (mem_append_left _ (mem_map_of_mem hp))
    rw [hlen] at hle
    exact hle
  · intro hle
    obtain ⟨i, hi, heq⟩ := hholds.least
    obtain ⟨p, hp, rfl⟩ := hmem i hi
    have hsize : p.2.size ≤ last.2.size := by
      rcases mem_append.mp hp with hp | hp
      · exact hle p hp
      · rw [mem_singleton.mp hp]
    exact length_eq_zero_iff.mp (by omega)

/-- A table with one anchor in the root, and a create under way. -/
def anchored : Image := ⟨2, [⟨2000, ⟨1, 0⟩, 1⟩], [(2, 0)], [(2, 2000)], [], []⟩

/-- The table when it has been rolled back. -/
def rolledBack : Image := ⟨3, [], [], [], [], []⟩

/-- Another create, and a directory to be moved. -/
def regrown : Image := ⟨5, [⟨2000, ⟨1, 0⟩, 1⟩], [(4, 0), (5, 1)], [(4, 2000)], [], [(5, 2000, [⟨2001, ⟨2000, 3⟩, 0⟩])]⟩

theorem anchored_of : anchored.Of anchored.table :=
  Image.of_table (by decide) (by decide) (by decide) (by decide) (by decide)

theorem rolledBack_of : rolledBack.Of rolledBack.table :=
  Image.of_table (by decide) (by decide) (by decide) (by decide) (by decide)

theorem regrown_of : regrown.Of regrown.table :=
  Image.of_table (by decide) (by decide) (by decide) (by decide) (by decide)

/-- The other way round the table grows. -/
theorem load_last_grown : load (([(rolledBack.table, rolledBack)] ++ [(regrown.table, regrown)]).map Prod.snd |>.foldl save fresh) =
    some regrown.table ↔ ∀ p ∈ [(rolledBack.table, rolledBack)], p.2.size ≤ regrown.size :=
  load_last [(rolledBack.table, rolledBack)] (regrown.table, regrown)
    (forall_mem_cons.mpr ⟨⟨rolledBack_of, by decide⟩, forall_mem_singleton.mpr ⟨regrown_of, by decide⟩⟩)
    (by decide)

/-- **A table that has become smaller**: what is left of the larger one is found behind it, and the assertion fails. -/
theorem shrunk_fails : (anchored.Of anchored.table ∧ anchored.Fits) ∧ (rolledBack.Of rolledBack.table ∧ rolledBack.Fits) ∧
    load ([anchored, rolledBack].foldl save fresh) = none := by
  refine ⟨⟨anchored_of, by decide⟩, ⟨rolledBack_of, by decide⟩, ?_⟩
  have hnone : (load ([anchored, rolledBack].foldl save fresh)).isNone = true := by decide +kernel
  exact Option.isNone_iff_eq_none.mp hnone

end Anchors
end Ceph
