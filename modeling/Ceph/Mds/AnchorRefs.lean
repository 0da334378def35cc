/-
# What the anchor table counts

Inodes move about in the hierarchy, and MDSs send the table traces of where
they are: of an inode to be anchored, and of an anchored one that is moved. The
table is a forest, and an anchor's count that of the anchored inodes below it
(`Right`). This is so as long as a trace has nothing new to say of an anchor
that stays (`Abreast`): `add` leaves that as it is. A directory above an
anchored inode is not anchored itself, so that the table does not hear of its
moves; the next trace that names it has it in another place.

Creating is hanging a path on the forest and counting it, destroying is the
reverse, and an update is one after the other.
-/
import Ceph.Lib.Chains
import Ceph.Lib.Run
import Ceph.Mds.AnchorTable

namespace Ceph
namespace Anchors

open List Option Function


/-! ### The system -/

/-- The table, where the inodes are, which of them are anchored, and the place
that the last trace applied gave each inode it named. -/
structure State where
  table : Table
  parent : ℕ → Option Dirfrag
  anchored : Finset ℕ
  named : ℕ → Option Dirfrag

/-- `make_anchor_trace`: the way down to an inode from the root, or from a stray directory. -/
structure Describes (parent : ℕ → Option Dirfrag) (ino : ℕ) (trace : List Anchor) : Prop where
  places : ∀ a ∈ trace, parent a.ino = some a.dirfrag ∧ inoBase ≤ a.ino
  first : ∀ a ∈ trace.head?, a.dirfrag.ino < inoBase
  next : trace.IsChain fun a b => b.dirfrag.ino = a.ino
  last : trace.getLast?.map (·.ino) = some ino

/-- The places with those of a trace put in. -/
def note (named : ℕ → Option Dirfrag) (trace : List Anchor) : ℕ → Option Dirfrag :=
  trace.foldl (fun named a => Function.update named a.ino (some a.dirfrag)) named

inductive Act
  | move (ino : ℕ) (dirfrag : Dirfrag)
  | create (ino : ℕ) (trace : List Anchor) (reqmds : ℕ)
  | destroy (ino reqmds : ℕ)
  | update (ino : ℕ) (trace : List Anchor) (reqmds : ℕ)
  | commit (atid : ℕ)
  | rollback (atid : ℕ)

/-- One step: an inode moves in the hierarchy, or the table takes a request. -/
def step (s : State) : Act → Option State
  | .move ino dirfrag => some { s with parent := Function.update s.parent ino (some dirfrag) }
  | .create ino trace reqmds => (createPrepare s.table ino trace reqmds).map fun t =>
      { s with table := t, anchored := insert ino s.anchored, named := note s.named trace }
  | .destroy ino reqmds => some { s with table := destroyPrepare s.table ino reqmds }
  | .update ino trace reqmds => some { s with table := updatePrepare s.table ino trace reqmds }
  | .commit atid => (Anchors.commit s.table atid).map fun t =>
      { s with
        table := t
        anchored := match s.table.pendingCreate atid, s.table.pendingDestroy atid with
          | none, some ino => s.anchored.erase ino
          | _, _ => s.anchored
        named := match s.table.pendingCreate atid, s.table.pendingDestroy atid, s.table.pendingUpdate atid with
          | none, none, some (_, trace) => note s.named trace
          | _, _, _ => s.named }
  | .rollback atid => (Anchors.rollback s.table atid).map fun t =>
      { s with
        table := t
        anchored := match s.table.pendingCreate atid with
          | some ino => s.anchored.erase ino
          | none => s.anchored }

/-- A fresh table, with inodes anywhere. -/
def start (parent : ℕ → Option Dirfrag) : State := ⟨createFresh, parent, ∅, fun _ => none⟩

/-- The inode `i` is looked up on the way to `a`. -/
def leadsThrough (m : AnchorMap) (i a : ℕ) : Bool := (handleLookup m a).any fun trace => trace.any fun x => x.ino = i

/-- **What the table is to be.** -/
structure Right (s : State) : Prop where
  parent : ∀ i n, s.table.anchorMap.lookup i = some n → n.dirfrag.ino < inoBase ∨ n.dirfrag.ino ∈ s.table.anchorMap
  dirfrag : ∀ i n, s.table.anchorMap.lookup i = some n → s.named i = some n.dirfrag
  nref : ∀ i n, s.table.anchorMap.lookup i = some n →
    n.nref = (s.anchored.filter fun a => leadsThrough s.table.anchorMap i a).card ∧ n.nref ≠ 0
  lookup : ∀ i ∈ s.table.anchorMap, (handleLookup s.table.anchorMap i).isSome = true

/-- What MDSs promise: traces are of the hierarchy as it is, or as it will be
with the inode moved; an inode that is anchored is not anchored again, and one
that is not is not destroyed, moved or rolled back. -/
def Proper (s : State) : Act → Prop
  | .create ino trace _ => Describes s.parent ino trace ∧ ino ∉ s.anchored
  | .update ino trace _ =>
      Describes (Function.update s.parent ino (trace.getLast?.map (·.dirfrag))) ino trace ∧ ino ∈ s.anchored
  | .destroy ino _ => ino ∈ s.anchored
  | .commit atid => (∀ ino ∈ s.table.pendingDestroy atid, ino ∈ s.anchored) ∧
      ∀ p ∈ s.table.pendingUpdate atid, p.1 ∈ s.anchored
  | .rollback atid => ∀ ino ∈ s.table.pendingCreate atid, ino ∈ s.anchored
  | .move _ _ => True

/-- The anchors of the trace that stay in the table are where the trace says. -/
def Agrees (m : AnchorMap) (goes : ℕ → Anchor → Bool) (trace : List Anchor) : Prop :=
  ∀ a ∈ trace, ∀ n ∈ m.lookup a.ino, n.dirfrag = a.dirfrag ∨ goes a.ino n = true

/-- A trace has nothing new to say of an anchor: those that are there when an
inode is anchored, and when a move is committed those that others than the inode
moved refer to. -/
def Abreast (s : State) (a : Act) : Prop :=
  Proper s a ∧ match a with
    | .create _ trace _ => Agrees s.table.anchorMap (fun _ _ => false) trace
    | .commit atid => ∀ p ∈ s.table.pendingUpdate atid,
        Agrees s.table.anchorMap (fun i n => n.nref = 1 ∧ leadsThrough s.table.anchorMap i p.1) p.2
    | _ => True

/-! ### Walks -/

section walks

variable {m m' : AnchorMap}

/-- The directory above an anchor, if it is not a system one. -/
def up (m : AnchorMap) (i : ℕ) : Option (Option ℕ) :=
  (m.lookup i).map fun n => if n.dirfrag.ino < inoBase then none else some n.dirfrag.ino

variable {i : ℕ}

theorem up_ne_none : up m i ≠ none ↔ i ∈ m := by
  rw [up, ← Finmap.lookup_isSome, isSome_iff_ne_none, Ne, map_eq_none_iff]

theorem up_congr (h : m'.lookup i = m.lookup i) : up m' i = up m i := by rw [up, up, h]

/-- System directories have no anchors, and anchors are under their numbers. -/
structure Keyed (m : AnchorMap) : Prop where
  base : ∀ i ∈ m, inoBase ≤ i
  ino : ∀ i n, m.lookup i = some n → n.ino = i

theorem mem_of_lookup {n : Anchor} (h : m.lookup i = some n) : i ∈ m := Finmap.mem_iff.mpr ⟨n, h⟩

variable {l : List ℕ}

theorem chain_cases (h : Forest.Chain (up m) i l) : ∃ n, m.lookup i = some n ∧
    (n.dirfrag.ino < inoBase ∧ l = [i] ∨
      inoBase ≤ n.dirfrag.ino ∧ ∃ l', l = i :: l' ∧ Forest.Chain (up m) n.dirfrag.ino l') := by
  cases h with
  | root hup =>
    obtain ⟨n, hn, heq⟩ := map_eq_some_iff.mp hup
    refine ⟨n, hn, .inl ⟨?_, rfl⟩⟩
    by_contra hge
    rw [if_neg hge] at heq
    cases heq
  | child hup hl =>
    obtain ⟨n, hn, heq⟩ := map_eq_some_iff.mp hup
    by_cases hlt : n.dirfrag.ino < inoBase
    · rw [if_pos hlt] at heq
      cases heq
    · rw [if_neg hlt] at heq
      cases heq
      exact ⟨n, hn, .inr ⟨not_lt.mp hlt, _, rfl, hl⟩⟩

/-- **`inc` and `dec`** change what is on the way up, and nothing else. -/
theorem climb_spec (f : Anchor → Option Anchor) : ∀ (l : List ℕ) {m : AnchorMap} {i fuel : ℕ}, Forest.Chain (up m) i l →
    (∀ j ∈ m, inoBase ≤ j) → l.length < fuel →
    ∃ m', climb f fuel m i = some m' ∧ ∀ j, m'.lookup j = if j ∈ l then (m.lookup j).bind f else m.lookup j := by
  intro l
  induction l with
  | nil => exact fun h => nomatch h
  | cons i l ih =>
    intro m a fuel h hbase hfuel
    obtain ⟨k, rfl⟩ := Nat.exists_eq_add_one_of_ne_zero (ne_of_gt (Nat.zero_lt_of_lt hfuel))
    have hnodup := h.nodup
    obtain ⟨n, hn, hcase⟩ := chain_cases h
    have hi := hbase a (mem_of_lookup hn)
    unfold climb
    simp only [hn]
    obtain ⟨hlt, hl⟩ | ⟨hge, l', hl, hchain⟩ := hcase
    · -- the directory is the system's, and has no anchor
      cases hl
      have hdone : (if n.dirfrag.ino = 0 then some (store m i (f n)) else climb f k (store m i (f n)) n.dirfrag.ino) =
          some (store m i (f n)) := by
        by_cases hzero : n.dirfrag.ino = 0
        · rw [if_pos hzero]
        · rw [if_neg hzero]
          obtain ⟨k, rfl⟩ := Nat.exists_eq_add_one_of_ne_zero (ne_of_gt (Nat.lt_of_succ_lt_succ hfuel))
          have hnone : (store m i (f n)).lookup n.dirfrag.ino = none := by
            rw [lookup_store, if_neg (by omega)]
            exact Finmap.lookup_eq_none.mpr fun hmem => (hbase _ hmem).not_gt hlt
          unfold climb
          simp only [hnone]
      refine ⟨_, hdone, fun j => ?_⟩
      simp only [lookup_store, mem_singleton]
      by_cases hj : j = i
      · rw [if_pos hj, if_pos hj, hj, hn, bind_some]
      · rw [if_neg hj, if_neg hj]
    · cases hl
      obtain ⟨hnot, -⟩ := nodup_cons.mp hnodup
      have hpos : n.dirfrag.ino ≠ 0 := by
        have : 0 < inoBase := by decide
        omega
      have hchain' : Forest.Chain (up (store m i (f n))) n.dirfrag.ino l := hchain.congr fun j hj => up_congr (by
        have hne : j ≠ i := fun heq => hnot (heq ▸ hj)
        rw [lookup_store, if_neg hne])
      have hbase' : ∀ j ∈ store m i (f n), inoBase ≤ j := fun j hj => by
        obtain ⟨n', hn'⟩ := Finmap.mem_iff.mp hj
        rw [lookup_store] at hn'
        by_cases hji : j = i
        · exact hji ▸ hi
        · rw [if_neg hji] at hn'
          exact hbase j (mem_of_lookup hn')
      obtain ⟨m', hm', hlook⟩ := ih hchain' hbase' (Nat.lt_of_succ_lt_succ hfuel)
      rw [if_neg hpos]
      refine ⟨m', hm', fun j => ?_⟩
      simp only [hlook, lookup_store, mem_cons]
      by_cases hj : j = i
      · rw [if_neg (hj ▸ hnot), if_pos hj, if_pos (.inl hj), hj, hn, bind_some]
      · simp only [hj, false_or]
        rfl

/-- **`handle_lookup`** goes the way up. -/
theorem lookupFrom_spec (hk : Keyed m) : ∀ (l : List ℕ) {i fuel : ℕ} (trace : List Anchor), Forest.Chain (up m) i l →
    l.length ≤ fuel →
    ∃ t, lookupFrom m fuel i trace = some (t ++ trace) ∧ t.map (·.ino) = l.reverse := by
  intro l
  induction l with
  | nil => exact fun _ h => nomatch h
  | cons i l ih =>
    intro a fuel trace h hfuel
    obtain ⟨k, rfl⟩ := Nat.exists_eq_add_one_of_ne_zero (ne_of_gt (Nat.zero_lt_of_lt hfuel))
    obtain ⟨n, hn, hcase⟩ := chain_cases h
    unfold lookupFrom
    simp only [hn]
    obtain ⟨hlt, hl⟩ | ⟨hge, l', hl, hchain⟩ := hcase
    · cases hl
      rw [if_pos hlt]
      exact ⟨[n], rfl, by simp [hk.ino i n hn]⟩
    · cases hl
      obtain ⟨t, ht, hmap⟩ := ih (n :: trace) hchain (Nat.le_of_succ_le_succ hfuel)
      rw [if_neg (not_lt.mpr hge), ht]
      exact ⟨t ++ [n], by rw [List.append_assoc, singleton_append], by simp [hmap, hk.ino i n hn]⟩

theorem length_le_card (h : Forest.Chain (up m) i l) : l.length ≤ m.keys.card :=
  h.length_le fun _ hj => Finmap.mem_keys.mpr (up_ne_none.mp hj)

/-- What `handle_lookup` leads through is on the way up. -/
theorem leadsThrough_iff {a : ℕ} (hk : Keyed m) (h : Forest.Chain (up m) a l) :
    leadsThrough m i a = true ↔ i ∈ l := by
  obtain ⟨t, ht, hmap⟩ := lookupFrom_spec hk l [] h (length_le_card h)
  have hmem : i ∈ t.map (·.ino) ↔ i ∈ l := by rw [hmap, mem_reverse]
  rw [← hmem, leadsThrough, handleLookup, ht]
  simp

end walks

/-! ### Counting -/

section counting

variable {m : AnchorMap} {A : Finset ℕ} {ino : ℕ}

/-- **The table is a forest**, and each anchor has the number of the inodes anchored that lead through it. -/
structure Counted (m : AnchorMap) (A : Finset ℕ) : Prop where
  keyed : Keyed m
  chain : ∀ i ∈ m, ∃ l, Forest.Chain (up m) i l
  anchored : ∀ a ∈ A, a ∈ m
  nref : ∀ i n, m.lookup i = some n → n.nref = (A.filter fun a => leadsThrough m i a).card ∧ n.nref ≠ 0

theorem card_filter_insert (p : ℕ → Bool) (h : ino ∉ A) :
    (((insert ino A).filter fun a => p a).card : ℤ) = (A.filter fun a => p a).card + if p ino then 1 else 0 := by
  rw [Finset.filter_insert]
  by_cases hp : p ino = true
  · rw [if_pos hp, if_pos hp, Finset.card_insert_of_notMem fun hmem => h (Finset.mem_filter.mp hmem).1]
    rfl
  · rw [if_neg hp, if_neg hp, add_zero]

theorem card_filter_erase (p : ℕ → Bool) (h : ino ∈ A) :
    (((A.erase ino).filter fun a => p a).card : ℤ) = (A.filter fun a => p a).card - if p ino then 1 else 0 := by
  have hins := card_filter_insert p (Finset.notMem_erase ino A)
  rw [Finset.insert_erase h] at hins
  omega

/-- **An inode is not anchored any more.** -/
theorem release_spec (h : Counted m A) (hino : ino ∈ A) : ∃ m', dec m ino = some m' ∧ Counted m' (A.erase ino) ∧
    ∀ i n', m'.lookup i = some n' → ∃ n, m.lookup i = some n ∧ n'.dirfrag = n.dirfrag ∧
      ¬ (n.nref = 1 ∧ leadsThrough m i ino = true) := by
  have hin := h.anchored ino hino
  obtain ⟨l, hl⟩ := h.chain ino hin
  obtain ⟨m', hm', hlook⟩ := climb_spec drop l hl h.keyed.base (Nat.lt_succ_of_le (length_le_card hl))
  have hthrough : ∀ i, leadsThrough m i ino = true ↔ i ∈ l := fun i => leadsThrough_iff h.keyed hl
  -- an anchor of the new table was one of the old, and has lost what is asked
  have hold : ∀ i n', m'.lookup i = some n' → ∃ n, m.lookup i = some n ∧ n'.ino = n.ino ∧ n'.dirfrag = n.dirfrag ∧
      n'.nref = n.nref - (if leadsThrough m i ino then 1 else 0) ∧ n'.nref ≠ 0 := fun i n' hn' => by
    rw [hlook] at hn'
    by_cases hi : i ∈ l
    · rw [if_pos hi] at hn'
      obtain ⟨n, hn, hdrop⟩ := bind_eq_some_iff.mp hn'
      obtain ⟨hne, ⟨⟩⟩ := ite_none_left_eq_some.mp hdrop
      exact ⟨n, hn, rfl, rfl, by rw [if_pos ((hthrough i).mpr hi)], hne⟩
    · rw [if_neg hi] at hn'
      exact ⟨n', hn', rfl, rfl, by rw [if_neg fun ht => hi ((hthrough i).mp ht), sub_zero], (h.nref i n' hn').2⟩
  -- the anchors above an inode that stays anchored stay
  have hstay : ∀ a ∈ A.erase ino, ∀ la, Forest.Chain (up m) a la → Forest.Chain (up m') a la := fun a ha la hla => by
    obtain ⟨hne, haA⟩ := Finset.mem_erase.mp ha
    refine hla.congr fun i hi => ?_
    obtain ⟨n, hn⟩ := Finmap.mem_iff.mp (up_ne_none.mp (hla.there i hi))
    by_cases hil : i ∈ l
    · have htwo : (1 : ℤ) < n.nref := by
        rw [(h.nref i n hn).1]
        have hlt : 1 < (A.filter fun a => leadsThrough m i a).card := Finset.one_lt_card.mpr
          ⟨a, Finset.mem_filter.mpr ⟨haA, (leadsThrough_iff h.keyed hla).mpr hi⟩,
            ino, Finset.mem_filter.mpr ⟨hino, (hthrough i).mpr hil⟩, hne⟩
        exact_mod_cast hlt
      have hdrop : drop n = some { n with nref := n.nref - 1 } := if_neg (by omega)
      rw [up, up, hlook, if_pos hil, hn, bind_some, hdrop]
      rfl
    · exact up_congr (by rw [hlook, if_neg hil])
  have hkeyed : Keyed m' := by
    refine ⟨fun i hi => ?_, fun i n' hn' => ?_⟩
    · obtain ⟨n', hn'⟩ := Finmap.mem_iff.mp hi
      obtain ⟨n, hn, -⟩ := hold i n' hn'
      exact h.keyed.base i (mem_of_lookup hn)
    · obtain ⟨n, hn, heq, -⟩ := hold i n' hn'
      rw [heq, h.keyed.ino i n hn]
  have hsame : ∀ i, ∀ a ∈ A.erase ino, leadsThrough m' i a = leadsThrough m i a := fun i a ha => by
    obtain ⟨la, hla⟩ := h.chain a (h.anchored a (Finset.mem_erase.mp ha).2)
    rw [Bool.eq_iff_iff, leadsThrough_iff h.keyed hla, leadsThrough_iff hkeyed (hstay a ha la hla)]
  have hnref : ∀ i n', m'.lookup i = some n' →
      n'.nref = ((A.erase ino).filter fun a => leadsThrough m' i a).card ∧ n'.nref ≠ 0 := fun i n' hn' => by
    obtain ⟨n, hn, -, -, heq, hne⟩ := hold i n' hn'
    refine ⟨?_, hne⟩
    rw [Finset.filter_congr fun a ha => by rw [hsame i a ha], card_filter_erase _ hino, heq, (h.nref i n hn).1]
  refine ⟨m', (if_pos hin).trans hm', ⟨hkeyed, fun i hi => ?_, fun a ha => ?_, hnref⟩, fun i n' hn' => ?_⟩
  · -- an anchor that stays is above an inode that stays anchored
    obtain ⟨n', hn'⟩ := Finmap.mem_iff.mp hi
    obtain ⟨heq, hne⟩ := hnref i n' hn'
    obtain ⟨a, ha⟩ := Finset.card_pos.mp (Nat.pos_of_ne_zero fun hz => hne (by rw [heq, hz]; rfl))
    obtain ⟨ha, hthru⟩ := Finset.mem_filter.mp ha
    obtain ⟨la, hla⟩ := h.chain a (h.anchored a (Finset.mem_erase.mp ha).2)
    obtain ⟨li, hli, -⟩ := (hstay a ha la hla).of_mem ((leadsThrough_iff hkeyed (hstay a ha la hla)).mp hthru)
    exact ⟨li, hli⟩
  · obtain ⟨la, hla⟩ := h.chain a (h.anchored a (Finset.mem_erase.mp ha).2)
    have hla' := hstay a ha la hla
    exact up_ne_none.mp (hla'.there a hla'.mem_self)
  · obtain ⟨n, hn, -, hdf, heq, hne⟩ := hold i n' hn'
    refine ⟨n, hn, hdf, fun hgone => hne ?_⟩
    rw [heq, if_pos hgone.2, hgone.1, sub_self]

variable {trace : List Anchor} {parent : ℕ → Option Dirfrag}

theorem Describes.place_eq (h : Describes parent ino trace)
    {a b : Anchor} (ha : a ∈ trace) (hb : b ∈ trace) (heq : a.ino = b.ino) : a.dirfrag = b.dirfrag := by
  have hpa := (h.places a ha).1
  rw [heq, (h.places b hb).1] at hpa
  exact (some.inj hpa).symm

/-- **A trace entered**: what was there stays, what is new has no references. -/
theorem addAll_spec : ∀ (trace : List Anchor) {m : AnchorMap},
    (∀ a ∈ trace, ∀ b ∈ trace, a.ino = b.ino → a.dirfrag = b.dirfrag) →
    (∀ a ∈ trace.head?, a.dirfrag.ino < inoBase ∨ a.dirfrag.ino ∈ m) →
    (trace.IsChain fun a b => b.dirfrag.ino = a.ino) →
    (∀ a ∈ trace, ∀ n, m.lookup a.ino = some n → n.dirfrag = a.dirfrag) →
    ∃ m', addAll m trace = some m' ∧ (∀ i n, m.lookup i = some n → m'.lookup i = some n) ∧
      (∀ a ∈ trace, ∃ n, m'.lookup a.ino = some n ∧ n.dirfrag = a.dirfrag) ∧
      ∀ i n, m'.lookup i = some n → m.lookup i = some n ∨ m.lookup i = none ∧ n.ino = i ∧ n.nref = 0 ∧ ∃ a ∈ trace, a.ino = i
  | [], m, _, _, _, _ => ⟨m, rfl, fun _ _ h => h, nofun, fun _ _ h => .inl h⟩
  | a :: trace, m, hfun, hfirst, hnext, hagrees => by
    -- the first anchor, there already or new
    obtain ⟨m1, hadd, hkeep, ⟨na, hna, hda⟩, hnew⟩ : ∃ m1, add m a.ino a.dirfrag = some m1 ∧
        (∀ i n, m.lookup i = some n → m1.lookup i = some n) ∧
        (∃ n, m1.lookup a.ino = some n ∧ n.dirfrag = a.dirfrag) ∧
        ∀ i n, m1.lookup i = some n → m.lookup i = some n ∨ m.lookup i = none ∧ n.ino = i ∧ n.nref = 0 ∧ a.ino = i := by
      unfold add
      rw [if_pos (hfirst a rfl)]
      by_cases hin : a.ino ∈ m
      · obtain ⟨n, hn⟩ := Finmap.mem_iff.mp hin
        rw [if_pos hin]
        exact ⟨m, rfl, fun _ _ h => h, ⟨n, hn, hagrees a mem_cons_self n hn⟩, fun _ _ h => .inl h⟩
      · have hnone := Finmap.lookup_eq_none.mpr hin
        rw [if_neg hin]
        refine ⟨_, rfl, fun i n hn => ?_, ⟨_, Finmap.lookup_insert m, rfl⟩, fun i n hn => ?_⟩
        · have hne : i ≠ a.ino := fun heq => by
            rw [heq, hnone] at hn
            cases hn
          rwa [Finmap.lookup_insert_of_ne m hne]
        · by_cases hi : i = a.ino
          · subst hi
            rw [Finmap.lookup_insert] at hn
            cases hn
            exact .inr ⟨hnone, rfl, rfl, rfl⟩
          · rw [Finmap.lookup_insert_of_ne m hi] at hn
            exact .inl hn
    have hhead : ∀ b ∈ trace.head?, b.dirfrag.ino < inoBase ∨ b.dirfrag.ino ∈ m1 := fun b hb => by
      obtain ⟨rest, rfl⟩ := head?_eq_some_iff.mp hb
      right
      rw [(isChain_cons_cons.mp hnext).1]
      exact mem_of_lookup hna
    have hagrees' : ∀ b ∈ trace, ∀ n, m1.lookup b.ino = some n → n.dirfrag = b.dirfrag := fun b hb n hn => by
      obtain hn' | ⟨-, -, -, heq⟩ := hnew b.ino n hn
      · exact hagrees b (mem_cons_of_mem _ hb) n hn'
      · rw [← heq, hna] at hn
        cases hn
        rw [hda]
        exact hfun a mem_cons_self b (mem_cons_of_mem _ hb) heq
    obtain ⟨m', hm', hkeep', hnamed, hnew'⟩ := addAll_spec trace (fun x hx y hy =>
      hfun x (mem_cons_of_mem _ hx) y (mem_cons_of_mem _ hy)) hhead hnext.tail hagrees'
    refine ⟨m', ?_, fun i n hn => hkeep' i n (hkeep i n hn), ?_, fun i n hn => ?_⟩
    · rw [addAll, hadd, bind_some, hm']
    · exact forall_mem_cons.mpr ⟨⟨na, hkeep' _ _ hna, hda⟩, hnamed⟩
    · obtain hn | ⟨hnone, hino, hzero, b, hb, hbi⟩ := hnew' i n hn
      · exact (hnew i n hn).imp_right fun ⟨hnone, hino, hzero, hai⟩ => ⟨hnone, hino, hzero, a, mem_cons_self, hai⟩
      · refine .inr ⟨?_, hino, hzero, b, mem_cons_of_mem _ hb, hbi⟩
        cases hm : m.lookup i with
        | none => rfl
        | some x => exact absurd (hkeep i x hm) (by rw [hnone]; nofun)

theorem chain_of_trace : ∀ (trace : List Anchor) {a : Anchor} {l : List ℕ}, Forest.Chain (up m) a.ino l →
    ((a :: trace).IsChain fun a b => b.dirfrag.ino = a.ino) →
    (∀ b ∈ a :: trace, inoBase ≤ b.ino ∧ ∃ n, m.lookup b.ino = some n ∧ n.dirfrag = b.dirfrag) →
    ∀ b ∈ (a :: trace).getLast?, Forest.Chain (up m) b.ino ((trace.map (·.ino)).reverse ++ l)
  | [], a, l, hl, _, _, b, hb => by
    cases hb
    exact hl
  | c :: trace, a, l, hl, hnext, hhas, b, hb => by
    obtain ⟨hca, hnext⟩ := isChain_cons_cons.mp hnext
    obtain ⟨ha, hhas⟩ := forall_mem_cons.mp hhas
    obtain ⟨hc, n, hn, hdf⟩ := hhas c mem_cons_self
    have hup : up m c.ino = some (some a.ino) := by
      rw [up, hn, map_some, hdf, hca, if_neg (not_lt.mpr ha.1)]
    have hrec := chain_of_trace trace (.child hup hl) hnext hhas b (by rwa [getLast?_cons_cons] at hb)
    rwa [map_cons, reverse_cons, List.append_assoc, singleton_append]

/-- **An inode is anchored.** -/
theorem hang_spec (h : Counted m A) (hino : ino ∉ A)
    (hd : Describes parent ino trace) (hagrees : ∀ a ∈ trace, ∀ n, m.lookup a.ino = some n → n.dirfrag = a.dirfrag) :
    ∃ m', ((addAll m trace).bind fun m => inc m ino) = some m' ∧ Counted m' (insert ino A) ∧
      (∀ a ∈ trace, ∃ n, m'.lookup a.ino = some n ∧ n.dirfrag = a.dirfrag) ∧
      ∀ i n', m'.lookup i = some n' → (∀ a ∈ trace, a.ino ≠ i) → ∃ n, m.lookup i = some n ∧ n'.dirfrag = n.dirfrag := by
  obtain ⟨m1, hm1, hkeep, hnamed, hnew⟩ := addAll_spec trace (fun a ha b hb => hd.place_eq ha hb)
    (fun a ha => .inl (hd.first a ha)) hd.next hagrees
  have hkeyed1 : Keyed m1 := by
    refine ⟨fun i hi => ?_, fun i n hn => ?_⟩
    · obtain ⟨n, hn⟩ := Finmap.mem_iff.mp hi
      obtain hn | ⟨-, -, -, a, ha, rfl⟩ := hnew i n hn
      · exact h.keyed.base i (mem_of_lookup hn)
      · exact (hd.places a ha).2
    · obtain hn | ⟨-, hin, -⟩ := hnew i n hn
      · exact h.keyed.ino i n hn
      · exact hin
  -- the way up from the inode
  have hl : Forest.Chain (up m1) ino (trace.map (·.ino)).reverse := by
    obtain ⟨last, hlast, hlastino⟩ := map_eq_some_iff.mp hd.last
    cases htrace : trace with
    | nil =>
      rw [htrace] at hlast
      cases hlast
    | cons a rest =>
      rw [htrace] at hlast
      have hfirst := hd.first a (by rw [htrace]; rfl)
      obtain ⟨n, hn, hdf⟩ := hnamed a (by rw [htrace]; exact mem_cons_self)
      have hroot : up m1 a.ino = some none := by rw [up, hn, map_some, hdf, if_pos hfirst]
      have hchain := chain_of_trace rest (.root hroot) (htrace ▸ hd.next)
        (fun b hb => ⟨(hd.places b (htrace ▸ hb)).2, hnamed b (htrace ▸ hb)⟩) last hlast
      rw [hlastino] at hchain
      rwa [map_cons, reverse_cons]
  have hin1 := up_ne_none.mp (hl.there ino hl.mem_self)
  obtain ⟨m', hm', hlook⟩ := climb_spec bump _ hl hkeyed1.base (Nat.lt_succ_of_le (length_le_card hl))
  have hmem : ∀ i, i ∈ (trace.map (·.ino)).reverse ↔ ∃ a ∈ trace, a.ino = i := fun i => by
    rw [mem_reverse, List.mem_map]
  have hold : ∀ i n', m'.lookup i = some n' → ∃ n, m1.lookup i = some n ∧ n'.ino = n.ino ∧ n'.dirfrag = n.dirfrag ∧
      n'.nref = n.nref + if i ∈ (trace.map (·.ino)).reverse then 1 else 0 := fun i n' hn' => by
    rw [hlook] at hn'
    by_cases hi : i ∈ (trace.map (·.ino)).reverse
    · rw [if_pos hi] at hn'
      obtain ⟨n, hn, ⟨⟩⟩ := bind_eq_some_iff.mp hn'
      exact ⟨n, hn, rfl, rfl, by rw [if_pos hi]⟩
    · rw [if_neg hi] at hn'
      exact ⟨n', hn', rfl, rfl, by rw [if_neg hi, add_zero]⟩
  have hup : ∀ i, up m' i = up m1 i := fun i => by
    by_cases hi : i ∈ (trace.map (·.ino)).reverse
    · rw [up, up, hlook, if_pos hi]
      cases m1.lookup i <;> rfl
    · exact up_congr (by rw [hlook, if_neg hi])
  have hl' : Forest.Chain (up m') ino (trace.map (·.ino)).reverse := hl.congr fun i _ => hup i
  have hstay : ∀ a la, Forest.Chain (up m) a la → Forest.Chain (up m') a la := fun a la hla => hla.congr fun i hi => by
    obtain ⟨n, hn⟩ := Finmap.mem_iff.mp (up_ne_none.mp (hla.there i hi))
    rw [hup]
    exact up_congr (by rw [hkeep i n hn, hn])
  have hkeyed : Keyed m' := by
    refine ⟨fun i hi => ?_, fun i n' hn' => ?_⟩
    · obtain ⟨n', hn'⟩ := Finmap.mem_iff.mp hi
      obtain ⟨n, hn, -⟩ := hold i n' hn'
      exact hkeyed1.base i (mem_of_lookup hn)
    · obtain ⟨n, hn, heq, -⟩ := hold i n' hn'
      rw [heq, hkeyed1.ino i n hn]
  have hsame : ∀ i, ∀ a ∈ A, leadsThrough m' i a = leadsThrough m i a := fun i a ha => by
    obtain ⟨la, hla⟩ := h.chain a (h.anchored a ha)
    rw [Bool.eq_iff_iff, leadsThrough_iff h.keyed hla, leadsThrough_iff hkeyed (hstay a la hla)]
  refine ⟨m', ?_, ⟨hkeyed, fun i hi => ?_, fun a ha => ?_, fun i n' hn' => ?_⟩, fun a ha => ?_, fun i n' hn' hno => ?_⟩
  · rw [hm1, bind_some, inc, if_pos hin1, hm']
  · obtain ⟨n', hn'⟩ := Finmap.mem_iff.mp hi
    obtain ⟨n, hn, -⟩ := hold i n' hn'
    obtain hn | ⟨-, -, -, hi⟩ := hnew i n hn
    · obtain ⟨li, hli⟩ := h.chain i (mem_of_lookup hn)
      exact ⟨li, hstay i li hli⟩
    · obtain ⟨li, hli, -⟩ := hl'.of_mem ((hmem i).mpr hi)
      exact ⟨li, hli⟩
  · obtain rfl | ha := Finset.mem_insert.mp ha
    · exact up_ne_none.mp (hl'.there a hl'.mem_self)
    · obtain ⟨la, hla⟩ := h.chain a (h.anchored a ha)
      exact up_ne_none.mp ((hstay a la hla).there a (hstay a la hla).mem_self)
  · obtain ⟨n, hn, -, -, hnref⟩ := hold i n' hn'
    have hthrough : leadsThrough m' i ino = true ↔ i ∈ (trace.map (·.ino)).reverse := leadsThrough_iff hkeyed hl'
    have hcount : n.nref = (A.filter fun a => leadsThrough m i a).card ∧ (n.nref ≠ 0 ∨ i ∈ (trace.map (·.ino)).reverse) := by
      obtain hn | ⟨hnone, -, hzero, hi⟩ := hnew i n hn
      · exact ⟨(h.nref i n hn).1, .inl (h.nref i n hn).2⟩
      · -- nobody's way up leads through an anchor that is not there
        have hempty : (A.filter fun a => leadsThrough m i a) = ∅ := Finset.filter_eq_empty_iff.mpr fun a ha hthru => by
          obtain ⟨la, hla⟩ := h.chain a (h.anchored a ha)
          have hi := up_ne_none.mp (hla.there i ((leadsThrough_iff h.keyed hla).mp hthru))
          exact Finmap.lookup_eq_none.mp hnone hi
        exact ⟨by rw [hzero, hempty]; rfl, .inr ((hmem i).mpr hi)⟩
    have heq : n'.nref = ((insert ino A).filter fun a => leadsThrough m' i a).card := by
      rw [card_filter_insert _ hino, Finset.filter_congr fun a ha => by rw [hsame i a ha], hnref, hcount.1]
      congr 1
      exact if_congr hthrough.symm rfl rfl
    refine ⟨heq, ?_⟩
    by_cases hi : i ∈ (trace.map (·.ino)).reverse
    · rw [hnref, if_pos hi]
      omega
    · rw [hnref, if_neg hi, add_zero]
      exact hcount.2.resolve_right hi
  · obtain ⟨n, hn, hdf⟩ := hnamed a ha
    refine ⟨{ n with nref := n.nref + 1 }, ?_, hdf⟩
    rw [hlook, if_pos ((hmem a.ino).mpr ⟨a, ha, rfl⟩), hn]
    rfl
  · obtain ⟨n, hn, -, hdf, -⟩ := hold i n' hn'
    obtain hn | ⟨-, -, -, a, ha, hai⟩ := hnew i n hn
    · exact ⟨n, hn, hdf⟩
    · exact absurd hai (hno a ha)

end counting

/-! ### Steps -/

/-- **The invariant**: the table counts what is anchored, has anchors where they
were named last, and the moves it is to make are on ways down from the root. -/
structure Inv (s : State) : Prop where
  counted : Counted s.table.anchorMap s.anchored
  named : ∀ i n, s.table.anchorMap.lookup i = some n → s.named i = some n.dirfrag
  moves : ∀ atid p, s.table.pendingUpdate atid = some p → ∃ parent, Describes parent p.1 p.2

theorem note_of_notMem {i : ℕ} : ∀ (trace : List Anchor) (named : ℕ → Option Dirfrag), (∀ a ∈ trace, a.ino ≠ i) →
    note named trace i = named i
  | [], _, _ => rfl
  | a :: trace, named, h => by
    obtain ⟨ha, h⟩ := forall_mem_cons.mp h
    rw [note, foldl_cons]
    exact (note_of_notMem trace _ h).trans (update_of_ne (Ne.symm ha) _ _)

theorem note_of_mem {a : Anchor} : ∀ (trace : List Anchor) (named : ℕ → Option Dirfrag),
    (∀ x ∈ trace, ∀ y ∈ trace, x.ino = y.ino → x.dirfrag = y.dirfrag) → a ∈ trace →
    note named trace a.ino = some a.dirfrag
  | b :: trace, named, hfun, ha => by
    rw [note, foldl_cons]
    by_cases hin : ∃ c ∈ trace, c.ino = a.ino
    · obtain ⟨c, hc, hca⟩ := hin
      have hrec := note_of_mem (a := c) trace (Function.update named b.ino (some b.dirfrag))
        (fun x hx y hy => hfun x (mem_cons_of_mem _ hx) y (mem_cons_of_mem _ hy)) hc
      rw [hca, hfun c (mem_cons_of_mem _ hc) a ha hca] at hrec
      exact hrec
    · have hno : ∀ c ∈ trace, c.ino ≠ a.ino := fun c hc heq => hin ⟨c, hc, heq⟩
      obtain rfl | ha := mem_cons.mp ha
      · exact (note_of_notMem trace _ hno).trans (update_self _ _ _)
      · exact absurd rfl (hno a ha)

section steps

variable {s s' : State}

variable {ino : ℕ} {trace : List Anchor}

theorem named_hang {parent : ℕ → Option Dirfrag} {m m' : AnchorMap}
    {named : ℕ → Option Dirfrag} (hd : Describes parent ino trace)
    (hnamed : ∀ i n, m.lookup i = some n → named i = some n.dirfrag)
    (hhas : ∀ a ∈ trace, ∃ n, m'.lookup a.ino = some n ∧ n.dirfrag = a.dirfrag)
    (hold : ∀ i n', m'.lookup i = some n' → (∀ a ∈ trace, a.ino ≠ i) → ∃ n, m.lookup i = some n ∧ n'.dirfrag = n.dirfrag)
    {i : ℕ} {n' : Anchor} (hn' : m'.lookup i = some n') : note named trace i = some n'.dirfrag := by
  by_cases hin : ∃ a ∈ trace, a.ino = i
  · obtain ⟨a, ha, rfl⟩ := hin
    obtain ⟨n, hn, hdf⟩ := hhas a ha
    cases hn.symm.trans hn'
    rw [note_of_mem trace named (fun x hx y hy => hd.place_eq hx hy) ha, hdf]
  · have hno : ∀ a ∈ trace, a.ino ≠ i := fun a ha heq => hin ⟨a, ha, heq⟩
    obtain ⟨n, hn, hdf⟩ := hold i n' hn' hno
    rw [note_of_notMem trace named hno, hnamed i n hn, hdf]

theorem create_inv {reqmds : ℕ} (h : Inv s) (hok : Abreast s (.create ino trace reqmds))
    (hs : step s (.create ino trace reqmds) = some s') : Inv s' := by
  obtain ⟨⟨hd, hino⟩, hagrees⟩ := hok
  have hagrees : ∀ a ∈ trace, ∀ n, s.table.anchorMap.lookup a.ino = some n → n.dirfrag = a.dirfrag :=
    fun a ha n hn => (hagrees a ha n hn).resolve_right Bool.false_ne_true
  obtain ⟨m', hm', hcounted, hhas, hold⟩ := hang_spec h.counted hino hd hagrees
  obtain ⟨t, ht, rfl⟩ := map_eq_some_iff.mp hs
  obtain ⟨m1, hm1, ht⟩ := bind_eq_some_iff.mp ht
  obtain ⟨m2, hm2, rfl⟩ := map_eq_some_iff.mp ht
  rw [hm1, bind_some, hm2] at hm'
  cases hm'
  exact ⟨hcounted, fun i n hn => named_hang hd h.named hhas hold hn, h.moves⟩

theorem release_inv {t : Table} {m : AnchorMap} (h : Inv s) (hino : ino ∈ s.anchored)
    (hm : dec s.table.anchorMap ino = some m) (ht : t.anchorMap = m) (hup : t.pendingUpdate = s.table.pendingUpdate) :
    Inv { s with table := t, anchored := s.anchored.erase ino } := by
  obtain ⟨m', hm', hcounted, hold⟩ := release_spec h.counted hino
  cases hm.symm.trans hm'
  subst ht
  refine ⟨hcounted, fun i n' hn' => ?_, fun atid p hp => h.moves atid p (hup ▸ hp)⟩
  obtain ⟨n, hn, hdf, -⟩ := hold i n' hn'
  rw [hdf]
  exact h.named i n hn

theorem moves_erase (h : Inv s) (atid : ℕ) : ∀ a p, Function.update s.table.pendingUpdate atid none a = some p →
    ∃ parent, Describes parent p.1 p.2 := fun a p hp => by
  by_cases ha : a = atid
  · rw [ha, update_self] at hp
    cases hp
  · rw [update_of_ne ha] at hp
    exact h.moves a p hp

variable {atid : ℕ}

theorem commit_inv (h : Inv s) (hok : Abreast s (.commit atid)) (hs : step s (.commit atid) = some s') :
    Inv s' := by
  obtain ⟨⟨hdestroy, hupdate⟩, hagrees⟩ := hok
  obtain ⟨t, ht, rfl⟩ := map_eq_some_iff.mp hs
  unfold Anchors.commit at ht
  cases hc : s.table.pendingCreate atid with
  | some ino =>
    simp only [hc] at ht ⊢
    cases ht
    exact ⟨h.counted, h.named, h.moves⟩
  | none =>
    cases hdes : s.table.pendingDestroy atid with
    | some ino =>
      simp only [hc, hdes] at ht ⊢
      obtain ⟨m, hm, rfl⟩ := map_eq_some_iff.mp ht
      exact release_inv h (hdestroy ino hdes) hm rfl rfl
    | none =>
      cases hu : s.table.pendingUpdate atid with
      | none =>
        simp only [hc, hdes, hu] at ht
        cases ht
      | some p =>
        obtain ⟨ino, trace⟩ := p
        simp only [hc, hdes, hu] at ht ⊢
        have hino := hupdate (ino, trace) hu
        obtain ⟨parent, hd⟩ := h.moves atid (ino, trace) hu
        obtain ⟨m, hm, ht⟩ := bind_eq_some_iff.mp ht
        obtain ⟨m1, hm1, ht⟩ := bind_eq_some_iff.mp ht
        obtain ⟨m2, hm2, rfl⟩ := map_eq_some_iff.mp ht
        -- the old way is taken off, then the new one is hung on
        obtain ⟨m', hm', hcounted, hold⟩ := release_spec h.counted hino
        cases hm.symm.trans hm'
        have hnamed : ∀ i n, m.lookup i = some n → s.named i = some n.dirfrag := fun i n' hn' => by
          obtain ⟨n, hn, hdf, -⟩ := hold i n' hn'
          rw [hdf]
          exact h.named i n hn
        have hsame : ∀ a ∈ trace, ∀ n, m.lookup a.ino = some n → n.dirfrag = a.dirfrag := fun a ha n' hn' => by
          obtain ⟨n, hn, hdf, hstays⟩ := hold a.ino n' hn'
          rw [hdf]
          refine (hagrees (ino, trace) hu a ha n hn).resolve_right fun hgoes => hstays ?_
          exact of_decide_eq_true hgoes
        obtain ⟨m3, hm3, hcounted', hhas, hold'⟩ := hang_spec hcounted (Finset.notMem_erase ino s.anchored) hd hsame
        rw [hm1, bind_some, hm2] at hm3
        cases hm3
        rw [Finset.insert_erase hino] at hcounted'
        exact ⟨hcounted', fun i n hn => named_hang hd hnamed hhas hold' hn, moves_erase h atid⟩

theorem rollback_inv (h : Inv s) (hok : Abreast s (.rollback atid)) (hs : step s (.rollback atid) = some s') :
    Inv s' := by
  obtain ⟨t, ht, rfl⟩ := map_eq_some_iff.mp hs
  unfold Anchors.rollback at ht
  cases hc : s.table.pendingCreate atid with
  | some ino =>
    simp only [hc] at ht ⊢
    obtain ⟨m, hm, rfl⟩ := map_eq_some_iff.mp ht
    exact release_inv h (hok.1 ino hc) hm rfl rfl
  | none =>
    cases hdes : s.table.pendingDestroy atid with
    | some ino =>
      simp only [hc, hdes] at ht ⊢
      cases ht
      exact ⟨h.counted, h.named, h.moves⟩
    | none =>
      cases hu : s.table.pendingUpdate atid with
      | none =>
        simp only [hc, hdes, hu] at ht
        cases ht
      | some p =>
        simp only [hc, hdes, hu] at ht ⊢
        cases ht
        exact ⟨h.counted, h.named, moves_erase h atid⟩

/-- **One step** keeps the invariant. -/
theorem step_inv {a : Act} (h : Inv s) (hok : Abreast s a) (hs : step s a = some s') : Inv s' := by
  cases a with
  | move ino dirfrag =>
    cases hs
    exact ⟨h.counted, h.named, h.moves⟩
  | create ino trace reqmds => exact create_inv h hok hs
  | destroy ino reqmds =>
    cases hs
    exact ⟨h.counted, h.named, h.moves⟩
  | update ino trace reqmds =>
    cases hs
    refine ⟨h.counted, h.named, fun atid p hp => ?_⟩
    change Function.update s.table.pendingUpdate (s.table.version + 1) (some (ino, trace)) atid = some p at hp
    by_cases ha : atid = s.table.version + 1
    · rw [ha, update_self] at hp
      cases hp
      exact ⟨_, hok.1.1⟩
    · rw [update_of_ne ha] at hp
      exact h.moves atid p hp
  | commit atid => exact commit_inv h hok hs
  | rollback atid => exact rollback_inv h hok hs

theorem Inv.right (h : Inv s) : Right s where
  parent i n hn := by
    obtain ⟨l, hl⟩ := h.counted.chain i (mem_of_lookup hn)
    obtain ⟨n', hn', hcase⟩ := chain_cases hl
    cases hn.symm.trans hn'
    obtain ⟨hlt, -⟩ | ⟨-, l', -, hl'⟩ := hcase
    · exact .inl hlt
    · exact .inr (up_ne_none.mp (hl'.there _ hl'.mem_self))
  dirfrag := h.named
  nref := h.counted.nref
  lookup i hi := by
    obtain ⟨l, hl⟩ := h.counted.chain i hi
    obtain ⟨t, ht, -⟩ := lookupFrom_spec h.counted.keyed l [] hl (length_le_card hl)
    rw [handleLookup, ht]
    rfl

theorem start_inv (parent : ℕ → Option Dirfrag) : Inv (start parent) where
  counted := ⟨⟨fun i hi => absurd hi (Finmap.notMem_empty), fun i n hn => by cases hn⟩,
    fun i hi => absurd hi Finmap.notMem_empty, nofun, fun i n hn => by cases hn⟩
  named i n hn := by cases hn
  moves atid p hp := by cases hp

end steps

/-- **The anchor table counts references**, in a run where no trace has anything
new to say of an anchor that stays. -/
theorem counts_references (parent : ℕ → Option Dirfrag) (s : State) (h : Run.Reach step Abreast (start parent) s) :
    Right s :=
  (h.inv Inv (start_inv parent) fun _ _ _ hi hok hs => step_inv hi hok hs).right

instance (parent : ℕ → Option Dirfrag) (ino : ℕ) (trace : List Anchor) : Decidable (Describes parent ino trace) :=
  decidable_of_iff ((∀ a ∈ trace, parent a.ino = some a.dirfrag ∧ inoBase ≤ a.ino) ∧
    (∀ a ∈ trace.head?, a.dirfrag.ino < inoBase) ∧ (trace.IsChain fun a b => b.dirfrag.ino = a.ino) ∧
    trace.getLast?.map (·.ino) = some ino)
    ⟨fun h => ⟨h.1, h.2.1, h.2.2.1, h.2.2.2⟩, fun h => ⟨h.places, h.first, h.next, h.last⟩⟩

instance (s : State) (a : Act) : Decidable (Proper s a) := by
  unfold Proper
  cases a <;> infer_instance

instance (m : AnchorMap) (goes : ℕ → Anchor → Bool) (trace : List Anchor) : Decidable (Agrees m goes trace) := by
  unfold Agrees
  infer_instance

instance (s : State) (a : Act) : Decidable (Abreast s a) := by
  unfold Abreast
  cases a <;> infer_instance

/-- Two directories in the root, and an inode in the first of them. -/
def places : ℕ → Option Dirfrag := fun i => [(2000, ⟨1, 0⟩), (2001, ⟨1, 0⟩), (2002, ⟨2000, 0⟩)].lookup i

/-- An inode is anchored, moved to the other directory, and its anchor destroyed while another inode is anchored there. -/
theorem counts_references_moved : ∃ s, Run.Reach step Abreast (start places) s ∧
    (s.table.anchorMap.lookup 2001).map (·.nref) = some 1 ∧ s.table.anchorMap.lookup 2002 = none ∧ Right s := by
  have hrun : ((Run.exec step Abreast [.create 2002 [⟨2000, ⟨1, 0⟩, 0⟩, ⟨2002, ⟨2000, 0⟩, 0⟩] 0, .commit 2,
      .update 2002 [⟨2001, ⟨1, 0⟩, 0⟩, ⟨2002, ⟨2001, 0⟩, 0⟩] 0, .move 2002 ⟨2001, 0⟩, .commit 4,
      .destroy 2002 0, .move 2003 ⟨2001, 0⟩, .create 2003 [⟨2001, ⟨1, 0⟩, 0⟩, ⟨2003, ⟨2001, 0⟩, 0⟩] 1, .commit 6]
        (start places)).map fun s => ((s.table.anchorMap.lookup 2001).map (·.nref), s.table.anchorMap.lookup 2002)) =
          some (some 1, none) := by decide +kernel
  obtain ⟨s, hs, heq⟩ := map_eq_some_iff.mp hrun
  obtain ⟨hone, hnone⟩ := Prod.mk.inj heq
  have hreach := Run.reach_of_exec hs
  exact ⟨s, hreach, hone, hnone, counts_references places s hreach⟩

/-- Moved into the second directory, the first stays where it was in the table,
and the second, named above an inode anchored there, is counted for nobody. -/
theorem counts_wrong : ¬ ∀ parent s, Run.Reach step Proper (start parent) s → Right s := by
  intro h
  have hrun : ((Run.exec step Proper [.create 2002 [⟨2000, ⟨1, 0⟩, 0⟩, ⟨2002, ⟨2000, 0⟩, 0⟩] 0, .commit 2,
      .move 2000 ⟨2001, 0⟩, .move 2003 ⟨2000, 0⟩,
      .create 2003 [⟨2001, ⟨1, 0⟩, 0⟩, ⟨2000, ⟨2001, 0⟩, 0⟩, ⟨2003, ⟨2000, 0⟩, 0⟩] 1] (start places)).map
        fun s => s.table.anchorMap.lookup 2001) = some (some ⟨2001, ⟨1, 0⟩, 0⟩) := by decide +kernel
  obtain ⟨s, hs, heq⟩ := map_eq_some_iff.mp hrun
  exact ((h places s (Run.reach_of_exec hs)).nref 2001 _ heq).2 rfl

end Anchors
end Ceph
