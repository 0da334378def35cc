/-
# Inode numbers are handed out once

Each rank has an `IdAllocator`: the set of free numbers, of which `alloc_id`
takes the lowest and to which `reclaim_id` gives one back. The table is saved
to an object of the rank and read from there when the rank starts again; a
rank that starts for the first time resets it to a range that depends on its
number.

A run interleaves the calls of all ranks with the writes on their way to the
disk and with crashes, at which a rank loses its table while writes it has
sent may still land. The lists of the numbers that a rank ever handed out and
of those not reclaimed since, and what a save of its last table would have
written, are there to state the theorem.

`reset` hands `insert` the end of the range where a length is asked for, so a
rank's free set begins where it should and ends behind the next ranks' ranges.
-/
import Ceph.Include.IntervalSet
import Ceph.Lib.Run
import Ceph.Lib.Wire

namespace Ceph
namespace IdAllocator

open List Option Function
open IntervalSet Wire

/-! ### The table -/

inductive State | undef | opening | active
deriving DecidableEq, Repr

/-- `IdAllocator`. `waitforSave` holds the callers of `save` by the version
they wait for. -/
structure Table where
  state : State
  version : ℕ
  committingVersion : ℕ
  committedVersion : ℕ
  free : IntervalSet
  waitforSave : List (ℕ × Option ℕ)
deriving DecidableEq, Repr

/-- The constructor. -/
def Table.new : Table := ⟨.undef, 0, 0, 0, empty, []⟩

/-- The build: numbers per rank (2^40, or 2^25 without `__LP64__`), and how
much of the table's object is read at once (`fl_stripe_unit`). -/
structure Config where
  width : ℕ
  stripeUnit : ℕ

/-- `alloc_id`; `none` is a failed assertion. -/
def allocId (a : Table) : Option (Table × ℕ) :=
  if a.state = .active then
    a.free.start.bind fun id =>
      (a.free.erase id 1).map fun free => ({ a with free := free, version := u64 (a.version + 1) }, id)
  else none

/-- `reclaim_id`. -/
def reclaimId (a : Table) (id : ℕ) : Option Table :=
  if a.state = .active then
    (a.free.insert id 1).map fun free => { a with free := free, version := u64 (a.version + 1) }
  else none

/-- `reset`, on rank `nodeid`. The second argument of `insert` is a length. -/
def reset (c : Config) (nodeid : ℕ) (a : Table) : Option Table :=
  let start := u64 ((nodeid + 1) <<< c.width)
  let stop := u64 (u64 ((nodeid + 2) <<< c.width) + (2 ^ 64 - 1))
  (a.free.clear.insert start stop).map fun free => { a with free := free, state := .active }

/-- `::_encode(free.m, bl)`. -/
def mapCodec : Codec (List (ℕ × ℕ)) := list (pair (raw 8) (raw 8))

/-- What `save` writes: the version and the map. -/
def written (version : ℕ) (m : Intervals) : Bytes := le 8 version ++ mapCodec.enc m

/-- `waitfor_save[v].push_back(onfinish)`. -/
def waitFor (l : List (ℕ × Option ℕ)) (v : ℕ) (onfinish : Option ℕ) : List (ℕ × Option ℕ) :=
  l.takeWhile (fun p => p.1 ≤ v) ++ (v, onfinish) :: l.dropWhile fun p => p.1 ≤ v

/-- `save`: the table, and what is sent to the disk. -/
def save (a : Table) (onfinish : Option ℕ) (v : ℕ) : Option (Table × Option Bytes) :=
  if 0 < v ∧ v ≤ a.committingVersion then
    some ({ a with waitforSave := waitFor a.waitforSave v onfinish }, none)
  else if a.state = .active then
    let waiting := if onfinish.isSome then waitFor a.waitforSave a.version onfinish else a.waitforSave
    some ({ a with committingVersion := a.version, waitforSave := waiting }, some (written a.version a.free.m))
  else none

/-- `save_2`: the table, and the callers told. -/
def save2 (a : Table) (v : ℕ) : Table × List (Option ℕ) :=
  ({ a with committedVersion := v, waitforSave := a.waitforSave.dropWhile fun p => p.1 ≤ v },
    (a.waitforSave.takeWhile fun p => p.1 ≤ v).map Prod.snd)

/-- `load`. -/
def load (a : Table) : Option Table :=
  if a.state = .undef then some { a with state := .opening } else none

/-- `load_2`, on what was read of the object. -/
def load2 (a : Table) (bl : Bytes) : Option Table :=
  if a.state = .opening ∧ 0 < bl.length then
    ((raw 8).dec bl).bind fun v => (mapCodec.dec v.2).map fun l =>
      { a with
        state := .active, version := v.1, committedVersion := v.1,
        free := { a.free with m := l.1.foldl (fun m p => put m p.1 p.2) [] } }
  else none

/-! ### The ranks -/

/-- A rank, its object on the disk and the writes on their way there: those of
this process, with the version `save_2` gets, and those an earlier one sent. -/
structure Rank where
  table : Table
  writes : List (ℕ × Bytes)
  orphans : List Bytes
  disk : Bytes
  /-- what a save of the last table would have written -/
  last : Option Bytes
  /-- the numbers handed out and not reclaimed -/
  taken : List ℕ
  /-- the numbers ever handed out -/
  ever : List ℕ
deriving DecidableEq, Repr

abbrev Ranks := ℕ → Rank

def Rank.new : Rank := ⟨.new, [], [], [], none, [], []⟩

def init : Ranks := fun _ => .new

inductive Act
  | reset
  | allocId
  | reclaimId (id : ℕ)
  | save (onfinish : Option ℕ) (need : ℕ)
  | written
  | landed
  | load
  | load2
  /-- the rank stops; the first `sent` of its writes are on their way -/
  | crash (sent : ℕ)
deriving DecidableEq, Repr

/-- A write to the front of the object. -/
def overwrite (disk bl : Bytes) : Bytes := bl ++ disk.drop bl.length

/-- What rank `n` does. -/
def act (c : Config) (n : ℕ) (r : Rank) : Act → Option Rank
  | .reset => (reset c n r.table).map fun a => { r with table := a }
  | .allocId => (allocId r.table).map fun p =>
      { r with table := p.1, taken := p.2 :: r.taken, ever := p.2 :: r.ever }
  | .reclaimId id => (reclaimId r.table id).map fun a => { r with table := a, taken := r.taken.erase id }
  | .save onfinish need => (save r.table onfinish need).map fun p =>
      { r with table := p.1, writes := r.writes ++ (p.2.map fun bl => (r.table.version, bl)).toList }
  | .written => match r.writes with
    | [] => none
    | (v, bl) :: rest => some { r with table := (save2 r.table v).1, writes := rest, disk := overwrite r.disk bl }
  | .landed => match r.orphans with
    | [] => none
    | bl :: rest => some { r with orphans := rest, disk := overwrite r.disk bl }
  | .load => (load r.table).map fun a => { r with table := a }
  | .load2 => (load2 r.table (r.disk.take c.stripeUnit)).map fun a => { r with table := a }
  | .crash sent => some { r with
      table := .new, writes := [], orphans := r.orphans ++ (r.writes.take sent).map Prod.snd,
      last := if r.table.state = .active then some (IdAllocator.written r.table.version r.table.free.m) else r.last }

def setRank (s : Ranks) (n : ℕ) (r : Rank) : Ranks := Function.update s n r

/-- One rank takes a step. -/
def step (c : Config) (s : Ranks) (a : ℕ × Act) : Option Ranks :=
  (act c a.1 (s a.1) a.2).map (setRank s a.1)

/-- What callers promise: a rank whose numbers do not overflow is reset while
nothing is taken, only numbers taken are reclaimed, and a table is read after a
save of its last version. -/
def Fair (c : Config) (s : Ranks) (a : ℕ × Act) : Prop :=
  match a.2 with
  | .reset => (s a.1).taken = [] ∧ a.1 + 2 < 2 ^ 31 ∧ (2 * a.1 + 3) <<< c.width ≤ 2 ^ 64
  | .reclaimId id => id ∈ (s a.1).taken
  | .load2 => ∃ bl ∈ (s a.1).last, bl <+: (s a.1).disk
  | _ => True

/-- `Fair`, and a number is taken only while the lowest free one lies in the
rank's own range. -/
def InRange (c : Config) (s : Ranks) (a : ℕ × Act) : Prop :=
  Fair c s a ∧ (a.2 = .allocId → ∀ id ∈ (s a.1).table.free.start, id < (a.1 + 2) <<< c.width)

instance (c : Config) (s : Ranks) (a : ℕ × Act) : Decidable (Fair c s a) := by
  unfold Fair
  split <;> infer_instance

instance (c : Config) (s : Ranks) (a : ℕ × Act) : Decidable (InRange c s a) :=
  inferInstanceAs (Decidable (_ ∧ _))

/-- The two builds. -/
def lp64 : Config := ⟨40, 1 <<< 22⟩

def ilp32 : Config := ⟨25, 1 <<< 22⟩

/-- No number is taken twice at a rank, nor ever handed out by two ranks. -/
def Distinct (s : Ranks) : Prop :=
  (∀ n, (s n).taken.Nodup) ∧ ∀ n n', n ≠ n' → ∀ id ∈ (s n).ever, id ∉ (s n').ever

/-! ### What the calls do -/

section calls

variable {c : Config} {a a' : Table} {n : ℕ}

/-- What `alloc_id` returns was free and the lowest such number, and is not free any more. -/
theorem allocId_spec {id : ℕ} (hw : Wf a.free.m) (h : allocId a = some (a', id)) :
    a.state = .active ∧ a'.state = .active ∧ a.free.start = some id ∧ Covers a.free.m id ∧ id + 1 < 2 ^ 64 ∧
      Wf a'.free.m ∧ ∀ x, Covers a'.free.m x ↔ Covers a.free.m x ∧ x ≠ id := by
  obtain ⟨hact, h⟩ := ite_none_right_eq_some.mp h
  obtain ⟨id', hstart, h⟩ := bind_eq_some_iff.mp h
  obtain ⟨free, herase, ⟨⟩⟩ := map_eq_some_iff.mp h
  obtain ⟨p, hp, rfl, hpos, -⟩ := start_spec hw hstart
  have hbound := hw.bound p hp
  obtain ⟨t, ht, hwt, hcov⟩ := erase_spec hw one_pos hp le_rfl (by omega)
  obtain rfl : t = free := some.inj (ht.symm.trans herase)
  refine ⟨hact, hact, hstart, ⟨p, hp, le_refl _, by omega⟩, by omega, hwt, fun x => ?_⟩
  have hx : ¬ (p.1 ≤ x ∧ x < p.1 + 1) ↔ x ≠ p.1 := by omega
  rw [hcov, hx]

/-- What `reclaim_id` gives back becomes free. -/
theorem reclaimId_spec {id : ℕ} (hw : Wf a.free.m) (hbound : id + 1 < 2 ^ 64) (hfree : ¬ Covers a.free.m id)
    (h : reclaimId a id = some a') :
    a.state = .active ∧ a'.state = .active ∧ Wf a'.free.m ∧ ∀ x, Covers a'.free.m x ↔ Covers a.free.m x ∨ x = id := by
  obtain ⟨hact, h⟩ := ite_none_right_eq_some.mp h
  obtain ⟨free, hins, rfl⟩ := map_eq_some_iff.mp h
  have hone : ∀ x, id ≤ x ∧ x < id + 1 ↔ x = id := fun x => by omega
  obtain ⟨t, ht, hwt, hcov⟩ := insert_spec hw one_pos hbound fun x h1 h2 => by
    rw [(hone x).mp ⟨h1, h2⟩]
    exact hfree
  obtain rfl : t = free := some.inj (ht.symm.trans hins)
  refine ⟨hact, hact, hwt, fun x => ?_⟩
  rw [hcov, hone]

/-- After `reset` the free numbers are one interval that begins with the
rank's range: `stop` of them. -/
theorem reset_spec (hrange : (2 * n + 3) <<< c.width ≤ 2 ^ 64) : reset c n a = some { a with
      free := ⟨[((n + 1) <<< c.width, (n + 2) <<< c.width - 1)], BitVec.ofNat 32 ((n + 2) <<< c.width - 1)⟩,
      state := .active } := by
  have hpos : 0 < 2 ^ c.width := Nat.two_pow_pos _
  have h2 : (2 * n + 3) * 2 ^ c.width = (n + 1) * 2 ^ c.width + (n + 2) * 2 ^ c.width := by ring
  have h1 : 2 ^ c.width ≤ (n + 1) * 2 ^ c.width := Nat.le_mul_of_pos_left _ (Nat.succ_pos n)
  have h3 : (n + 2) * 2 ^ c.width = (n + 1) * 2 ^ c.width + 2 ^ c.width := by ring
  have hstart : u64 ((n + 1) * 2 ^ c.width) = (n + 1) * 2 ^ c.width := u64_eq (by omega)
  have hstop : u64 (u64 ((n + 2) * 2 ^ c.width) + (2 ^ 64 - 1)) = (n + 2) * 2 ^ c.width - 1 := by
    have hinner : u64 ((n + 2) * 2 ^ c.width) = (n + 2) * 2 ^ c.width := u64_eq (by omega)
    have hwrap : (n + 2) * 2 ^ c.width + (2 ^ 64 - 1) = (n + 2) * 2 ^ c.width - 1 + 2 ^ 64 := by omega
    rw [hinner, hwrap, u64, Nat.add_mod_right, Nat.mod_eq_of_lt (by omega)]
  have hne : (n + 2) * 2 ^ c.width - 1 ≠ 0 := by omega
  simp only [reset, Nat.shiftLeft_eq, hstart, hstop]
  rw [IntervalSet.clear, IntervalSet.insert, if_neg hne]
  simp [empty, put]

/-- What `load_2` reads after a save of `m` is `m`, or its first part if the
count of its intervals does not fit the file. -/
theorem load2_spec {v : ℕ} {m : Intervals} {disk : Bytes} {k : ℕ} (hw : Wf m) (hdisk : written v m <+: disk)
    (h : load2 a (disk.take k) = some a') : a'.state = .active ∧ a'.free.m <+: m := by
  obtain ⟨-, h⟩ := ite_none_right_eq_some.mp h
  obtain ⟨q, hq, h⟩ := bind_eq_some_iff.mp h
  obtain ⟨l, hl, rfl⟩ := map_eq_some_iff.mp h
  obtain ⟨rest, rfl⟩ := hdisk
  refine ⟨rfl, ?_⟩
  have hq' := local_raw 8 _ q.1 q.2 ((written v m ++ rest).drop k) hq
  have hmap : mapCodec.Local := local_list ((local_raw 8).pair (local_raw 8))
  have hl' := hmap _ l.1 l.2 ((written v m ++ rest).drop k) hl
  have hver : (raw 8).dec (written v m ++ rest) = some (v % 256 ^ 8, mapCodec.enc m ++ rest) := by
    simp only [raw, written, List.append_assoc, takeBytes_append (length_le 8 v), map_some, unLe_le]
  rw [take_append_drop, hver] at hq'
  obtain ⟨-, htail⟩ := Prod.mk.inj (some.inj hq')
  obtain ⟨r, hr⟩ := dec_list (c := pair (raw 8) (raw 8)) (l := m) (fun p hp => by
    have := hw.bound p hp
    exact (reads_raw (show p.1 < 256 ^ 8 by omega)).pair (reads_raw (show p.2 < 256 ^ 8 by omega))) rest
  rw [← htail, mapCodec, hr] at hl'
  obtain ⟨hlist, -⟩ := Prod.mk.inj (some.inj hl')
  have hsub : l.1 <+: m := hlist ▸ List.take_prefix _ _
  have hpw : ([] ++ l.1 : Intervals).Pairwise fun p q => p.1 < q.1 :=
    (hw.sublist hsub.sublist).apart.imp fun h => Nat.lt_of_le_of_lt (Nat.le_add_right _ _) h
  rw [foldl_put l.1 [] hpw]
  exact hsub

end calls

/-! ### One rank's numbers -/

/-- The free numbers `m` of rank `n` come from its range on, and are not taken. -/
structure Free (c : Config) (n : ℕ) (taken : List ℕ) (m : Intervals) : Prop where
  wf : Wf m
  low : ∀ x, Covers m x → (n + 1) <<< c.width ≤ x
  apart : ∀ x, Covers m x → x ∉ taken

/-- What holds of rank `n`. -/
structure Inv (c : Config) (n : ℕ) (r : Rank) : Prop where
  nodup : r.taken.Nodup
  sub : ∀ id ∈ r.taken, id ∈ r.ever
  own : ∀ id ∈ r.ever, (n + 1) <<< c.width ≤ id ∧ id < (n + 2) <<< c.width ∧ id + 1 < 2 ^ 64
  live : r.table.state = .active → Free c n r.taken r.table.free.m
  saved : r.table.state ≠ .active → ∀ bl ∈ r.last, ∃ v m, bl = written v m ∧ Free c n r.taken m

theorem Free.sublist {c : Config} {n : ℕ} {taken : List ℕ} {m m' : Intervals} (h : Free c n taken m)
    (hs : m' <+: m) : Free c n taken m' where
  wf := h.wf.sublist hs.sublist
  low x hx := by
    obtain ⟨p, hp, hx⟩ := hx
    exact h.low x ⟨p, hs.subset hp, hx⟩
  apart x hx := by
    obtain ⟨p, hp, hx⟩ := hx
    exact h.apart x ⟨p, hs.subset hp, hx⟩

theorem inv_new (c : Config) (n : ℕ) : Inv c n .new := ⟨.nil, nofun, nofun, nofun, nofun⟩

section step

variable {c : Config} {n : ℕ} {r r' : Rank}

section

variable (h : Inv c n r)
include h

theorem Inv.of_same (htaken : r'.taken = r.taken) (hever : r'.ever = r.ever)
    (hstate : r'.table.state = .active ↔ r.table.state = .active) (hfree : r'.table.free = r.table.free)
    (hlast : r'.last = r.last) : Inv c n r' := by
  obtain ⟨h1, h2, h3, h4, h5⟩ := h
  refine ⟨htaken ▸ h1, htaken ▸ hever ▸ h2, hever ▸ h3, fun hact => ?_, fun hact bl hbl => ?_⟩
  · rw [htaken, hfree]
    exact h4 (hstate.mp hact)
  · rw [htaken]
    exact h5 (fun hr => hact (hstate.mpr hr)) bl (hlast ▸ hbl)

theorem inv_reset (htaken : r.taken = []) (hrange : (2 * n + 3) <<< c.width ≤ 2 ^ 64)
    (hr : act c n r .reset = some r') : Inv c n r' := by
  rw [act, reset_spec hrange] at hr
  cases hr
  refine ⟨h.nodup, h.sub, h.own, fun _ => ?_, fun hact => absurd rfl hact⟩
  simp only [Nat.shiftLeft_eq] at hrange ⊢
  have hpos : 0 < 2 ^ c.width := Nat.two_pow_pos _
  have hsum : (2 * n + 3) * 2 ^ c.width = (n + 1) * 2 ^ c.width + (n + 2) * 2 ^ c.width := by ring
  have hlen : 2 * 2 ^ c.width ≤ (n + 2) * 2 ^ c.width := Nat.mul_le_mul_right _ (by omega)
  have hwf : Wf [((n + 1) * 2 ^ c.width, (n + 2) * 2 ^ c.width - 1)] := wf_singleton (by omega) (by omega)
  refine ⟨hwf, fun x hx => ?_, fun x _ => ?_⟩
  · obtain ⟨p, hp, hx⟩ := hx
    rw [mem_singleton.mp hp] at hx
    rw [Nat.shiftLeft_eq]
    exact hx.1
  · rw [htaken]
    exact not_mem_nil

theorem inv_allocId (hown : ∀ id ∈ r.table.free.start, id < (n + 2) <<< c.width)
    (hr : act c n r .allocId = some r') : Inv c n r' := by
  obtain ⟨⟨a', id⟩, ha, rfl⟩ := map_eq_some_iff.mp hr
  have hfree := h.live (ite_none_right_eq_some.mp ha).1
  obtain ⟨hact, hact', hstart, hcov, hbound, hwf, hcov'⟩ := allocId_spec hfree.wf ha
  refine ⟨nodup_cons.mpr ⟨hfree.apart id hcov, h.nodup⟩, fun x hx => ?_, fun x hx => ?_, fun _ => ?_,
    fun hna => absurd hact' hna⟩
  · obtain rfl | hx := mem_cons.mp hx
    · exact mem_cons_self
    · exact mem_cons_of_mem _ (h.sub x hx)
  · obtain rfl | hx := mem_cons.mp hx
    · exact ⟨hfree.low x hcov, hown x hstart, hbound⟩
    · exact h.own x hx
  · refine ⟨hwf, fun x hx => hfree.low x ((hcov' x).mp hx).1, fun x hx hmem => ?_⟩
    obtain ⟨hx, hne⟩ := (hcov' x).mp hx
    obtain heq | hmem := mem_cons.mp hmem
    · exact hne heq
    · exact hfree.apart x hx hmem

theorem inv_reclaimId {id : ℕ} (hid : id ∈ r.taken) (hr : act c n r (.reclaimId id) = some r') :
    Inv c n r' := by
  obtain ⟨a', ha, rfl⟩ := map_eq_some_iff.mp hr
  have hfree := h.live (ite_none_right_eq_some.mp ha).1
  obtain ⟨hlow, -, hbound⟩ := h.own id (h.sub id hid)
  obtain ⟨hact, hact', hwf, hcov⟩ := reclaimId_spec hfree.wf hbound (fun hc => hfree.apart id hc hid) ha
  refine ⟨h.nodup.erase id, fun x hx => h.sub x (mem_of_mem_erase hx), h.own, fun _ => ?_,
    fun hna => absurd hact' hna⟩
  refine ⟨hwf, fun x hx => ?_, fun x hx hmem => ?_⟩
  · obtain hx | rfl := (hcov x).mp hx
    · exact hfree.low x hx
    · exact hlow
  · obtain hx | rfl := (hcov x).mp hx
    · exact hfree.apart x hx (mem_of_mem_erase hmem)
    · exact h.nodup.not_mem_erase hmem

theorem inv_load2 (hdisk : ∃ bl ∈ r.last, bl <+: r.disk) (hr : act c n r .load2 = some r') :
    Inv c n r' := by
  obtain ⟨a', ha, rfl⟩ := map_eq_some_iff.mp hr
  obtain ⟨⟨hopening, -⟩, -⟩ := ite_none_right_eq_some.mp ha
  obtain ⟨bl, hbl, hpre⟩ := hdisk
  obtain ⟨v, m, rfl, hfree⟩ := h.saved (by rw [hopening]; decide) bl hbl
  obtain ⟨hact, hsub⟩ := load2_spec hfree.wf hpre ha
  exact ⟨h.nodup, h.sub, h.own, fun _ => hfree.sublist hsub, fun hna => absurd hact hna⟩

theorem inv_crash {sent : ℕ} (hr : act c n r (.crash sent) = some r') : Inv c n r' := by
  cases hr
  refine ⟨h.nodup, h.sub, h.own, nofun, fun _ bl hbl => ?_⟩
  by_cases hact : r.table.state = .active
  · rw [if_pos hact] at hbl
    exact ⟨_, _, (some.inj hbl).symm, h.live hact⟩
  · rw [if_neg hact] at hbl
    exact h.saved hact bl hbl

theorem inv_save {onfinish : Option ℕ} {need : ℕ} (hr : act c n r (.save onfinish need) = some r') :
    Inv c n r' := by
  obtain ⟨p, hp, rfl⟩ := map_eq_some_iff.mp hr
  rw [save] at hp
  split at hp
  · cases hp
    exact h.of_same rfl rfl .rfl rfl rfl
  · obtain ⟨-, ⟨⟩⟩ := ite_none_right_eq_some.mp hp
    exact h.of_same rfl rfl .rfl rfl rfl

end

/-- **One step.** What holds of a rank is kept by each of its steps. -/
theorem inv_act {s : Ranks} {a : Act} (h : Inv c n (s n)) (hok : InRange c s (n, a)) (hr : act c n (s n) a = some r') :
    Inv c n r' := by
  cases a with
  | reset => exact inv_reset h hok.1.1 hok.1.2.2 hr
  | allocId => exact inv_allocId h (hok.2 rfl) hr
  | reclaimId id => exact inv_reclaimId h hok.1 hr
  | save onfinish need => exact inv_save h hr
  | written =>
    rw [act] at hr
    split at hr
    · cases hr
    · cases hr
      exact h.of_same rfl rfl .rfl rfl rfl
  | landed =>
    rw [act] at hr
    split at hr
    · cases hr
    · cases hr
      exact h.of_same rfl rfl .rfl rfl rfl
  | load =>
    obtain ⟨a', ha, rfl⟩ := map_eq_some_iff.mp hr
    obtain ⟨hundef, ⟨⟩⟩ := ite_none_right_eq_some.mp ha
    refine h.of_same rfl rfl ?_ rfl rfl
    rw [hundef]
    exact ⟨nofun, nofun⟩
  | load2 => exact inv_load2 h hok.1 hr
  | crash sent => exact inv_crash h hr

theorem inv_step {s s' : Ranks} {a : ℕ × Act} (h : ∀ n, Inv c n (s n)) (hok : InRange c s a)
    (hs : step c s a = some s') : ∀ n, Inv c n (s' n) := by
  obtain ⟨r', hr, rfl⟩ := map_eq_some_iff.mp hs
  intro n
  by_cases hn : n = a.1
  · subst hn
    rw [setRank, update_self]
    exact inv_act (h a.1) hok hr
  · rw [setRank, update_of_ne hn]
    exact h n

end step

theorem range_disjoint {n n' w id : ℕ} (hne : n ≠ n') (h : (n + 1) <<< w ≤ id ∧ id < (n + 2) <<< w) :
    ¬ ((n' + 1) <<< w ≤ id ∧ id < (n' + 2) <<< w) := by
  rintro ⟨h1, h2⟩
  rcases lt_or_gt_of_ne hne with hlt | hgt
  · have : (n + 2) * 2 ^ w ≤ (n' + 1) * 2 ^ w := Nat.mul_le_mul_right _ (by omega)
    omega
  · have : (n' + 2) * 2 ^ w ≤ (n + 1) * 2 ^ w := Nat.mul_le_mul_right _ (by omega)
    omega

/-- **No number is handed out twice** in a run whose ranks take numbers of
their own ranges only. -/
theorem never_twice (c : Config) (s : Ranks) (h : Run.Reach (step c) (InRange c) init s) : Distinct s := by
  have hinv : ∀ n, Inv c n (s n) :=
    h.inv (fun s => ∀ n, Inv c n (s n)) (fun n => inv_new c n) fun s a s' hi hok hs => inv_step hi hok hs
  refine ⟨fun n => (hinv n).nodup, fun n n' hne id hid hid' => ?_⟩
  obtain ⟨h1, h2, -⟩ := (hinv n).own id hid
  obtain ⟨h1', h2', -⟩ := (hinv n').own id hid'
  exact range_disjoint hne ⟨h1, h2⟩ ⟨h1', h2'⟩

/-- Two ranks reset and take a number each; the first saves, stops, reads its
table again and takes the next. -/
theorem never_twice_restart : ∃ s, Run.Reach (step lp64) (InRange lp64) init s ∧
    (s 0).ever = [2 ^ 40 + 1, 2 ^ 40] ∧ (s 1).ever = [2 ^ 41] ∧ Distinct s := by
  have hrun : ((Run.exec (step lp64) (InRange lp64)
      [(0, .reset), (1, .reset), (0, .allocId), (1, .allocId), (0, .save (some 7) 0), (0, .written), (0, .crash 0),
        (0, .load), (0, .load2), (0, .allocId)] init).map fun s => ((s 0).ever, (s 1).ever)) =
      some ([2 ^ 40 + 1, 2 ^ 40], [2 ^ 41]) := by decide +kernel
  obtain ⟨s, hs, heq⟩ := map_eq_some_iff.mp hrun
  obtain ⟨h0, h1⟩ := Prod.mk.inj heq
  have hreach := Run.reach_of_exec hs
  exact ⟨s, hreach, h0, h1, never_twice lp64 s hreach⟩

/-! ### Where the ranges meet -/

section collide

variable {c : Config}

theorem allocId_interval {a : Table} {f l : ℕ} (hact : a.state = .active) (hm : a.free.m = [(f, l + 1)])
    (hl : 0 < l) (hbound : f + (l + 1) < 2 ^ 64) :
    ∃ a', allocId a = some (a', f) ∧ a'.state = .active ∧ a'.free.m = [(f + 1, l)] := by
  have hstart : a.free.start = some f := by
    rw [IntervalSet.start, hm]
    rfl
  have hfind : findInc [(f, l + 1)] f = 0 := findBy_first _ (by simp)
  have herase : a.free.erase f 1 = some ⟨[(f + 1, l)], a.free.size - 1⟩ := by
    have hnext : u64 (f + 1) = f + 1 := u64_eq (by omega)
    have hone : u64 1 ≤ l + 1 := by
      rw [u64_eq (by decide)]
      omega
    simp [IntervalSet.erase, hm, hfind, hone, hnext, put, ne_of_gt hl]
  rw [allocId, if_pos hact, hstart, bind_some, herase]
  exact ⟨_, rfl, hact, rfl⟩

/-- Rank 0 has taken the first `k` numbers of its range, and rank 1 the first of its own. -/
theorem reach_taken (hw2 : 2 ≤ c.width) (hw : c.width ≤ 40) : ∀ k, k ≤ 2 ^ c.width →
    ∃ s, Run.Reach (step c) (Fair c) init s ∧ (s 0).table.state = .active ∧
      (s 0).table.free.m = [(2 ^ c.width + k, 2 * 2 ^ c.width - 1 - k)] ∧ 2 * 2 ^ c.width ∈ (s 1).ever := by
  have hle : 2 ^ c.width ≤ 2 ^ 40 := Nat.pow_le_pow_right (by decide) hw
  have hge : 2 ^ 2 ≤ 2 ^ c.width := Nat.pow_le_pow_right (by decide) hw2
  have hfits : ∀ n, n ≤ 1 → (2 * n + 3) <<< c.width ≤ 2 ^ 64 := fun n hn => by
    rw [Nat.shiftLeft_eq]
    calc (2 * n + 3) * 2 ^ c.width ≤ 5 * 2 ^ 40 := Nat.mul_le_mul (by omega) hle
      _ ≤ 2 ^ 64 := by decide
  intro k
  induction k with
  | zero =>
    intro _
    -- both ranks reset, and rank 1 takes a number
    let r0 : Rank := { Rank.new with table := { Table.new with
      free := ⟨[((0 + 1) <<< c.width, (0 + 2) <<< c.width - 1)], BitVec.ofNat 32 ((0 + 2) <<< c.width - 1)⟩,
      state := .active } }
    let t1 : Table := { Table.new with
      free := ⟨[((1 + 1) <<< c.width, (1 + 2) <<< c.width - 1)], BitVec.ofNat 32 ((1 + 2) <<< c.width - 1)⟩,
      state := .active }
    let s0 := setRank init 0 r0
    let s1 := setRank s0 1 { Rank.new with table := t1 }
    have hs0 : step c init (0, .reset) = some s0 := by
      simp only [step, act, init, Rank.new, reset_spec (hfits 0 (by omega))]
      rfl
    have hs1 : step c s0 (1, .reset) = some s1 := by
      have hget : s0 1 = Rank.new := update_of_ne (by decide) _ _
      simp only [step, act, hget, Rank.new, reset_spec (hfits 1 (by omega))]
      rfl
    have hm1 : t1.free.m = [(2 * 2 ^ c.width, 3 * 2 ^ c.width - 2 + 1)] := by
      show [((1 + 1) <<< c.width, (1 + 2) <<< c.width - 1)] = _
      rw [Nat.shiftLeft_eq, Nat.shiftLeft_eq, show (1 + 2) * 2 ^ c.width - 1 = 3 * 2 ^ c.width - 2 + 1 by omega]
    obtain ⟨a', ha', -, -⟩ := allocId_interval (a := t1) rfl hm1 (by omega) (by omega)
    let s2 := setRank s1 1 { Rank.new with table := a', taken := [2 * 2 ^ c.width], ever := [2 * 2 ^ c.width] }
    have hs2 : step c s1 (1, .allocId) = some s2 := by
      have hget : s1 1 = { Rank.new with table := t1 } := update_self ..
      simp only [step, act, hget, ha']
      rfl
    have hok0 : Fair c init (0, .reset) := ⟨rfl, by decide, hfits 0 (by omega)⟩
    have hok1 : Fair c s0 (1, .reset) := ⟨rfl, by decide, hfits 1 (by omega)⟩
    have hok2 : Fair c s1 (1, .allocId) := trivial
    have hreach : Run.Reach (step c) (Fair c) init s2 := ((Run.Reach.init.step _ hok0 hs0).step _ hok1 hs1).step _ hok2 hs2
    have hr0 : s2 0 = r0 := by
      show setRank (setRank (setRank init 0 r0) 1 _) 1 _ 0 = r0
      rw [setRank, update_of_ne (by decide), setRank, update_of_ne (by decide), setRank,
        update_self]
    have hr1 : (s2 1).ever = [2 * 2 ^ c.width] := by
      show (setRank _ 1 _ 1).ever = _
      rw [setRank, update_self]
    refine ⟨s2, hreach, ?_, ?_, ?_⟩
    · rw [hr0]
    · rw [hr0]
      show [((0 + 1) <<< c.width, (0 + 2) <<< c.width - 1)] = _
      rw [Nat.shiftLeft_eq, Nat.shiftLeft_eq, Nat.zero_add, Nat.zero_add, Nat.one_mul, Nat.add_zero, Nat.sub_zero]
    · rw [hr1]
      exact mem_singleton_self _
  | succ k ih =>
    intro hk
    obtain ⟨s, hs, hact, hm, hever⟩ := ih (by omega)
    obtain ⟨l, hl⟩ : ∃ l, 2 * 2 ^ c.width - 1 - k = l + 1 := ⟨2 * 2 ^ c.width - 2 - k, by omega⟩
    rw [hl] at hm
    obtain ⟨a', ha', hact', hm'⟩ := allocId_interval hact hm (by omega) (by omega)
    have hstep : step c s (0, .allocId) = some (setRank s 0
        { s 0 with table := a', taken := (2 ^ c.width + k) :: (s 0).taken, ever := (2 ^ c.width + k) :: (s 0).ever }) := by
      simp only [step, act, ha']
      rfl
    refine ⟨_, hs.step (0, .allocId) trivial hstep, hact', ?_, ?_⟩
    · show a'.free.m = _
      rw [hm', show 2 * 2 ^ c.width - 1 - (k + 1) = l by omega, add_assoc]
    · rw [setRank, update_of_ne (by decide)]
      exact hever

theorem reach_shared (hw2 : 2 ≤ c.width) (hw : c.width ≤ 40) : ∃ s, Run.Reach (step c) (Fair c) init s ∧ ¬ Distinct s := by
  obtain ⟨s, hs, hact, hm, hever⟩ := reach_taken hw2 hw (2 ^ c.width) le_rfl
  have hle : 2 ^ c.width ≤ 2 ^ 40 := Nat.pow_le_pow_right (by decide) hw
  have hge : 2 ^ 2 ≤ 2 ^ c.width := Nat.pow_le_pow_right (by decide) hw2
  have hm' : (s 0).table.free.m = [(2 * 2 ^ c.width, 2 ^ c.width - 2 + 1)] := by
    rw [hm, show 2 ^ c.width + 2 ^ c.width = 2 * 2 ^ c.width by ring,
      show 2 * 2 ^ c.width - 1 - 2 ^ c.width = 2 ^ c.width - 2 + 1 by omega]
  obtain ⟨a', ha', -, -⟩ := allocId_interval hact hm' (by omega) (by omega)
  have hstep : step c s (0, .allocId) = some (setRank s 0
      { s 0 with table := a', taken := (2 * 2 ^ c.width) :: (s 0).taken, ever := (2 * 2 ^ c.width) :: (s 0).ever }) := by
    simp only [step, act, ha']
    rfl
  refine ⟨_, hs.step (0, .allocId) trivial hstep, fun hd => hd.2 0 1 (by decide) (2 * 2 ^ c.width) ?_ ?_⟩
  · rw [setRank, update_self]
    exact mem_cons_self
  · rw [setRank, update_of_ne (by decide)]
    exact hever

end collide

/-- In either build, rank 0 runs into the numbers of rank 1 once its own are
taken: the end that `reset` hands on as a length lets it. -/
theorem ranges_collide :
    (¬ ∀ s, Run.Reach (step lp64) (Fair lp64) init s → Distinct s) ∧
      ¬ ∀ s, Run.Reach (step ilp32) (Fair ilp32) init s → Distinct s := by
  constructor
  · obtain ⟨s, hs, hd⟩ := reach_shared (c := lp64) (by decide) (by decide)
    exact fun h => hd (h s hs)
  · obtain ⟨s, hs, hd⟩ := reach_shared (c := ilp32) (by decide) (by decide)
    exact fun h => hd (h s hs)

end IdAllocator
end Ceph
