/-
# Mapping a read to buffer heads

`Object::map_read` walks over the buffer heads (`ObjectCacher`) of the extent that is read, from the
one that its first byte is in, and adds a missing head for each gap. What it passes is
put in one of three maps, by its state, under the byte where its part of the extent
begins. It asserts that no head was missing before: `readx` reads those it gets at once.

Over it stands `gapless`, a list of heads with the gaps of a range filled. `map_read`
gives those of them that overlap the extent, each in the map of its state, so that each byte is
in exactly one of them.
-/
import Ceph.Osdc.ObjectCacher
import Ceph.Osdc.Striping

namespace Ceph
namespace Osdc
namespace ObjectCacher

open List Keyed
open Option hiding max_eq_right max_le min_eq_right min_le_left min_le_right

/-! ### The code -/

/-- The object, and the maps from a byte to a head that begins there or before it. -/
structure ReadMaps where
  ob : Object
  hits : List (ℕ × ℕ)                   -- map<off_t, BufferHead*>
  missing : List (ℕ × ℕ)
  rx : List (ℕ × ℕ)

/-- `m[cur] = bh`. -/
def place (cur k : ℕ) (m : List (ℕ × ℕ)) : List (ℕ × ℕ) := Keyed.insert Prod.fst (cur, k) m

/-- A head that is there is a hit, or on its way. -/
def hitHead (cur : ℕ) (e : BufferHead) (r : ReadMaps) : Option ReadMaps :=
  match e.state with
  | .clean | .dirty | .tx => some { r with hits := place cur e.start r.hits }
  | .rx => some { r with rx := place cur e.start r.rx }
  | .missing => none

/-- A new head for a gap. -/
def missHead (n : BufferHead) (r : ReadMaps) : Option ReadMaps :=
  (bhAdd n r.ob).map fun ob => { r with ob := ob, missing := place n.start n.start r.missing }

/-- The loop of `map_read`, which takes a byte at least each time. -/
def mapReadLoop : ℕ → ReadMaps → Option ℕ → ℕ → ℕ → Option ReadMaps
  | 0, r, _, _, left => if left = 0 then some r else none
  | fuel + 1, r, p, cur, left =>
    if left = 0 then some r
    else
      match p with
      | none =>         -- at end?
        (missHead (BufferHead.new cur left) r).bind fun r => mapReadLoop fuel r none (cur + left) 0
      | some k => (r.ob.find k).bind fun e =>
        if k ≤ cur then
          (hitHead cur e r).bind fun r => (Keyed.next BufferHead.start k r.ob.data).bind fun p =>
            let lenfromcur := min (e.fin - cur) left
            mapReadLoop fuel r p (cur + lenfromcur) (left - lenfromcur)
        else
          let n := BufferHead.new cur (min (k - cur) left)
          (missHead n r).bind fun r =>
            mapReadLoop fuel r (some k) (cur + min left n.length) (left - min left n.length)

/-- `map_read`. -/
def mapRead (oid : ObjectT) (extents : List ObjectExtent) (ob : Object) : Option ReadMaps :=
  extents.foldlM (fun r ex =>
    if ex.oid ≠ oid then some r
    else mapReadLoop ex.length r (firstOverlap ex.start r.ob.data) ex.start ex.length) ⟨ob, [], [], []⟩

/-! ### What it is for -/

/-- The states of the heads in `hits`. -/
def State.Readable (s : State) : Prop := s = .clean ∨ s = .dirty ∨ s = .tx

instance (s : State) : Decidable s.Readable := inferInstanceAs (Decidable (_ ∨ _))

/-- A head has a byte of the extent. -/
def Overlaps (start length : ℕ) (bh : BufferHead) : Prop :=
  bh.start < start + length ∧ start < bh.fin ∧ 0 < length

instance (start length : ℕ) (bh : BufferHead) : Decidable (Overlaps start length bh) :=
  inferInstanceAs (Decidable (_ ∧ _))

/-- All entries of the maps. -/
def ReadMaps.entries (r : ReadMaps) : List (ℕ × ℕ) := r.hits ++ r.missing ++ r.rx

/-- A byte is in the head at `k`. -/
def Holds (ob : Object) (x k : ℕ) : Bool := (ob.find k).any fun bh => bh.start ≤ x ∧ x < bh.fin

/-- The entries of a map are heads of a kind, each under the first byte that it has of the extent. -/
def Classed (start length : ℕ) (ob : Object) (P : State → Prop) (m : List (ℕ × ℕ)) : Prop :=
  ∀ e ∈ m, ∃ bh, ob.find e.2 = some bh ∧ P bh.state ∧ Overlaps start length bh ∧ e.1 = max start bh.start

/-- Each byte of the extent is in exactly one entry, the entries are of the state of their map, and
the heads are those that were there and new ones for gaps of the extent. -/
structure Partitioned (others : State → ℤ) (start length : ℕ) (ob : Object) (r : ReadMaps) : Prop where
  tidy : Tidy r.ob.data
  counted : Counted others r.ob
  kept : ∀ bh ∈ ob.data, bh ∈ r.ob.data
  gaps : ∀ bh ∈ r.ob.data, bh ∈ ob.data ∨ (bh = BufferHead.new bh.start bh.length ∧
    start ≤ bh.start ∧ bh.fin ≤ start + length ∧ ∀ x, bh.start ≤ x → x < bh.fin → peek ob.data x = none)
  once : ∀ x, start ≤ x → x < start + length → r.entries.countP (fun e => Holds r.ob x e.2) = 1
  hits : Classed start length r.ob State.Readable r.hits
  missing : Classed start length r.ob (· = .missing) r.missing
  rx : Classed start length r.ob (· = .rx) r.rx
  created : ∀ e ∈ r.missing, ob.find e.2 = none

/-! ### A list of heads without gaps -/

/-- A missing head from `cur` to `fin`, unless that is empty. -/
def gap (cur fin : ℕ) : List BufferHead := if cur < fin then [BufferHead.new cur (fin - cur)] else []

/-- The gaps from `cur` to `fin` are filled. -/
def gapless (cur fin : ℕ) : List BufferHead → List BufferHead
  | [] => gap cur fin
  | bh :: post =>
    gap cur (min bh.start fin) ++ bh :: if fin ≤ bh.start then post else gapless bh.fin fin post

section fill

variable {pre post : List BufferHead} {bh : BufferHead} {cur fin x : ℕ}

theorem fin_new (h : cur ≤ fin) : (BufferHead.new cur (fin - cur)).fin = fin := Nat.add_sub_cancel' h

theorem mem_gap : bh ∈ gap cur fin ↔ cur < fin ∧ bh = BufferHead.new cur (fin - cur) := by
  unfold gap
  split_ifs with h
  · rw [mem_singleton, and_iff_right h]
  · exact iff_of_false not_mem_nil fun hb => h hb.1

theorem tidy_gap (cur fin : ℕ) : Tidy (gap cur fin) := by
  unfold gap
  split_ifs with h
  · exact tidy_cons.mpr ⟨⟨Nat.sub_pos_of_lt h, .inl rfl⟩, nofun, .nil, nofun, nofun⟩
  · exact ⟨.nil, nofun, nofun⟩

theorem mem_gapless_of_mem (h : bh ∈ post) : bh ∈ gapless cur fin post := by
  induction post generalizing cur with
  | nil => cases h
  | cons b post ih =>
    refine mem_append_right _ ?_
    rcases mem_cons.mp h with rfl | h
    · exact mem_cons_self
    · refine mem_cons_of_mem _ ?_
      split_ifs
      · exact h
      · exact ih h

/-- What is not a head from before is new, in a gap of the range. -/
theorem mem_gapless (ht : Tidy post) (hcur : ∀ b ∈ post, cur < b.fin) (h : bh ∈ gapless cur fin post) :
    bh ∈ post ∨ (bh = BufferHead.new bh.start bh.length ∧ 0 < bh.length ∧ cur ≤ bh.start ∧ bh.fin ≤ fin ∧
      ∀ b ∈ post, b.fin ≤ bh.start ∨ bh.fin ≤ b.start) := by
  induction post generalizing cur with
  | nil =>
    obtain ⟨hlt, rfl⟩ := mem_gap.mp h
    exact .inr ⟨rfl, Nat.sub_pos_of_lt hlt, le_rfl, (fin_new hlt.le).le, nofun⟩
  | cons b post ih =>
    obtain ⟨-, hafter, htpost⟩ := tidy_cons.mp ht
    have hb := ht.start_lt_fin mem_cons_self
    rcases mem_append.mp h with h | h
    · obtain ⟨hlt, rfl⟩ := mem_gap.mp h
      rw [fin_new hlt.le]
      refine .inr ⟨rfl, Nat.sub_pos_of_lt hlt, le_rfl, min_le_right _ _, ?_⟩
      refine forall_mem_cons.mpr ⟨.inr (min_le_left _ _), fun c hc => .inr ?_⟩
      exact (min_le_left _ _).trans (hb.le.trans (hafter c hc))
    · rcases mem_cons.mp h with rfl | h
      · exact .inl mem_cons_self
      · split_ifs at h
        · exact .inl (mem_cons_of_mem _ h)
        · have hcur' : ∀ c ∈ post, b.fin < c.fin := fun c hc => (hafter c hc).trans_lt (htpost.start_lt_fin hc)
          refine (ih htpost hcur' h).imp (mem_cons_of_mem _) ?_
          rintro ⟨hnew, hpos, hle, hfin, hapart⟩
          have hbcur := hcur b mem_cons_self
          exact ⟨hnew, hpos, hbcur.le.trans hle, hfin, forall_mem_cons.mpr ⟨.inl hle, hapart⟩⟩

/-- **The range is covered.** -/
theorem gapless_covers (hx : cur ≤ x ∧ x < fin) : ∃ b ∈ gapless cur fin post, b.start ≤ x ∧ x < b.fin := by
  induction post generalizing cur with
  | nil =>
    have hlt := hx.1.trans_lt hx.2
    refine ⟨_, mem_gap.mpr ⟨hlt, rfl⟩, hx.1, ?_⟩
    rw [fin_new hlt.le]
    exact hx.2
  | cons b post ih =>
    rcases lt_or_ge x b.start with hlow | hhigh
    · have hmin : x < min b.start fin := lt_min hlow hx.2
      have hlt := hx.1.trans_lt hmin
      refine ⟨_, mem_append_left _ (mem_gap.mpr ⟨hlt, rfl⟩), hx.1, ?_⟩
      rw [fin_new hlt.le]
      exact hmin
    · rcases lt_or_ge x b.fin with hin | hout
      · exact ⟨b, mem_append_right _ mem_cons_self, hhigh, hin⟩
      · obtain ⟨c, hc, hcx⟩ := @ih b.fin ⟨hout, hx.2⟩
        refine ⟨c, mem_append_right _ (mem_cons_of_mem _ ?_), hcx⟩
        rwa [if_neg (not_le.mpr (hhigh.trans_lt hx.2))]

theorem gapless_behind (hcur : fin ≤ cur) (hpost : ∀ b ∈ post, fin ≤ b.start) : gapless cur fin post = post := by
  cases post with
  | nil => exact if_neg (not_lt.mpr hcur)
  | cons b post =>
    have hempty : gap cur (min b.start fin) = [] := if_neg (not_lt.mpr ((min_le_right _ _).trans hcur))
    rw [gapless, hempty, if_pos (hpost b mem_cons_self)]
    rfl

theorem gapless_in_head (hle : bh.start ≤ cur) (hfin : cur < fin) :
    gapless cur fin (bh :: post) = bh :: gapless bh.fin fin post := by
  have hempty : gap cur (min bh.start fin) = [] := if_neg (not_lt.mpr ((min_le_left _ _).trans hle))
  rw [gapless, hempty, if_neg (not_le.mpr (hle.trans_lt hfin))]
  rfl

theorem gapless_in_gap (hlt : cur < bh.start) (hfin : cur < fin) : gapless cur fin (bh :: post) =
      BufferHead.new cur (min bh.start fin - cur) :: gapless (min bh.start fin) fin (bh :: post) := by
  have hempty : gap (min bh.start fin) (min bh.start fin) = [] := if_neg (lt_irrefl _)
  rw [gapless, gapless, hempty, gap, if_pos (lt_min hlt hfin)]
  rfl

/-- **The heads stay apart.** -/
theorem tidy_gapless (ht : Tidy post) (hcur : ∀ b ∈ post, cur < b.fin) : Tidy (gapless cur fin post) := by
  induction post generalizing cur with
  | nil => exact tidy_gap cur fin
  | cons b post ih =>
    obtain ⟨hb, hafter, htpost⟩ := tidy_cons.mp ht
    have hcur' : ∀ c ∈ post, b.fin < c.fin := fun c hc => (hafter c hc).trans_lt (htpost.start_lt_fin hc)
    have hrest : Tidy (b :: if fin ≤ b.start then post else gapless b.fin fin post) := by
      split_ifs
      · exact ht
      · refine tidy_cons.mpr ⟨hb, fun c hc => ?_, ih htpost hcur'⟩
        rcases mem_gapless htpost hcur' hc with hc | ⟨-, -, hle, -⟩
        · exact hafter c hc
        · exact hle
    refine tidy_append.mpr ⟨tidy_gap cur _, hrest, fun a ha c hc => ?_⟩
    obtain ⟨hlt, rfl⟩ := mem_gap.mp ha
    rw [fin_new hlt.le]
    refine (min_le_left _ _).trans ?_
    rcases mem_cons.mp hc with rfl | hc
    · exact le_rfl
    · exact (@Keyed.lt_after _ _ [] _ _ hrest.sorted c hc).le

end fill

/-! ### The loop -/

/-- The heads of a kind that overlap the extent, each under its first byte there. -/
def entriesOf (start length : ℕ) (P : State → Prop) [DecidablePred P] (l : List BufferHead) : List (ℕ × ℕ) :=
  (l.filter fun b => Overlaps start length b ∧ P b.state).map fun b => (max start b.start, b.start)

/-- The walk has passed `pre`, and has `post` to go. -/
structure Passed (others : State → ℤ) (start length : ℕ) (pre post : List BufferHead) (r : ReadMaps) : Prop where
  data : r.ob.data = pre ++ post
  counted : Counted others r.ob
  hits : r.hits = entriesOf start length State.Readable pre
  missing : r.missing = entriesOf start length (· = .missing) pre
  rx : r.rx = entriesOf start length (· = .rx) pre

/-- Where the walk is: the extent has `left` bytes to go, from `cur` on, and what it has passed ends there. -/
structure Walk (start length cur left : ℕ) (pre post : List BufferHead) : Prop where
  tidy : Tidy (pre ++ post)
  from_start : start ≤ cur
  to_end : cur + left = start + length
  passed : ∀ b ∈ pre, b.fin ≤ cur
  ahead : ∀ b ∈ post, cur < b.fin ∧ cur ≤ max start b.start
  present : ∀ b ∈ post, Overlaps start length b → b.state ≠ .missing

section loop

variable {pre post : List BufferHead} {bh : BufferHead} {others : State → ℤ} {ob : Object} {r : ReadMaps}
  {fuel start length cur left n : ℕ} {P : State → Prop} [DecidablePred P]

theorem entriesOf_append (l1 l2 : List BufferHead) :
    entriesOf start length P (l1 ++ l2) = entriesOf start length P l1 ++ entriesOf start length P l2 := by
  rw [entriesOf, filter_append, map_append]
  rfl

theorem entriesOf_singleton (h : Overlaps start length bh) :
    entriesOf start length P [bh] = if P bh.state then [(max start bh.start, bh.start)] else [] := by
  by_cases hP : P bh.state
  · rw [if_pos hP, entriesOf, filter_cons_of_pos (by simpa using ⟨h, hP⟩)]
    rfl
  · rw [if_neg hP, entriesOf, filter_cons_of_neg (by simpa using fun _ => hP)]
    rfl

theorem entriesOf_apart {l : List BufferHead} (h : ∀ b ∈ l, ¬ Overlaps start length b) :
    entriesOf start length P l = [] := by
  have hnone : l.filter (fun b => Overlaps start length b ∧ P b.state) = [] :=
    filter_eq_nil_iff.mpr fun b hb => by simpa using fun hin _ => h b hb hin
  rw [entriesOf, hnone]
  rfl

theorem place_next (ht : Tidy pre) (hpre : ∀ b ∈ pre, b.fin ≤ cur) (k : ℕ) :
    place cur k (entriesOf start length P pre) = entriesOf start length P pre ++ [(cur, k)] := by
  have hkeys : ∀ e ∈ entriesOf start length P pre, e.1 < cur := by
    refine List.forall_mem_map.mpr fun b hb => ?_
    obtain ⟨hmem, hin⟩ := mem_filter.mp hb
    have hover : Overlaps start length b := by simpa using (of_decide_eq_true hin).1
    have hle := hpre b hmem
    exact max_lt (hover.2.1.trans_le hle) ((ht.start_lt_fin hmem).trans_le hle)
  have hinsert := @Keyed.insert_cut _ Prod.fst _ [] (cur, k) hkeys nofun
  rwa [append_nil] at hinsert

theorem Passed.rest (h : Passed others start length pre post r) (hpost : ∀ b ∈ post, start + length ≤ b.start) :
    Passed others start length (pre ++ post) [] r := by
  have hapart : ∀ b ∈ post, ¬ Overlaps start length b := fun b hb hin => absurd hin.1 (not_lt.mpr (hpost b hb))
  refine ⟨by rw [h.data, append_nil], h.counted, ?_, ?_, ?_⟩
  · rw [entriesOf_append, entriesOf_apart hapart, append_nil, h.hits]
  · rw [entriesOf_append, entriesOf_apart hapart, append_nil, h.missing]
  · rw [entriesOf_append, entriesOf_apart hapart, append_nil, h.rx]

/-- **A head is passed**, and is put in the map of its state. -/
theorem Passed.hit (h : Passed others start length pre (bh :: post) r) (ht : Tidy pre)
    (hpre : ∀ b ∈ pre, b.fin ≤ cur) (hover : Overlaps start length bh) (hcur : cur = max start bh.start)
    (hstate : bh.state ≠ .missing) :
    ∃ r', hitHead cur bh r = some r' ∧ Passed others start length (pre ++ [bh]) post r' := by
  have hdata : r.ob.data = pre ++ [bh] ++ post := by rw [h.data, append_cons]
  have hsame : ∀ {P : State → Prop} [DecidablePred P], ¬ P bh.state →
      entriesOf start length P pre = entriesOf start length P (pre ++ [bh]) := fun hP => by
    rw [entriesOf_append, entriesOf_singleton hover, if_neg hP, append_nil]
  have hnext : ∀ {P : State → Prop} [DecidablePred P], P bh.state →
      place cur bh.start (entriesOf start length P pre) = entriesOf start length P (pre ++ [bh]) := fun hP => by
    rw [place_next ht hpre, entriesOf_append, entriesOf_singleton hover, if_pos hP, hcur]
  unfold hitHead
  cases hs : bh.state with
  | missing => exact absurd hs hstate
  | rx =>
    refine ⟨_, rfl, hdata, h.counted, ?_, ?_, ?_⟩
    · exact h.hits.trans (hsame (by rw [hs]; decide))
    · exact h.missing.trans (hsame (by rw [hs]; decide))
    · exact (congrArg _ h.rx).trans (hnext hs)
  | clean | dirty | tx =>
    refine ⟨_, rfl, hdata, h.counted, ?_, ?_, ?_⟩
    · exact (congrArg _ h.hits).trans (hnext (by rw [hs]; decide))
    · exact h.missing.trans (hsame (by rw [hs]; decide))
    · exact h.rx.trans (hsame (by rw [hs]; decide))

/-- **A gap is filled** with a head that is missing. -/
theorem Passed.miss (h : Passed others start length pre post r) (ht : Tidy (pre ++ post))
    (hpre : ∀ b ∈ pre, b.fin ≤ cur) (hpost : ∀ b ∈ post, cur < b.start)
    (hcur : start ≤ cur) (hn : 0 < n) (hfin : cur + n ≤ start + length) :
    ∃ r', missHead (BufferHead.new cur n) r = some r' ∧
      Passed others start length (pre ++ [BufferHead.new cur n]) post r' := by
  obtain ⟨⟨data, stat⟩, hits, missing, rx⟩ := r
  obtain ⟨hdata, hcounted, hhits, hmissing, hrx⟩ := h
  obtain rfl : data = pre ++ post := hdata
  have hover : Overlaps start length (BufferHead.new cur n) := by
    refine ⟨(Nat.lt_add_of_pos_right hn).trans_le hfin, hcur.trans_lt ?_, by omega⟩
    exact Nat.lt_add_of_pos_right hn
  have hstate : (BufferHead.new cur n).state = .missing := rfl
  have hbefore := starts_before ht hpre
  have hadd : bhAdd (BufferHead.new cur n) ⟨pre ++ post, stat⟩ = _ := bhAdd_cut hbefore hpost
  have hplace := @place_next _ start length _ (· = .missing) _ (tidy_append.mp ht).1 hpre cur
  rw [missHead, hadd, map_some]
  refine ⟨_, rfl, ?_, counted_add hcounted, ?_, ?_, ?_⟩
  · exact append_cons pre _ post
  · rw [entriesOf_append, entriesOf_singleton hover, if_neg (by rw [hstate]; decide), append_nil]
    exact hhits
  · rw [entriesOf_append, entriesOf_singleton hover, if_pos hstate]
    have hmax : max start (BufferHead.new cur n).start = cur := max_eq_right hcur
    rw [hmax]
    exact (congrArg _ hmissing).trans hplace
  · rw [entriesOf_append, entriesOf_singleton hover, if_neg (by rw [hstate]; decide), append_nil]
    exact hrx

theorem Walk.after (h : Walk start length cur left pre (bh :: post))
    (hfin : bh.fin ≤ start + length) :
    Walk start length bh.fin (left - (bh.fin - cur)) (pre ++ [bh]) post := by
  have htidy := h.tidy
  rw [append_cons] at htidy
  obtain ⟨-, htpost, hcross⟩ := tidy_append.mp htidy
  have hafter := hcross bh (mem_append_right _ (mem_singleton_self bh))
  have hcur := (h.ahead bh mem_cons_self).1
  have hend := h.to_end
  refine ⟨htidy, h.from_start.trans hcur.le, by omega, ?_, fun b hb => ⟨?_, ?_⟩, ?_⟩
  · exact forall_mem_append.mpr ⟨fun b hb => (h.passed b hb).trans hcur.le, forall_mem_singleton.mpr le_rfl⟩
  · exact (hafter b hb).trans_lt (htpost.start_lt_fin hb)
  · exact (hafter b hb).trans (le_max_right _ _)
  · exact (forall_mem_cons.mp h.present).2

theorem Walk.after_gap (h : Walk start length cur left pre post) (hn : 0 < n) (hle : n ≤ left)
    (hpost : ∀ b ∈ post, cur + n ≤ b.start) :
    Walk start length (cur + n) (left - n) (pre ++ [BufferHead.new cur n]) post := by
  obtain ⟨htpre, htpost, hcross⟩ := tidy_append.mp h.tidy
  have hend := h.to_end
  refine ⟨?_, h.from_start.trans (Nat.le_add_right _ _), by omega, ?_, fun b hb => ⟨?_, ?_⟩, h.present⟩
  · rw [← append_cons]
    exact tidy_cut.mpr ⟨htpre, htpost, ⟨hn, .inl rfl⟩, h.passed, hpost, hcross⟩
  · refine forall_mem_append.mpr ⟨fun b hb => ?_, forall_mem_singleton.mpr le_rfl⟩
    exact (h.passed b hb).trans (Nat.le_add_right _ _)
  · exact (hpost b hb).trans_lt (htpost.start_lt_fin hb)
  · exact (hpost b hb).trans (le_max_right _ _)

theorem Walk.behind (h : Walk start length cur 0 pre post) (hpos : 0 < length) :
    ∀ b ∈ post, start + length ≤ b.start := by
  intro b hb
  have hahead := (h.ahead b hb).2
  have hend := h.to_end
  rw [add_zero] at hend
  rw [hend] at hahead
  exact (le_max_iff.mp hahead).resolve_left (by omega)

theorem mapReadLoop_zero (fuel : ℕ) (r : ReadMaps) (p : Option ℕ) (cur : ℕ) : mapReadLoop fuel r p cur 0 = some r := by
  cases fuel <;> exact if_pos rfl

theorem Passed.done (hr : Passed others start length pre post r) (hw : Walk start length cur 0 pre post)
    (hpos : 0 < length) :
    Passed others start length (pre ++ gapless cur (start + length) post) [] r := by
  have hbehind := hw.behind hpos
  have hend := hw.to_end
  rw [add_zero] at hend
  rw [gapless_behind hend.ge hbehind]
  exact hr.rest hbehind

section

variable (hw : Walk start length cur left pre (bh :: post)) (hr : Passed others start length pre (bh :: post) r)
include hw hr

theorem turn_hit (hleft : left ≠ 0) (hle : bh.start ≤ cur) :
    ∃ r', Passed others start length (pre ++ [bh]) post r' ∧
      mapReadLoop (fuel + 1) r (some bh.start) cur left =
        mapReadLoop fuel r' (Keyed.first BufferHead.start post) (cur + min (bh.fin - cur) left)
          (left - min (bh.fin - cur) left) := by
  have hend := hw.to_end
  have hstart := hw.from_start
  obtain ⟨hcur, hmax⟩ := hw.ahead bh mem_cons_self
  have hover : Overlaps start length bh := ⟨hle.trans_lt (by omega), hstart.trans_lt hcur, by omega⟩
  have hkey : cur = max start bh.start := le_antisymm hmax (max_le hstart hle)
  have hpresent := hw.present bh mem_cons_self hover
  obtain ⟨r', hhit, hr'⟩ := hr.hit (tidy_append.mp hw.tidy).1 hw.passed hover hkey hpresent
  refine ⟨r', hr', ?_⟩
  have hsorted := hw.tidy.sorted
  have hdata : r'.ob.data = pre ++ bh :: post := by rw [hr'.data, ← append_cons]
  rw [mapReadLoop, if_neg hleft, Object.find, hr.data, Keyed.find_cut hsorted, bind_some, if_pos hle, hhit,
    bind_some, hdata, Keyed.next_cut hsorted, bind_some]

theorem turn_gap (hleft : 0 < left) (hgap : cur < bh.start) :
    ∃ r', Walk start length (cur + min (bh.start - cur) left) (left - min (bh.start - cur) left)
        (pre ++ [BufferHead.new cur (min (bh.start - cur) left)]) (bh :: post) ∧
      Passed others start length (pre ++ [BufferHead.new cur (min (bh.start - cur) left)]) (bh :: post) r' ∧
      mapReadLoop (fuel + 1) r (some bh.start) cur left =
        mapReadLoop fuel r' (some bh.start) (cur + min (bh.start - cur) left) (left - min (bh.start - cur) left) := by
  have hend := hw.to_end
  have hn : 0 < min (bh.start - cur) left := lt_min (Nat.sub_pos_of_lt hgap) hleft
  have hbehind : ∀ c ∈ bh :: post, bh.start ≤ c.start :=
    forall_mem_cons.mpr ⟨le_rfl, fun c hc => (lt_after hw.tidy.sorted c hc).le⟩
  have hpost : ∀ c ∈ bh :: post, cur + min (bh.start - cur) left ≤ c.start := fun c hc => by
    have := hbehind c hc
    omega
  obtain ⟨r', hmiss, hr'⟩ := hr.miss hw.tidy hw.passed (fun c hc => hgap.trans_le (hbehind c hc)) hw.from_start hn
    (by omega)
  refine ⟨r', hw.after_gap hn (min_le_right _ _) hpost, hr', ?_⟩
  have hlen : min left (BufferHead.new cur (min (bh.start - cur) left)).length = min (bh.start - cur) left :=
    min_eq_right (min_le_right _ _)
  rw [mapReadLoop, if_neg hleft.ne', Object.find, hr.data, Keyed.find_cut hw.tidy.sorted, bind_some,
    if_neg (not_le.mpr hgap)]
  dsimp only
  rw [hmiss, bind_some, hlen]

end

/-- **`map_read` fills the gaps of the extent**, and lists the heads of each kind. -/
theorem mapReadLoop_gapless (hpos : 0 < length) :
    ∀ {fuel cur left : ℕ} {pre post : List BufferHead} {r : ReadMaps}, Walk start length cur left pre post →
      Passed others start length pre post r → left ≤ fuel →
      ∃ r', mapReadLoop fuel r (Keyed.first BufferHead.start post) cur left = some r' ∧
        Passed others start length (pre ++ gapless cur (start + length) post) [] r' := by
  intro fuel
  induction fuel with
  | zero =>
    intro cur left pre post r hw hr hle
    obtain rfl : left = 0 := Nat.le_zero.mp hle
    exact ⟨r, if_pos rfl, hr.done hw hpos⟩
  | succ fuel ih =>
    intro cur left pre post r hw hr hle
    rcases eq_zero_or_pos left with rfl | hleft
    · exact ⟨r, if_pos rfl, hr.done hw hpos⟩
    · have hend := hw.to_end
      cases post with
      | nil =>
        -- the rest is a miss
        obtain ⟨r', hmiss, hr'⟩ := hr.miss hw.tidy hw.passed nofun hw.from_start hleft hend.le
        refine ⟨r', ?_, ?_⟩
        · change (if left = 0 then _ else (missHead _ r).bind _) = _
          rw [if_neg hleft.ne', hmiss, bind_some, mapReadLoop_zero]
        · have hgap : gapless cur (start + length) [] = [BufferHead.new cur left] := by
            rw [gapless, gap, if_pos (by omega), ← hend, Nat.add_sub_cancel_left]
          rw [hgap]
          exact hr'
      | cons b post =>
        obtain ⟨hcur, -⟩ := hw.ahead b mem_cons_self
        rcases lt_or_ge cur b.start with hgap | hhead
        · -- up to the next head
          have hmin : min b.start (start + length) - cur = min (b.start - cur) left := by omega
          have hadd : min b.start (start + length) = cur + min (b.start - cur) left := by omega
          obtain ⟨r', hw', hr', hturn⟩ := @turn_gap _ _ _ _ _ fuel _ _ _ _ hw hr hleft hgap
          obtain ⟨r'', hloop, hr''⟩ := ih hw' hr' (by omega)
          refine ⟨r'', ?_, ?_⟩
          · change mapReadLoop (fuel + 1) r (some b.start) cur left = _
            rw [hturn]
            exact hloop
          · rw [gapless_in_gap hgap (by omega), append_cons, hmin, hadd]
            exact hr''
        · obtain ⟨r', hr', hturn⟩ := @turn_hit _ _ _ _ _ fuel _ _ _ _ hw hr hleft.ne' hhead
          change ∃ r', mapReadLoop (fuel + 1) r (some b.start) cur left = some r' ∧ _
          rw [hturn, gapless_in_head hhead (by omega), append_cons]
          rcases le_or_gt b.fin (start + length) with hin | hout
          · have hmin : min (b.fin - cur) left = b.fin - cur := by omega
            rw [hmin, Nat.add_sub_cancel' hcur.le]
            exact ih (hw.after hin) hr' (by omega)
          · -- the last head, which may reach further
            have hmin : min (b.fin - cur) left = left := by omega
            have hbehind : ∀ c ∈ post, start + length ≤ c.start := fun c hc => by
              obtain ⟨-, -, -, -, hafter, -⟩ := tidy_cut.mp hw.tidy
              exact hout.le.trans (hafter c hc)
            rw [hmin, Nat.sub_self, mapReadLoop_zero, gapless_behind hout.le hbehind]
            exact ⟨r', rfl, hr'.rest hbehind⟩

/-! ### Each byte once -/

theorem head_unique {l : List BufferHead} (ht : Tidy l) {a b : BufferHead} (ha : a ∈ l) (hb : b ∈ l) {x : ℕ}
    (hax : a.start ≤ x ∧ x < a.fin) (hbx : b.start ≤ x ∧ x < b.fin) : a = b := by
  obtain ⟨pre, post, rfl⟩ := append_of_mem ha
  obtain ⟨-, -, -, hbefore, hafter, -⟩ := tidy_cut.mp ht
  rcases mem_append.mp hb with hb | hb
  · exact absurd (hbx.2.trans_le (hbefore b hb)) (not_lt.mpr hax.1)
  · rcases mem_cons.mp hb with rfl | hb
    · rfl
    · exact absurd (hax.2.trans_le (hafter b hb)) (not_lt.mpr hbx.1)

/-- A byte is in one head, and so in the entries of its kind. -/
theorem countP_entriesOf {x : ℕ} (ht : Tidy ob.data) (hbh : bh ∈ ob.data) (hx : bh.start ≤ x ∧ x < bh.fin)
    (hover : Overlaps start length bh) :
    (entriesOf start length P ob.data).countP (fun e => Holds ob x e.2) = if P bh.state then 1 else 0 := by
  obtain ⟨pre, post, hdata⟩ := append_of_mem hbh
  have hs := ht.sorted
  have hother : ∀ l ⊆ ob.data, (∀ b ∈ l, ¬ (b.start ≤ x ∧ x < b.fin)) →
      (entriesOf start length P l).countP (fun e => Holds ob x e.2) = 0 := fun l hl hout => by
    refine countP_eq_zero.mpr (List.forall_mem_map.mpr fun b hb => ?_)
    have hmem := (mem_filter.mp hb).1
    rw [Holds, Object.find, find_mem hs (hl hmem)]
    simpa using hout b hmem
  have hcut := ht
  rw [hdata] at hcut
  obtain ⟨-, -, -, hbefore, hafter, -⟩ := tidy_cut.mp hcut
  have hpre := hother pre (hdata ▸ subset_append_left _ _) fun b hb hin =>
    absurd (hin.2.trans_le (hbefore b hb)) (not_lt.mpr hx.1)
  have hpost := hother post (hdata ▸ fun b hb => mem_append_right _ (mem_cons_of_mem _ hb)) fun b hb hin =>
    absurd (hx.2.trans_le (hafter b hb)) (not_lt.mpr hin.1)
  have hself : Holds ob x bh.start = true := by
    rw [Holds, Object.find, find_mem hs hbh]
    simpa using hx
  rw [hdata, append_cons, entriesOf_append, entriesOf_append, countP_append, countP_append, hpre, hpost,
    entriesOf_singleton hover, zero_add, add_zero]
  split_ifs
  · exact countP_singleton.trans (if_pos hself)
  · rfl

theorem classed_entriesOf (ht : Tidy ob.data) : Classed start length ob P (entriesOf start length P ob.data) := by
  refine List.forall_mem_map.mpr fun b hb => ?_
  obtain ⟨hmem, hin⟩ := mem_filter.mp hb
  obtain ⟨hover, hP⟩ : Overlaps start length b ∧ P b.state := by simpa using hin
  exact ⟨b, find_mem ht.sorted hmem, hP, hover, rfl⟩

/-- **The maps of a walk that is over** partition the extent. -/
theorem Passed.partitioned {data : List BufferHead} (hr : Passed others start length data [] r) (ht : Tidy data)
    (hkept : ∀ b ∈ ob.data, b ∈ data)
    (hgaps : ∀ b ∈ data, b ∈ ob.data ∨ (b = BufferHead.new b.start b.length ∧ start ≤ b.start ∧
      b.fin ≤ start + length ∧ ∀ x, b.start ≤ x → x < b.fin → peek ob.data x = none))
    (hcovers : ∀ x, start ≤ x → x < start + length → ∃ b ∈ data, b.start ≤ x ∧ x < b.fin)
    (hpresent : ∀ b ∈ ob.data, Overlaps start length b → b.state ≠ .missing) :
    Partitioned others start length ob r := by
  obtain ⟨hdata, hcounted, hhits, hmissing, hrx⟩ := hr
  rw [append_nil] at hdata
  subst hdata
  refine ⟨ht, hcounted, hkept, hgaps, fun x hlow hhigh => ?_, ?_, ?_, ?_, fun e he => ?_⟩
  · obtain ⟨b, hb, hx⟩ := hcovers x hlow hhigh
    have hover : Overlaps start length b := ⟨hx.1.trans_lt hhigh, hlow.trans_lt hx.2, by omega⟩
    rw [ReadMaps.entries, countP_append, countP_append, hhits, hmissing, hrx,
      countP_entriesOf ht hb hx hover, countP_entriesOf ht hb hx hover, countP_entriesOf ht hb hx hover]
    cases b.state <;> rfl
  · exact hhits ▸ classed_entriesOf ht
  · exact hmissing ▸ classed_entriesOf ht
  · exact hrx ▸ classed_entriesOf ht
  · -- a head that was there is not missing
    rw [hmissing] at he
    obtain ⟨b, hfind, hstate, hover, -⟩ := classed_entriesOf ht e he
    refine eq_none_iff_forall_ne_some.mpr fun c hc => ?_
    obtain ⟨pre, post, hcut, hstart⟩ := find_isSome hc
    have hmem : c ∈ ob.data := hcut ▸ mem_append_right _ mem_cons_self
    have hfind' := find_mem ht.sorted (hkept c hmem)
    rw [hstart] at hfind'
    obtain rfl : c = b := some.inj (hfind'.symm.trans hfind)
    exact hpresent c hmem hover hstate

/-- **The walk** partitions an extent that no missing head overlaps. -/
theorem mapReadLoop_partitions (ht : Tidy ob.data) (hc : Counted others ob) (start : ℕ)
    (hpresent : ∀ b ∈ ob.data, Overlaps start length b → b.state ≠ .missing) :
    ∃ r, mapReadLoop length ⟨ob, [], [], []⟩ (firstOverlap start ob.data) start length = some r ∧
      Partitioned others start length ob r := by
  rcases eq_zero_or_pos length with rfl | hpos
  · refine ⟨_, rfl, ht, hc, fun _ => id, fun _ => .inl, fun x hlow hhigh => ?_, nofun, nofun, nofun, nofun⟩
    exact absurd hhigh (not_lt.mpr hlow)
  · obtain ⟨pre, post, hdata, hpre, hpost⟩ := exists_cut ht start
    obtain ⟨-, htpost, hcross⟩ := tidy_append.mp (hdata ▸ ht)
    have hahead : ∀ b ∈ post, start < b.fin ∧ start ≤ max start b.start := fun b hb => ⟨hpost b hb, le_max_left _ _⟩
    have hw : Walk start length start length pre post := by
      refine ⟨hdata ▸ ht, le_rfl, rfl, hpre, hahead, fun b hb => hpresent b ?_⟩
      exact hdata ▸ mem_append_right _ hb
    have hapart : ∀ b ∈ pre, ¬ Overlaps start length b := fun b hb hin => absurd hin.2.1 (not_lt.mpr (hpre b hb))
    have hbegin : Passed others start length pre post ⟨ob, [], [], []⟩ :=
      ⟨hdata, hc, (entriesOf_apart hapart).symm, (entriesOf_apart hapart).symm, (entriesOf_apart hapart).symm⟩
    obtain ⟨r, hloop, hr⟩ := mapReadLoop_gapless hpos hw hbegin le_rfl
    have hfirst : firstOverlap start ob.data = Keyed.first BufferHead.start post := by
      rw [hdata]
      exact firstOverlap_cut (hdata ▸ ht) hpre hpost
    rw [hfirst]
    refine ⟨r, hloop, hr.partitioned ?_ (fun b hb => ?_) (fun b hb => ?_) (fun x hlow hhigh => ?_) hpresent⟩
    · refine tidy_append.mpr ⟨(tidy_append.mp hw.tidy).1, tidy_gapless htpost hpost, fun a ha b hb => ?_⟩
      rcases mem_gapless htpost hpost hb with hb | ⟨-, -, hle, -⟩
      · exact hcross a ha b hb
      · exact (hpre a ha).trans hle
    · rw [hdata] at hb
      exact mem_append.mpr ((mem_append.mp hb).imp_right mem_gapless_of_mem)
    · rw [hdata]
      rcases mem_append.mp hb with hb | hb
      · exact .inl (mem_append_left _ hb)
      · refine (mem_gapless htpost hpost hb).imp (mem_append_right _) ?_
        rintro ⟨hnew, -, hle, hfin, hout⟩
        refine ⟨hnew, hle, hfin, fun x hlow hhigh => findSome?_eq_none_iff.mpr fun c hc => ?_⟩
        refine BufferHead.peek_outside c fun hin => ?_
        rcases mem_append.mp hc with hc | hc
        · exact absurd (hin.2.trans_le ((hpre c hc).trans hle)) (not_lt.mpr hlow)
        · rcases hout c hc with h | h
          · exact absurd (hin.2.trans_le h) (not_lt.mpr hlow)
          · exact absurd (hhigh.trans_le h) (not_lt.mpr hin.1)
    · obtain ⟨b, hb, hx⟩ := @gapless_covers post _ _ _ ⟨hlow, hhigh⟩
      exact ⟨b, mem_append_right _ hb, hx⟩

/-- A head that was missing is in no map. -/
theorem Partitioned.present (h : Partitioned others start length ob r) (ht : Tidy ob.data) (hbh : bh ∈ ob.data)
    (hover : Overlaps start length bh) : bh.state ≠ .missing := by
  intro hmissing
  have hfin := ht.start_lt_fin hbh
  have hin : bh.start ≤ max start bh.start ∧ max start bh.start < bh.fin := ⟨le_max_right _ _, max_lt hover.2.1 hfin⟩
  have hlt : max start bh.start < start + length := by
    obtain ⟨hlow, -, hpos⟩ := hover
    omega
  have hone := h.once (max start bh.start) (le_max_left _ _) hlt
  obtain ⟨e, he, hholds⟩ := countP_pos_iff.mp (hone.symm ▸ one_pos)
  -- an entry with a byte of the head is the head
  have hhead : ∀ c, r.ob.find e.2 = some c → c = bh ∧ ob.find e.2 = some bh := fun c hc => by
    rw [Holds, hc] at hholds
    obtain ⟨pre, post, hdata, hstart⟩ := find_isSome hc
    have hmem : c ∈ r.ob.data := hdata ▸ mem_append_right _ mem_cons_self
    obtain rfl := head_unique h.tidy hmem (h.kept bh hbh) (by simpa using hholds) hin
    exact ⟨rfl, hstart ▸ find_mem ht.sorted hbh⟩
  rcases mem_append.mp he with he | he
  · rcases mem_append.mp he with he | he
    · obtain ⟨c, hc, hreadable, -⟩ := h.hits e he
      rw [(hhead c hc).1, hmissing] at hreadable
      exact absurd hreadable (by decide)
    · obtain ⟨c, hc, -⟩ := h.missing e he
      nomatch (h.created e he).symm.trans (hhead c hc).2
  · obtain ⟨c, hc, hrx, -⟩ := h.rx e he
    rw [(hhead c hc).1, hmissing] at hrx
    exact absurd hrx (by decide)

end loop

/-- **A read is mapped** to heads that partition the extent if none of those there is missing, and not otherwise. -/
theorem map_read_partitions {others : State → ℤ} {ob : Object} {oid : ObjectT} {before after : List ObjectExtent}
    {ex : ObjectExtent}
    (hoid : ex.oid = oid) (hothers : ∀ e ∈ before ++ after, e.oid ≠ oid) (ht : Tidy ob.data) (hc : Counted others ob) :
    (∃ r, mapRead oid (before ++ ex :: after) ob = some r ∧ Partitioned others ex.start ex.length ob r) ↔
      ∀ b ∈ ob.data, Overlaps ex.start ex.length b → b.state ≠ .missing := by
  have hwalk : mapRead oid (before ++ ex :: after) ob =
      mapReadLoop ex.length ⟨ob, [], [], []⟩ (firstOverlap ex.start ob.data) ex.start ex.length :=
    foldlM_others (fun (r : ReadMaps) e => mapReadLoop e.length r (firstOverlap e.start r.ob.data) e.start e.length)
      ⟨ob, [], [], []⟩ hoid hothers
  rw [hwalk]
  constructor
  · rintro ⟨r, -, h⟩ b hb hover
    exact h.present ht hb hover
  · exact mapReadLoop_partitions ht hc ex.start

/-- A clean head inside the extent, with a gap on each side. -/
theorem map_read_partitions_gaps :
    ∃ r, mapRead ⟨1, 0, 0⟩ [⟨⟨1, 0, 0⟩, 0, 6, 0, []⟩] ⟨[⟨.clean, 2, 2, [1, 2], 0, 0, []⟩], Function.update 0 .clean 2⟩ =
        some r ∧
      Partitioned 0 0 6 ⟨[⟨.clean, 2, 2, [1, 2], 0, 0, []⟩], Function.update 0 .clean 2⟩ r := by
  have hoid : (⟨⟨1, 0, 0⟩, 0, 6, 0, []⟩ : ObjectExtent).oid = ⟨1, 0, 0⟩ := rfl
  have hothers : ∀ e ∈ ([] ++ [] : List ObjectExtent), e.oid ≠ ⟨1, 0, 0⟩ := nofun
  have htidy : Tidy [⟨.clean, 2, 2, [1, 2], 0, 0, []⟩] := ⟨by decide, by decide, by decide⟩
  refine (map_read_partitions hoid hothers htidy fun s => ?_).mpr (by decide)
  cases s <;> decide

/-- A head that is missing, as no one has read it yet: the assertion fails. -/
theorem map_read_missing :
    Tidy [BufferHead.new 0 4] ∧ Counted 0 ⟨[BufferHead.new 0 4], Function.update 0 .missing 4⟩ ∧
      mapRead ⟨1, 0, 0⟩ [⟨⟨1, 0, 0⟩, 0, 4, 0, []⟩] ⟨[BufferHead.new 0 4], Function.update 0 .missing 4⟩ = none := by
  refine ⟨⟨by decide, by decide, by decide⟩, fun s => ?_, rfl⟩
  cases s <;> decide

end ObjectCacher
end Osdc
end Ceph
