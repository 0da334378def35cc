/-
# Buffer heads of a cached object

The cache of an object (`ObjectCacher::Object`) is an ordered map of buffer heads, each with
a state, an extent of the object and its bytes. `split` cuts a head in two,
`merge_left` joins two neighbours of one state, and `try_merge_bh` looks for
neighbours to join. The counters have the length of the heads of each state.

A head is named by where it starts, which is its key in the map and does not
change. The LRU lists and pins, and the tids and locks of the object, are left out.
-/
import Ceph.Lib.Keyed
import Ceph.Lib.Wire

namespace Ceph
namespace Osdc
namespace ObjectCacher

open List Option Function Keyed
open Wire (Bytes)

inductive State
  | missing
  | clean
  | dirty
  | rx
  | tx
deriving DecidableEq

/-- `BufferHead`. -/
structure BufferHead where
  state : State
  start : ℕ
  length : ℕ
  bl : Bytes
  lastWriteTid : ℕ
  lastWrite : ℕ
  waitforRead : List (ℕ × List ℕ)       -- map<off_t, list<Context*>>
deriving DecidableEq

/-- `end()`. -/
def BufferHead.fin (bh : BufferHead) : ℕ := bh.start + bh.length

/-- `BufferHead(ob)`, with its extent set. -/
def BufferHead.new (start length : ℕ) : BufferHead := ⟨.missing, start, length, [], 0, 0, []⟩

/-- The heads of an object, and the counters `stat_*`. -/
structure Object where
  data : List BufferHead                -- map<off_t, BufferHead*>
  stat : State → ℤ

/-- A head is a key of the map. -/
abbrev Object.find (ob : Object) (k : ℕ) : Option BufferHead := Keyed.find BufferHead.start k ob.data

/-! ### The code -/

def bhStatAdd (bh : BufferHead) (stat : State → ℤ) : State → ℤ :=
  Function.update stat bh.state (stat bh.state + bh.length)

def bhStatSub (bh : BufferHead) (stat : State → ℤ) : State → ℤ :=
  Function.update stat bh.state (stat bh.state - bh.length)

/-- `bh_add`, with `add_bh`. -/
def bhAdd (bh : BufferHead) (ob : Object) : Option Object :=
  if (ob.find bh.start).isNone then
    some { data := Keyed.insert BufferHead.start bh ob.data, stat := bhStatAdd bh ob.stat }
  else none

/-- `bh_remove`, with `remove_bh`. -/
def bhRemove (bh : BufferHead) (ob : Object) : Option Object :=
  if (ob.find bh.start).isSome then
    some { data := Keyed.erase BufferHead.start bh.start ob.data, stat := bhStatSub bh ob.stat }
  else none

/-- `set_length`. -/
def setLength (k length : ℕ) (ob : Object) : Object :=
  { ob with data := Keyed.modify BufferHead.start k (fun bh => { bh with length := length }) ob.data }

/-- `bh_set_state`. -/
def bhSetState (bh : BufferHead) (s : State) (ob : Object) : Object where
  data := Keyed.modify BufferHead.start bh.start (fun bh => { bh with state := s }) ob.data
  stat := bhStatAdd { bh with state := s } (bhStatSub bh ob.stat)

/-- The waiters that stay with the left half: from the last on they are moved, but never the first. -/
def keptWaiters (off : ℕ) : List (ℕ × List ℕ) → List (ℕ × List ℕ)
  | [] => []
  | w :: ws => w :: ws.rdropWhile fun w => off ≤ w.1

def movedWaiters (off : ℕ) : List (ℕ × List ℕ) → List (ℕ × List ℕ)
  | [] => []
  | _ :: ws => ws.rtakeWhile fun w => off ≤ w.1

/-- The left half of a head that is split. -/
def BufferHead.leftOf (bh : BufferHead) (off : ℕ) : BufferHead :=
  { bh with
    length := off - bh.start
    bl := bh.bl.take (off - bh.start)
    waitforRead := keptWaiters off bh.waitforRead }

/-- The right half. -/
def BufferHead.rightOf (bh : BufferHead) (off : ℕ) : BufferHead :=
  { state := bh.state
    start := off
    length := bh.length - (off - bh.start)
    bl := (bh.bl.drop (off - bh.start)).take (bh.length - (off - bh.start))
    lastWriteTid := bh.lastWriteTid
    lastWrite := 0
    waitforRead := movedWaiters off bh.waitforRead }

/-- `split`: `off` is inside the head. The new head is the one at `off`. -/
def split (k off : ℕ) (ob : Object) : Option Object :=
  (ob.find k).bind fun left =>
    let right := left.rightOf off
    let ob := { ob with stat := bhStatAdd (left.leftOf off) (bhStatSub left ob.stat) }
    if left.bl.length = 0 ∨ left.bl.length = (off - left.start) + right.length then
      bhAdd right { ob with data := Keyed.modify BufferHead.start k (fun bh => bh.leftOf off) ob.data }
    else none

/-- The waiters of one head, put before those of another at the same byte. -/
def spliceWaiters (ws : List (ℕ × List ℕ)) (w : ℕ × List ℕ) : List (ℕ × List ℕ) :=
  Keyed.insert Prod.fst (w.1, w.2 ++ ((Keyed.find Prod.fst w.1 ws).map Prod.snd).getD []) ws

/-- Two heads joined. -/
def BufferHead.join (left right : BufferHead) : BufferHead :=
  { left with
    length := left.length + right.length
    bl := left.bl ++ right.bl
    lastWriteTid := max left.lastWriteTid right.lastWriteTid
    lastWrite := max left.lastWrite right.lastWrite
    waitforRead := right.waitforRead.foldl spliceWaiters left.waitforRead }

/-- `merge_left`. -/
def mergeLeft (kl kr : ℕ) (ob : Object) : Option Object :=
  (ob.find kl).bind fun left => (ob.find kr).bind fun right =>
    if left.fin = right.start ∧ left.state = right.state then
      (bhRemove right ob).map fun ob =>
        { data := Keyed.modify BufferHead.start kl (fun _ => left.join right) ob.data
          stat := bhStatAdd { left with length := left.length + right.length } (bhStatSub left ob.stat) }
    else none

/-- The right part of `try_merge_bh`. -/
def tryMergeRight (k : ℕ) (ob : Object) : Option Object :=
  (ob.find k).bind fun bh => (Keyed.next BufferHead.start k ob.data).bind fun
    | none => some ob
    | some kr => (ob.find kr).bind fun right =>
      if right.start = bh.fin ∧ right.state = bh.state then mergeLeft k kr ob else some ob

/-- `try_merge_bh`. -/
def tryMergeBh (k : ℕ) (ob : Object) : Option Object :=
  (ob.find k).bind fun bh =>
    match Keyed.prev BufferHead.start (some k) ob.data with
    | none => tryMergeRight k ob
    | some kl => (ob.find kl).bind fun left =>
      if left.fin = bh.start ∧ left.state = bh.state then (mergeLeft kl k ob).bind (tryMergeRight kl)
      else tryMergeRight k ob

/-- Where `map_read` and `map_write` begin: at the first head from `start` on, or at the one
before if it reaches further. -/
def firstOverlap (start : ℕ) (data : List BufferHead) : Option ℕ :=
  let p := Keyed.lowerBound BufferHead.start start data
  if p ≠ Keyed.first BufferHead.start data ∧ p.all (start < ·) then
    let q := Keyed.prev BufferHead.start p data
    match q.bind fun k => Keyed.find BufferHead.start k data with
    | none => p
    | some bh => if bh.fin ≤ start then p else q
  else p

/-! ### What a cache holds -/

/-- The heads are apart, none is empty, and each has all of its bytes or none. -/
structure Tidy (data : List BufferHead) : Prop where
  apart : data.Pairwise fun a b => a.fin ≤ b.start
  pos : ∀ bh ∈ data, 0 < bh.length
  bytes : ∀ bh ∈ data, bh.bl = [] ∨ bh.bl.length = bh.length

/-- What a head has at a byte of the object. -/
def BufferHead.peek (bh : BufferHead) (x : ℕ) : Option (State × Option UInt8) :=
  if bh.start ≤ x ∧ x < bh.fin then some (bh.state, bh.bl[x - bh.start]?) else none

/-- What the cache has there. -/
def peek (data : List BufferHead) (x : ℕ) : Option (State × Option UInt8) := data.findSome? (·.peek x)

/-- The length of all heads of a state. -/
def total (s : State) (data : List BufferHead) : ℕ := (data.map fun bh => if bh.state = s then bh.length else 0).sum

/-- Heads that are apart, with the same in them. -/
structure SameContent (data data' : List BufferHead) : Prop where
  tidy : Tidy data'
  peek_eq : ∀ x, peek data' x = peek data x
  total_eq : ∀ s, total s data' = total s data

/-- The counters are those of the heads, and of the other objects. -/
def Counted (others : State → ℤ) (ob : Object) : Prop := ∀ s, ob.stat s = others s + total s ob.data

section tidy

variable {pre post data : List BufferHead} {bh left right : BufferHead} {off x : ℕ}
  {stat others : State → ℤ} {s : State}

theorem Tidy.sorted (h : Tidy data) : Keyed.Sorted BufferHead.start data := by
  have hpos := h.pos
  refine h.apart.imp_of_mem fun {a b} ha _ hab => ?_
  have := hpos a ha
  unfold BufferHead.fin at hab
  omega

theorem Tidy.start_lt_fin (h : Tidy data) (hb : bh ∈ data) : bh.start < bh.fin := Nat.lt_add_of_pos_right (h.pos bh hb)

theorem tidy_append {l1 l2 : List BufferHead} : Tidy (l1 ++ l2) ↔
    Tidy l1 ∧ Tidy l2 ∧ ∀ a ∈ l1, ∀ b ∈ l2, a.fin ≤ b.start := by
  constructor
  · rintro ⟨hapart, hpos, hbytes⟩
    obtain ⟨h1, h2, h12⟩ := pairwise_append.mp hapart
    obtain ⟨hp1, hp2⟩ := forall_mem_append.mp hpos
    obtain ⟨hb1, hb2⟩ := forall_mem_append.mp hbytes
    exact ⟨⟨h1, hp1, hb1⟩, ⟨h2, hp2, hb2⟩, h12⟩
  · rintro ⟨⟨h1, hp1, hb1⟩, ⟨h2, hp2, hb2⟩, h12⟩
    exact ⟨pairwise_append.mpr ⟨h1, h2, h12⟩, forall_mem_append.mpr ⟨hp1, hp2⟩,
      forall_mem_append.mpr ⟨hb1, hb2⟩⟩

theorem tidy_cons : Tidy (bh :: post) ↔
    (0 < bh.length ∧ (bh.bl = [] ∨ bh.bl.length = bh.length)) ∧ (∀ b ∈ post, bh.fin ≤ b.start) ∧ Tidy post := by
  constructor
  · rintro ⟨hapart, hpos, hbytes⟩
    obtain ⟨ha, hapart⟩ := pairwise_cons.mp hapart
    obtain ⟨hp, hpos⟩ := forall_mem_cons.mp hpos
    obtain ⟨hb, hbytes⟩ := forall_mem_cons.mp hbytes
    exact ⟨⟨hp, hb⟩, ha, ⟨hapart, hpos, hbytes⟩⟩
  · rintro ⟨⟨hp, hb⟩, ha, ⟨hapart, hpos, hbytes⟩⟩
    exact ⟨pairwise_cons.mpr ⟨ha, hapart⟩, forall_mem_cons.mpr ⟨hp, hpos⟩,
      forall_mem_cons.mpr ⟨hb, hbytes⟩⟩

theorem tidy_cut : Tidy (pre ++ bh :: post) ↔
    Tidy pre ∧ Tidy post ∧ (0 < bh.length ∧ (bh.bl = [] ∨ bh.bl.length = bh.length)) ∧ (∀ a ∈ pre, a.fin ≤ bh.start) ∧
      (∀ b ∈ post, bh.fin ≤ b.start) ∧ ∀ a ∈ pre, ∀ b ∈ post, a.fin ≤ b.start := by
  rw [tidy_append, tidy_cons]
  simp only [forall_mem_cons]
  constructor
  · rintro ⟨hpre, ⟨hbh, hafter, hpost⟩, hcross⟩
    exact ⟨hpre, hpost, hbh, fun a ha => (hcross a ha).1, hafter, fun a ha => (hcross a ha).2⟩
  · rintro ⟨hpre, hpost, hbh, hbefore, hafter, hcross⟩
    exact ⟨hpre, ⟨hbh, hafter, hpost⟩, fun a ha => ⟨hbefore a ha, hcross a ha⟩⟩

/-! ### What the cache has, list by list -/

theorem peek_append (l1 l2 : List BufferHead) (x : ℕ) : peek (l1 ++ l2) x = (peek l1 x).or (peek l2 x) :=
  findSome?_append

theorem peek_cons (bh : BufferHead) (l : List BufferHead) (x : ℕ) : peek (bh :: l) x = (bh.peek x).or (peek l x) := by
  rw [peek, findSome?_cons]
  cases bh.peek x <;> rfl

theorem total_append (s : State) (l1 l2 : List BufferHead) : total s (l1 ++ l2) = total s l1 + total s l2 := by
  rw [total, map_append, sum_append]
  rfl

theorem total_cons (s : State) (bh : BufferHead) (l : List BufferHead) :
    total s (bh :: l) = (if bh.state = s then bh.length else 0) + total s l := by
  rfl

theorem BufferHead.peek_outside (bh : BufferHead) (h : ¬ (bh.start ≤ x ∧ x < bh.fin)) : bh.peek x = none := if_neg h

/-! ### Adding and splitting -/

theorem bhAdd_cut (hpre : ∀ b ∈ pre, b.start < bh.start) (hpost : ∀ b ∈ post, bh.start < b.start) :
    bhAdd bh ⟨pre ++ post, stat⟩ = some ⟨pre ++ bh :: post, bhStatAdd bh stat⟩ := by
  have hfree : find BufferHead.start bh.start (pre ++ post) = none := by
    refine find?_eq_none.mpr fun b hb => ?_
    rcases mem_append.mp hb with hb | hb
    · simpa using (hpre b hb).ne
    · simpa using (hpost b hb).ne'
  rw [bhAdd, Object.find, hfree, if_pos isNone_none, insert_cut hpre hpost]

theorem counted_add (h : Counted others ⟨pre ++ post, stat⟩) :
    Counted others ⟨pre ++ bh :: post, bhStatAdd bh stat⟩ := by
  intro s
  have hs := h s
  simp only [total_append, total_cons] at hs ⊢
  by_cases heq : bh.state = s
  · subst heq
    rw [if_pos rfl, bhStatAdd, update_self]
    omega
  · rw [if_neg heq, bhStatAdd, update_of_ne (Ne.symm heq)]
    omega

theorem stat_split (hoff : bh.start < off ∧ off < bh.fin) :
    bhStatAdd (bh.rightOf off) (bhStatAdd (bh.leftOf off) (bhStatSub bh stat)) = stat := by
  have hlen : ((bh.leftOf off).length : ℤ) + (bh.rightOf off).length = bh.length := by
    unfold BufferHead.fin at hoff
    simp only [BufferHead.leftOf, BufferHead.rightOf]
    omega
  funext s
  by_cases hs : s = bh.state
  · subst hs
    simp only [bhStatAdd, bhStatSub, BufferHead.leftOf, BufferHead.rightOf, update_self] at hlen ⊢
    omega
  · simp only [bhStatAdd, bhStatSub, BufferHead.leftOf, BufferHead.rightOf, update_of_ne hs]

theorem mem_keptWaiters {w : ℕ × List ℕ} {ws : List (ℕ × List ℕ)} (h : w ∈ keptWaiters off ws) : w ∈ ws := by
  cases ws with
  | nil => exact h
  | cons v ws =>
    rcases mem_cons.mp h with rfl | h
    · exact mem_cons_self
    · exact mem_cons_of_mem _ ((List.rdropWhile_prefix _ ws).subset h)

theorem mem_movedWaiters {w : ℕ × List ℕ} {ws : List (ℕ × List ℕ)} (h : w ∈ movedWaiters off ws) : w ∈ ws := by
  cases ws with
  | nil => exact h
  | cons v ws => exact mem_cons_of_mem _ ((rtakeWhile_suffix _ ws).subset h)

theorem fin_leftOf (hoff : bh.start < off ∧ off < bh.fin) : (bh.leftOf off).fin = off := by
  simp only [BufferHead.fin, BufferHead.leftOf]
  omega

theorem fin_rightOf (hoff : bh.start < off ∧ off < bh.fin) : (bh.rightOf off).fin = bh.fin := by
  unfold BufferHead.fin at hoff
  simp only [BufferHead.fin, BufferHead.rightOf]
  omega

/-- **A split** of a head at its place. -/
theorem split_cut (ht : Tidy (pre ++ bh :: post)) (hoff : bh.start < off ∧ off < bh.fin) :
    split bh.start off ⟨pre ++ bh :: post, stat⟩ = some ⟨pre ++ bh.leftOf off :: bh.rightOf off :: post, stat⟩ := by
  have hs := ht.sorted
  obtain ⟨-, -, ⟨hpos, hbytes⟩, hbefore, hafter, -⟩ := tidy_cut.mp ht
  have hpre : ∀ b ∈ pre ++ [bh.leftOf off], b.start < (bh.rightOf off).start := by
    refine forall_mem_append.mpr ⟨fun b hb => ?_, forall_mem_singleton.mpr hoff.1⟩
    exact (before_lt hs b hb).trans hoff.1
  have hpost : ∀ b ∈ post, (bh.rightOf off).start < b.start := fun b hb => hoff.2.trans_le (hafter b hb)
  have hwhole : bh.bl.length = 0 ∨ bh.bl.length = (off - bh.start) + (bh.rightOf off).length := by
    refine hbytes.imp (fun h => by rw [h]; rfl) fun h => ?_
    unfold BufferHead.fin at hoff
    simp only [BufferHead.rightOf]
    omega
  rw [split, Object.find, find_cut hs, bind_some]
  rw [if_pos hwhole, modify_cut hs, append_cons, bhAdd_cut hpre hpost, stat_split hoff, append_assoc,
    singleton_append]

theorem tidy_split (ht : Tidy (pre ++ bh :: post)) (hoff : bh.start < off ∧ off < bh.fin) :
    Tidy (pre ++ bh.leftOf off :: bh.rightOf off :: post) := by
  obtain ⟨hpre, hpost, ⟨hpos, hbytes⟩, hbefore, hafter, hcross⟩ := tidy_cut.mp ht
  have hlen : bh.start + bh.length = bh.fin := rfl
  refine tidy_cut.mpr ⟨hpre, tidy_cons.mpr ⟨⟨?_, ?_⟩, fun b hb => ?_, hpost⟩, ⟨?_, ?_⟩, hbefore, ?_, fun a ha => ?_⟩
  · change 0 < bh.length - (off - bh.start)
    omega
  · refine hbytes.imp (fun h => ?_) fun h => ?_
    · change (bh.bl.drop _).take _ = []
      rw [h, drop_nil, take_nil]
    · change ((bh.bl.drop (off - bh.start)).take (bh.length - (off - bh.start))).length = bh.length - (off - bh.start)
      rw [length_take, length_drop, h, min_self]
  · rw [fin_rightOf hoff]
    exact hafter b hb
  · change 0 < off - bh.start
    omega
  · refine hbytes.imp (fun h => ?_) fun h => ?_
    · change bh.bl.take _ = []
      rw [h, take_nil]
    · change (bh.bl.take (off - bh.start)).length = off - bh.start
      rw [length_take, h]
      omega
  · rw [fin_leftOf hoff]
    exact forall_mem_cons.mpr ⟨le_rfl, fun b hb => hoff.2.le.trans (hafter b hb)⟩
  · exact forall_mem_cons.mpr ⟨(hbefore a ha).trans hoff.1.le, hcross a ha⟩

theorem BufferHead.peek_halves (hoff : bh.start < off ∧ off < bh.fin) (x : ℕ) :
    ((bh.leftOf off).peek x).or ((bh.rightOf off).peek x) = bh.peek x := by
  have hl := fin_leftOf hoff
  have hr := fin_rightOf hoff
  rcases lt_or_ge x off with hx | hx
  · rw [BufferHead.peek_outside (bh.rightOf off) fun h => absurd h.1 (not_le.mpr hx), or_none,
      BufferHead.peek, BufferHead.peek, hl]
    have hiff : (bh.start ≤ x ∧ x < off) ↔ (bh.start ≤ x ∧ x < bh.fin) := by omega
    simp only [BufferHead.leftOf, hiff]
    refine if_congr .rfl ?_ rfl
    rw [getElem?_take]
    split
    · rfl
    · omega
  · rw [BufferHead.peek_outside (bh.leftOf off) fun h => by rw [hl] at h; omega, none_or,
      BufferHead.peek, BufferHead.peek, hr]
    have hiff : (off ≤ x ∧ x < bh.fin) ↔ (bh.start ≤ x ∧ x < bh.fin) := by omega
    simp only [BufferHead.rightOf, hiff]
    by_cases hin : bh.start ≤ x ∧ x < bh.fin
    · have hfin : bh.fin = bh.start + bh.length := rfl
      rw [if_pos hin, if_pos hin, getElem?_take, if_pos (by omega), getElem?_drop]
      congr 3
      omega
    · rw [if_neg hin, if_neg hin]

theorem peek_split (hoff : bh.start < off ∧ off < bh.fin) (x : ℕ) :
    peek (pre ++ bh.leftOf off :: bh.rightOf off :: post) x = peek (pre ++ bh :: post) x := by
  simp only [peek_append, peek_cons, ← BufferHead.peek_halves hoff, Option.or_assoc]

theorem total_split (hoff : bh.start < off ∧ off < bh.fin) :
    total s (pre ++ bh.leftOf off :: bh.rightOf off :: post) = total s (pre ++ bh :: post) := by
  unfold BufferHead.fin at hoff
  simp only [total_append, total_cons, BufferHead.leftOf, BufferHead.rightOf]
  split <;> omega

theorem SameContent.refl (ht : Tidy data) : SameContent data data := ⟨ht, fun _ => rfl, fun _ => rfl⟩

theorem SameContent.trans {data' data'' : List BufferHead} (h : SameContent data data')
    (h' : SameContent data' data'') :
    SameContent data data'' :=
  ⟨h'.tidy, fun x => (h'.peek_eq x).trans (h.peek_eq x), fun s => (h'.total_eq s).trans (h.total_eq s)⟩

theorem sameContent_split (ht : Tidy (pre ++ bh :: post)) (hoff : bh.start < off ∧ off < bh.fin) :
    SameContent (pre ++ bh :: post) (pre ++ bh.leftOf off :: bh.rightOf off :: post) :=
  ⟨tidy_split ht hoff, peek_split hoff, fun _ => total_split hoff⟩

/-! ### Joining -/

/-- **Two neighbours are joined.** -/
theorem mergeLeft_cut (ht : Tidy (pre ++ left :: right :: post)) (hadj : left.fin = right.start)
    (hstate : left.state = right.state) :
    mergeLeft left.start right.start ⟨pre ++ left :: right :: post, stat⟩ =
      some ⟨pre ++ left.join right :: post, stat⟩ := by
  have hs := ht.sorted
  have hright := find_second hs
  have herase : erase BufferHead.start right.start (pre ++ left :: right :: post) = pre ++ left :: post := by
    rw [append_cons] at hs ⊢
    rw [erase_cut hs, append_assoc, singleton_append]
  have hs'' : Keyed.Sorted BufferHead.start (pre ++ left :: post) :=
    hs.sublist ((List.Sublist.refl _).append ((sublist_cons_self _ _).cons_cons _))
  have hstat : bhStatAdd { left with length := left.length + right.length } (bhStatSub left (bhStatSub right stat)) =
    stat := by
    funext s
    by_cases heq : s = left.state
    · subst heq
      simp only [bhStatAdd, bhStatSub, ← hstate, update_self]
      omega
    · simp only [bhStatAdd, bhStatSub, ← hstate, update_of_ne heq]
  rw [mergeLeft, Object.find, find_cut hs, bind_some, Object.find, hright, bind_some,
    if_pos ⟨hadj, hstate⟩,
    bhRemove, Object.find, hright, if_pos isSome_some, map_some, herase, modify_cut hs'', hstat]

theorem next_mergeLeft {kl kr : ℕ} {ob ob' : Object} (h : mergeLeft kl kr ob = some ob') :
    next BufferHead.start kr ob'.data = none := by
  obtain ⟨left, hl, hbind⟩ := bind_eq_some_iff.mp h
  obtain ⟨right, hr, hif⟩ := bind_eq_some_iff.mp hbind
  obtain ⟨-, -, -, hkl⟩ := find_isSome hl
  obtain ⟨-, -, -, hkr⟩ := find_isSome hr
  split_ifs at hif
  obtain ⟨ob'', hrem, rfl⟩ := map_eq_some_iff.mp hif
  unfold bhRemove at hrem
  split_ifs at hrem
  cases hrem
  rw [hkr]
  exact next_erase fun _ _ => hkl

theorem fin_join (hadj : left.fin = right.start) : (left.join right).fin = right.fin := by
  unfold BufferHead.fin at hadj ⊢
  simp only [BufferHead.join]
  omega

theorem tidy_join (ht : Tidy (pre ++ left :: right :: post)) (hadj : left.fin = right.start)
    (hl : left.bl.length = left.length) (hr : right.bl.length = right.length) :
    Tidy (pre ++ left.join right :: post) := by
  obtain ⟨hpre, hrest, ⟨hpos, -⟩, hbefore, -, hcross⟩ := tidy_cut.mp ht
  obtain ⟨-, hafter, hpost⟩ := tidy_cons.mp hrest
  refine tidy_cut.mpr ⟨hpre, hpost, ⟨?_, .inr ?_⟩, hbefore, fun b hb => ?_, fun a ha b hb => ?_⟩
  · exact Nat.add_pos_left hpos _
  · change (left.bl ++ right.bl).length = left.length + right.length
    rw [length_append, hl, hr]
  · rw [fin_join hadj]
    exact hafter b hb
  · exact hcross a ha b (mem_cons_of_mem _ hb)

/-- What was in the two is in the one. -/
theorem peek_join (hadj : left.fin = right.start) (hstate : left.state = right.state)
    (hl : left.bl.length = left.length) (x : ℕ) :
    peek (pre ++ left.join right :: post) x = peek (pre ++ left :: right :: post) x := by
  have hhead : (left.join right).peek x = (left.peek x).or (right.peek x) := by
    have hfin := fin_join hadj
    have hleft : left.fin = left.start + left.length := rfl
    have hright : right.fin = right.start + right.length := rfl
    rcases lt_or_ge x right.start with hx | hx
    · rw [BufferHead.peek_outside right fun h => absurd h.1 (not_le.mpr hx), or_none, BufferHead.peek,
        BufferHead.peek, hfin, hadj]
      have hiff : (left.start ≤ x ∧ x < right.fin) ↔ (left.start ≤ x ∧ x < right.start) := by omega
      simp only [BufferHead.join, hiff]
      by_cases hin : left.start ≤ x ∧ x < right.start
      · rw [if_pos hin, if_pos hin, getElem?_append_left (by omega)]
      · rw [if_neg hin, if_neg hin]
    · rw [BufferHead.peek_outside left fun h => absurd h.2 (by omega), none_or, BufferHead.peek,
        BufferHead.peek, hfin]
      have hiff : (left.start ≤ x ∧ x < right.fin) ↔ (right.start ≤ x ∧ x < right.fin) := by omega
      simp only [BufferHead.join, hiff]
      by_cases hin : right.start ≤ x ∧ x < right.fin
      · rw [if_pos hin, if_pos hin, getElem?_append_right (by omega), hstate]
        congr 3
        omega
      · rw [if_neg hin, if_neg hin]
  simp only [peek_append, peek_cons, hhead, Option.or_assoc]

theorem total_join (hstate : left.state = right.state) :
    total s (pre ++ left.join right :: post) = total s (pre ++ left :: right :: post) := by
  simp only [total_append, total_cons, BufferHead.join, ← hstate]
  split <;> omega

/-- Heads of the state `s` are joined: what they have stays where it is, and so do the other heads. -/
structure Merged (s : State) (data data' : List BufferHead) : Prop where
  same : SameContent data data'
  origin : ∀ b ∈ data', b ∈ data ∨ (b.state = s ∧ b.bl.length = b.length)
  kept : ∀ b ∈ data, b.state ≠ s → b ∈ data'

theorem Merged.refl (ht : Tidy data) : Merged s data data := ⟨.refl ht, fun _ => .inl, fun _ hb _ => hb⟩

theorem Merged.trans {data' data'' : List BufferHead} (h : Merged s data data') (h' : Merged s data' data'') :
    Merged s data data'' :=
  ⟨h.same.trans h'.same, fun b hb => (h'.origin b hb).elim (h.origin b) .inr,
    fun b hb hne => h'.kept b (h.kept b hb hne) hne⟩

theorem merged_join (ht : Tidy (pre ++ left :: right :: post)) (hadj : left.fin = right.start)
    (hstate : left.state = right.state)
    (hl : left.bl.length = left.length) (hr : right.bl.length = right.length) :
    Merged left.state (pre ++ left :: right :: post) (pre ++ left.join right :: post) := by
  refine ⟨⟨tidy_join ht hadj hl hr, peek_join hadj hstate hl, fun _ => total_join hstate⟩, fun b hb => ?_,
    fun b hb hne => ?_⟩
  · rcases mem_append.mp hb with hb | hb
    · exact .inl (mem_append_left _ hb)
    · rcases mem_cons.mp hb with rfl | hb
      · refine .inr ⟨rfl, ?_⟩
        change (left.bl ++ right.bl).length = left.length + right.length
        rw [length_append, hl, hr]
      · exact .inl (mem_append_right _ (mem_cons_of_mem _ (mem_cons_of_mem _ hb)))
  · rcases mem_append.mp hb with hb | hb
    · exact mem_append_left _ hb
    · rcases mem_cons.mp hb with rfl | hb
      · exact absurd rfl hne
      · rcases mem_cons.mp hb with rfl | hb
        · exact absurd hstate.symm hne
        · exact mem_append_right _ (mem_cons_of_mem _ hb)

theorem tryMergeRight_stays (stat : State → ℤ) (hs : Keyed.Sorted BufferHead.start (pre ++ bh :: post))
    (hnext : ∀ c, post.head? = some c → ¬ (c.start = bh.fin ∧ c.state = bh.state)) :
    tryMergeRight bh.start ⟨pre ++ bh :: post, stat⟩ = some ⟨pre ++ bh :: post, stat⟩ := by
  rw [tryMergeRight, Object.find, find_cut hs, bind_some, next_cut hs, bind_some]
  cases post with
  | nil => rfl
  | cons c post =>
    change (Object.find _ c.start).bind _ = _
    rw [Object.find, find_second hs, bind_some, if_neg (hnext c rfl)]

theorem tryMergeRight_joins (stat : State → ℤ) (ht : Tidy (pre ++ left :: right :: post))
    (hadj : left.fin = right.start) (hstate : left.state = right.state) :
    tryMergeRight left.start ⟨pre ++ left :: right :: post, stat⟩ = some ⟨pre ++ left.join right :: post, stat⟩ := by
  have hs := ht.sorted
  rw [tryMergeRight, Object.find, find_cut hs, bind_some, next_cut hs, bind_some]
  change (Object.find _ right.start).bind _ = _
  rw [Object.find, find_second hs, bind_some, if_pos ⟨hadj.symm, hstate.symm⟩,
    mergeLeft_cut ht hadj hstate]

/-- **The left part of a merge**, after which `bh'` is the head that `bh` is in. -/
theorem tryMergeBh_cut (stat : State → ℤ) (ht : Tidy (pre ++ bh :: post))
    (hfull : ∀ b ∈ pre ++ bh :: post, b.state = bh.state → b.bl.length = b.length) :
    ∃ pre' bh', Merged bh.state (pre ++ bh :: post) (pre' ++ bh' :: post) ∧
      (∀ x, peek (pre' ++ [bh']) x = peek (pre ++ [bh]) x) ∧
      bh'.start ≤ bh.start ∧ bh'.fin = bh.fin ∧ bh'.state = bh.state ∧ bh'.bl.length = bh'.length ∧
      tryMergeBh bh.start ⟨pre ++ bh :: post, stat⟩ = tryMergeRight bh'.start ⟨pre' ++ bh' :: post, stat⟩ := by
  have hs := ht.sorted
  have hbl := hfull bh (by simp) rfl
  rw [tryMergeBh, Object.find, find_cut hs, bind_some, prev_cut hs]
  rcases eq_nil_or_concat' pre with rfl | ⟨l, left, rfl⟩
  · exact ⟨[], bh, .refl ht, fun _ => rfl, le_rfl, rfl, rfl, hbl, rfl⟩
  · rw [getLast?_append, getLast?_singleton, some_or, map_some]
    rw [← append_cons] at ht hs hfull ⊢
    dsimp only
    rw [Object.find, find_cut hs, bind_some]
    by_cases hjoin : left.fin = bh.start ∧ left.state = bh.state
    · have hbl' := hfull left (by simp) hjoin.2
      have hmerged := merged_join ht hjoin.1 hjoin.2 hbl' hbl
      rw [hjoin.2] at hmerged
      refine ⟨l, left.join bh, hmerged, fun x => ?_, ?_, fin_join hjoin.1, hjoin.2, ?_, ?_⟩
      · rw [append_assoc]
        exact peek_join hjoin.1 hjoin.2 hbl' x
      · exact (lt_after hs bh mem_cons_self).le
      · change (left.bl ++ bh.bl).length = left.length + bh.length
        rw [length_append, hbl', hbl]
      · rw [if_pos hjoin, mergeLeft_cut ht hjoin.1 hjoin.2, bind_some]
        rfl
    · refine ⟨l ++ [left], bh, ?_, fun _ => rfl, le_rfl, rfl, rfl, hbl, ?_⟩
      · rw [← append_cons]
        exact .refl ht
      · rw [if_neg hjoin, ← append_cons]

/-- `try_merge_bh` of a head that has its bytes. -/
theorem tryMergeBh_merged (stat : State → ℤ) (ht : Tidy (pre ++ bh :: post))
    (hfull : ∀ b ∈ pre ++ bh :: post, b.state = bh.state → b.bl.length = b.length) :
    ∃ data', tryMergeBh bh.start ⟨pre ++ bh :: post, stat⟩ = some ⟨data', stat⟩ ∧
      Merged bh.state (pre ++ bh :: post) data' := by
  obtain ⟨pre', bh', hmerged, -, -, hfin, hstate, hbl, htry⟩ := tryMergeBh_cut stat ht hfull
  rw [htry]
  have ht' := hmerged.same.tidy
  cases post with
  | nil => exact ⟨_, tryMergeRight_stays _ ht'.sorted nofun, hmerged⟩
  | cons c post =>
    by_cases hjoin : bh'.fin = c.start ∧ bh'.state = c.state
    · refine ⟨_, tryMergeRight_joins _ ht' hjoin.1 hjoin.2, hmerged.trans ?_⟩
      rw [← hstate]
      exact merged_join ht' hjoin.1 hjoin.2 hbl (hfull c (by simp) (hjoin.2.symm.trans hstate))
    · refine ⟨_, tryMergeRight_stays _ ht'.sorted fun d hd heq => hjoin ?_, hmerged⟩
      cases hd
      exact ⟨heq.1.symm, heq.2.symm⟩

/-! ### The first head of a range -/

theorem exists_cut (ht : Tidy data) (x : ℕ) :
    ∃ pre post, data = pre ++ post ∧ (∀ b ∈ pre, b.fin ≤ x) ∧ ∀ b ∈ post, x < b.fin := by
  induction data with
  | nil => exact ⟨[], [], rfl, nofun, nofun⟩
  | cons bh data ih =>
    obtain ⟨⟨hpos, -⟩, hafter, ht⟩ := tidy_cons.mp ht
    rcases lt_or_ge x bh.fin with hin | hout
    · refine ⟨[], bh :: data, rfl, nofun, forall_mem_cons.mpr ⟨hin, fun b hb => ?_⟩⟩
      have hle := hafter b hb
      exact hin.trans (hle.trans_lt (ht.start_lt_fin hb))
    · obtain ⟨pre, post, rfl, hpre, hpost⟩ := ih ht
      exact ⟨bh :: pre, post, rfl, forall_mem_cons.mpr ⟨hout, hpre⟩, hpost⟩

theorem starts_before (ht : Tidy (pre ++ post)) (hpre : ∀ b ∈ pre, b.fin ≤ x) : ∀ b ∈ pre, b.start < x := fun b hb =>
  (ht.start_lt_fin (mem_append_left _ hb)).trans_le (hpre b hb)

theorem overlap_stays (ht : Tidy (pre ++ post)) (hpre : ∀ b ∈ pre, b.fin ≤ x) {p : Option ℕ}
    (hp : prev BufferHead.start p (pre ++ post) = (pre.getLast?).map BufferHead.start) :
    (match (prev BufferHead.start p (pre ++ post)).bind fun k => find BufferHead.start k (pre ++ post) with
      | none => p
      | some bh => if bh.fin ≤ x then p else prev BufferHead.start p (pre ++ post)) = p := by
  rw [hp]
  rcases eq_nil_or_concat' pre with rfl | ⟨l, b, rfl⟩
  · rfl
  · have hfind : find BufferHead.start b.start (l ++ [b] ++ post) = some b := by
      rw [← append_cons] at ht ⊢
      exact find_cut ht.sorted
    rw [getLast?_append, getLast?_singleton, some_or, map_some, bind_some]
    rw [hfind]
    exact if_pos (hpre b (mem_append_right _ (mem_singleton_self b)))

/-- A head that begins before, and reaches further. -/
theorem firstOverlap_back (ht : Tidy (pre ++ bh :: post)) (hpre : ∀ b ∈ pre, b.fin ≤ x) (hlow : bh.start < x)
    (hin : x < bh.fin) :
    firstOverlap x (pre ++ bh :: post) = some bh.start := by
  have hs := ht.sorted
  have hbefore := starts_before ht hpre
  obtain ⟨-, -, -, -, hafter, -⟩ := tidy_cut.mp ht
  have hlb : lowerBound BufferHead.start x (pre ++ bh :: post) = first BufferHead.start post := by
    rw [append_cons]
    refine lowerBound_cut (forall_mem_append.mpr ⟨hbefore, forall_mem_singleton.mpr hlow⟩) fun b hb =>
      ?_
    exact hin.le.trans (hafter b hb)
  have hprev : prev BufferHead.start (first BufferHead.start post) (pre ++ bh :: post) = some bh.start := by
    cases post with
    | nil => rw [first, head?_nil, map_none, prev_end, getLast?_append]; rfl
    | cons c post =>
      rw [append_cons] at hs ⊢
      rw [first, head?_cons, map_some, prev_cut hs, getLast?_append]
      rfl
  have hne : first BufferHead.start post ≠ first BufferHead.start (pre ++ bh :: post) := by
    cases post with
    | nil => cases pre <;> simp [first]
    | cons c post =>
      have hc := hafter c mem_cons_self
      cases pre with
      | nil =>
        simp only [first, nil_append, head?_cons, map_some, ne_eq, some.injEq]
        omega
      | cons d pre =>
        have hd := hbefore d mem_cons_self
        simp only [first, cons_append, head?_cons, map_some, ne_eq, some.injEq]
        omega
  have hall : (first BufferHead.start post).all (x < ·) := by
    cases post with
    | nil => rfl
    | cons c post => simpa [first] using hin.trans_le (hafter c mem_cons_self)
  rw [firstOverlap, hlb]
  dsimp only
  rw [if_pos ⟨hne, hall⟩, hprev, bind_some, find_cut hs]
  exact if_neg (not_le.mpr hin)

/-- **Where a range begins**: at the first head that ends after its first byte. -/
theorem firstOverlap_cut (ht : Tidy (pre ++ post)) (hpre : ∀ b ∈ pre, b.fin ≤ x) (hpost : ∀ b ∈ post, x < b.fin) :
    firstOverlap x (pre ++ post) = first BufferHead.start post := by
  have hbefore := starts_before ht hpre
  cases post with
  | nil =>
    have hlb : lowerBound BufferHead.start x (pre ++ []) = none := lowerBound_cut hbefore nofun
    rw [firstOverlap, hlb]
    split
    · exact overlap_stays ht hpre (by rw [append_nil, prev_end])
    · rfl
  | cons bh post =>
    rcases lt_or_ge bh.start x with hlow | hhigh
    · exact firstOverlap_back ht hpre hlow (hpost bh mem_cons_self)
    · have hlb : lowerBound BufferHead.start x (pre ++ bh :: post) =
        first BufferHead.start (bh :: post) := by
        refine lowerBound_cut hbefore (forall_mem_cons.mpr ⟨hhigh, fun b hb => ?_⟩)
        exact hhigh.trans (lt_after ht.sorted b hb).le
      rw [firstOverlap, hlb]
      split
      · exact overlap_stays ht hpre (prev_cut ht.sorted)
      · rfl

end tidy

end ObjectCacher
end Osdc
end Ceph
