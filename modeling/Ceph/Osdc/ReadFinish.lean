/-
# The reply of a cached read

`bh_read_finish` walks over the heads of the range that was read (`Outstanding`), and gives
those that are still rx their part of the reply: they become clean, their waiters
are woken, and they are merged with clean neighbours.

The part is taken from `opos - bh->start()` on, which is where the head begins in itself and not in the
reply, so a head gets the first bytes of the reply wherever it lies. A clean neighbour on the right
is what the loop's iterator already points to when it is merged and erased. A waiter on a head that was
overwritten is not looked at.
-/
import Mathlib.Algebra.Order.BigOperators.Group.List
import Ceph.Osdc.Outstanding

namespace Ceph
namespace Osdc
namespace ObjectCacher

open List Option BufferHead Keyed
open Wire (Bytes)

/-! ### The code -/

/-- A short reply ends in zeroes. -/
def padded (length : ℕ) (bl : Bytes) : Bytes := bl ++ List.replicate (length - bl.length) 0

/-- `substr_of`. -/
def substrOf (bl : Bytes) (off len : ℕ) : Option Bytes :=
  if off + len ≤ bl.length then some ((bl.drop off).take len) else none

/-- The contexts that wait for a head. -/
def contexts (bh : BufferHead) : List ℕ := bh.waitforRead.flatMap Prod.snd

/-- The loop of `bh_read_finish`: the object, and the contexts that are finished. A head takes two
turns at most, the first to come to where it begins. -/
def readFinishLoop (start length : ℕ) (bl : Bytes) : ℕ → Object → List ℕ → Option ℕ → ℕ → Option (Object × List ℕ)
  | 0, _, _, _, _ => none
  | _ + 1, ob, woken, none, _ => some (ob, woken)
  | fuel + 1, ob, woken, some k, opos =>
    if start + length ≤ opos then some (ob, woken)
    else (ob.find k).bind fun bh =>
      if opos < bh.start then readFinishLoop start length bl fuel ob woken (some k) bh.start        -- weirdness: gap
      else if bh.state ≠ .rx then
        (Keyed.next BufferHead.start k ob.data).bind fun p => readFinishLoop start length bl fuel ob woken p bh.fin
      else if bh.start = opos ∧ bh.length ≤ start + length - opos then
        (substrOf bl (opos - bh.start) bh.length).bind fun sub =>
          let bh' := { bh with bl := sub }
          let ob := bhSetState bh' .clean (putHead bh' ob)
          (Keyed.next BufferHead.start k ob.data).bind fun p =>
            let ob := putHead { bh' with state := .clean, waitforRead := [] } ob
            (tryMergeBh k ob).bind fun ob => readFinishLoop start length bl fuel ob (woken ++ contexts bh) p bh.fin
      else none

/-- `bh_read_finish`, of an object that may be gone. -/
def bhReadFinish (start length : ℕ) (bl : Bytes) : Option Object → Option (Option Object × List ℕ)
  | none => some (none, [])
  | some ob => (readFinishLoop start length (padded length bl) (2 * ob.data.length + 1) ob []
      (Keyed.lowerBound BufferHead.start start ob.data) start).map fun r => (some r.1, r.2)

/-! ### What it is for -/

/-- Still rx, in the range. -/
def Awaited (start length : ℕ) (bh : BufferHead) : Prop := bh.state = .rx ∧ start ≤ bh.start ∧ bh.fin ≤ start + length

instance (start length : ℕ) (bh : BufferHead) : Decidable (Awaited start length bh) :=
  inferInstanceAs (Decidable (_ ∧ _ ∧ _))

/-- `c` is not a clean head of the range that begins where `h` ends, if `h` is still rx. -/
def Follows (start length : ℕ) (h c : BufferHead) : Prop :=
  Awaited start length h → c.state = .clean → c.start = h.fin → start + length ≤ c.start

instance (start length : ℕ) : DecidableRel (Follows start length) :=
  fun _ _ => inferInstanceAs (Decidable (_ → _ → _ → _))

/-- Who waits for a byte of the range. -/
def waitersIn (start length : ℕ) (bh : BufferHead) : List ℕ :=
  (bh.waitforRead.filter fun w => start ≤ w.1 ∧ w.1 < start + length).flatMap Prod.snd

/-- The heads that were rx have the bytes of the reply at their own position, those that are dirty
or written stay, who waits for a byte of the range is woken once, and all of the range is there. -/
structure Delivered (start length : ℕ) (bl : Bytes) (ob r : Object) (woken : List ℕ) : Prop where
  bytes : ∀ bh ∈ ob.data, Awaited start length bh → ∀ x, bh.start ≤ x → x < bh.fin →
    peek r.data x = some (.clean, (padded length bl)[x - start]?)
  kept : ∀ bh ∈ ob.data, bh.state = .dirty ∨ bh.state = .tx → bh ∈ r.data
  woken : woken.Perm (ob.data.flatMap (waitersIn start length))
  covered : ∀ x, start ≤ x → x < start + length → ∃ s b, peek r.data x = some (s, some b) ∧ s ≠ .rx ∧ s ≠ .missing

/-- Each head that is rx has at its own position the bytes that the reply begins with, no clean head of the range
begins where one ends, and nobody waits for a byte of the range at another head. -/
structure Deliverable (start length : ℕ) (bl : Bytes) (data : List BufferHead) : Prop where
  alike : ∀ bh ∈ data, Awaited start length bh → ∀ i < bh.length,
    (padded length bl)[i]? = (padded length bl)[bh.start - start + i]?
  apart : data.Pairwise (Follows start length)
  known : ∀ bh ∈ data, ¬ Awaited start length bh → waitersIn start length bh = []

/-- A head with what it is given. -/
def filled (start length : ℕ) (bl : Bytes) (bh : BufferHead) : BufferHead :=
  if Awaited start length bh then { bh with state := .clean, bl := bl.take bh.length, waitforRead := [] } else bh

/-- Who is woken at a head. -/
def answered (start length : ℕ) (bh : BufferHead) : List ℕ := if Awaited start length bh then contexts bh else []

section loop

variable {pre post rest : List BufferHead} {h : BufferHead} {stat : State → ℤ}
  {ob : Object} {start length fuel opos : ℕ} {bl : Bytes}
  {woken : List ℕ} {p : Option ℕ}

/-! ### A turn of the loop -/

theorem readFinishLoop_past (hpast : start + length ≤ opos) :
    readFinishLoop start length bl (fuel + 1) ob woken p opos = some (ob, woken) := by
  cases p with
  | none => rfl
  | some k => exact if_pos hpast

theorem readFinishLoop_gap (bl : Bytes) (stat : State → ℤ) (woken : List ℕ) (fuel : ℕ)
    (hs : Keyed.Sorted BufferHead.start (pre ++ h :: rest)) (hle : opos ≤ h.start) :
    ∃ m, fuel ≤ m ∧ readFinishLoop start length bl (fuel + 2) ⟨pre ++ h :: rest, stat⟩ woken (some h.start) opos =
      readFinishLoop start length bl (m + 1) ⟨pre ++ h :: rest, stat⟩ woken (some h.start) h.start := by
  rcases eq_or_lt_of_le hle with rfl | hlt
  · exact ⟨fuel + 1, Nat.le_succ fuel, rfl⟩
  · refine ⟨fuel, le_rfl, ?_⟩
    rcases lt_or_ge opos (start + length) with hin | hpast
    · rw [readFinishLoop, if_neg hin.not_ge, Object.find, Keyed.find_cut hs, bind_some, if_pos hlt]
    · rw [readFinishLoop_past hpast, readFinishLoop_past (hpast.trans hle)]

theorem readFinishLoop_skip (hs : Keyed.Sorted BufferHead.start (pre ++ h :: rest)) (hin : h.start < start + length)
    (hrx : h.state ≠ .rx) :
    readFinishLoop start length bl (fuel + 1) ⟨pre ++ h :: rest, stat⟩ woken (some h.start) h.start =
      readFinishLoop start length bl fuel ⟨pre ++ h :: rest, stat⟩ woken (Keyed.first BufferHead.start rest) h.fin := by
  rw [readFinishLoop, if_neg hin.not_ge, Object.find, Keyed.find_cut hs, bind_some, if_neg (lt_irrefl _),
    if_pos hrx,
    next_cut hs, bind_some]

/-- A head that is rx is filled, and merged. -/
theorem readFinishLoop_fill (stat : State → ℤ) (woken : List ℕ) (fuel : ℕ) (ht : Tidy (pre ++ h :: rest))
    (haw : Awaited start length h) (hbl : length ≤ bl.length) :
    ∃ stat', readFinishLoop start length bl (fuel + 1) ⟨pre ++ h :: rest, stat⟩ woken (some h.start) h.start =
      (tryMergeBh h.start ⟨pre ++ filled start length bl h :: rest, stat'⟩).bind fun ob =>
        readFinishLoop start length bl fuel ob (woken ++ contexts h) (Keyed.first BufferHead.start rest) h.fin := by
  have hs := ht.sorted
  have hpos := ht.pos h (by simp)
  have hfin : h.fin = h.start + h.length := rfl
  obtain ⟨hrx, hge, hle⟩ := id haw
  have hsub : substrOf bl (h.start - h.start) h.length = some (bl.take h.length) := by
    rw [substrOf, Nat.sub_self, Nat.zero_add, if_pos (by omega), drop_zero]
  have hlen : (bl.take h.length).length = h.length := by
    rw [length_take]
    omega
  have ht' : Tidy (pre ++ { h with state := .clean, bl := bl.take h.length } :: rest) :=
    tidy_replace ht rfl rfl (.inr hlen)
  have hs' := ht'.sorted
  have hfill : filled start length bl h = { h with state := .clean, bl := bl.take h.length, waitforRead := [] } :=
    if_pos haw
  refine ⟨bhStatAdd { h with state := .clean, bl := bl.take h.length }
    (bhStatSub { h with bl := bl.take h.length } stat), ?_⟩
  rw [readFinishLoop, if_neg (by omega), Object.find, Keyed.find_cut hs, bind_some, if_neg (lt_irrefl _),
    if_neg (not_not.mpr hrx), if_pos ⟨rfl, by omega⟩, hsub, bind_some]
  dsimp only
  rw [set_put_cut ht (by rfl), next_cut hs', bind_some, putHead_cut hs' (by rfl), hfill]

theorem filled_start (b : BufferHead) : (filled start length bl b).start = b.start := by
  unfold filled
  split <;> rfl

theorem filled_length (b : BufferHead) : (filled start length bl b).length = b.length := by
  unfold filled
  split <;> rfl

theorem filled_fin (b : BufferHead) : (filled start length bl b).fin = b.fin := by
  rw [fin, filled_start, filled_length, fin]

theorem filled_full {b : BufferHead} (haw : Awaited start length b) (hbl : length ≤ bl.length) :
    (filled start length bl b).state = .clean ∧ (filled start length bl b).bl.length = b.length := by
  obtain ⟨-, hge, hle⟩ := id haw
  have hfin : b.fin = b.start + b.length := rfl
  rw [filled, if_pos haw]
  refine ⟨rfl, ?_⟩
  rw [length_take]
  omega

/-! ### The loop -/

/-- What is known where the loop is: `post` are the heads to come. -/
structure Ahead (start length opos : ℕ) (pre post : List BufferHead) : Prop where
  tidy : Tidy (pre ++ post)
  full : ∀ b ∈ pre ++ post, b.state = .clean → b.bl.length = b.length
  inside : ∀ b ∈ post, b.state = .rx → b.start < start + length → b.fin ≤ start + length
  low : ∀ b ∈ post, start ≤ b.start ∧ opos ≤ b.start

/-- What the loop does to the heads to come. -/
structure Fills (start length : ℕ) (bl : Bytes) (pre post : List BufferHead) (r : Object) : Prop where
  peek_eq : ∀ x, peek r.data x = peek (pre ++ post.map (filled start length bl)) x
  kept : ∀ b ∈ pre ++ post, b.state = .dirty ∨ b.state = .tx → b ∈ r.data

theorem past_unchanged (hpast : ∀ b ∈ post, start + length ≤ b.start) (hpos : ∀ b ∈ post, 0 < b.length) :
    post.map (filled start length bl) = post ∧ post.flatMap (answered start length) = [] ∧
      post.Pairwise (Follows start length) := by
  have hnot : ∀ b ∈ post, ¬ Awaited start length b := fun b hb haw => by
    have hfin : b.fin = b.start + b.length := rfl
    have := hpast b hb
    have := hpos b hb
    have := haw.2.2
    omega
  refine ⟨?_, flatMap_eq_nil_iff.mpr fun b hb => if_neg (hnot b hb),
    pairwise_of_forall_mem_list fun h _ c hc _ _ _ => hpast c hc⟩
  exact (map_congr_left fun b hb => if_neg (hnot b hb)).trans (map_id post)

/-- **A head is filled and merged to the left**: `g` is the head it is in. -/
structure Joined (start length : ℕ) (bl : Bytes) (pre : List BufferHead) (h : BufferHead)
    (rest pre' : List BufferHead) (g : BufferHead) : Prop where
  merged : Merged .clean (pre ++ filled start length bl h :: rest) (pre' ++ g :: rest)
  peek_eq : ∀ x, peek (pre' ++ [g]) x = peek (pre ++ [filled start length bl h]) x
  start_le : g.start ≤ h.start
  fin_eq : g.fin = h.fin
  clean : g.state = .clean
  full : g.bl.length = g.length

theorem Ahead.tidy_fill (ha : Ahead start length opos pre (h :: rest)) (haw : Awaited start length h)
    (hbl : length ≤ bl.length) :
    Tidy (pre ++ filled start length bl h :: rest) ∧
      ∀ b ∈ pre ++ filled start length bl h :: rest, b.state = .clean → b.bl.length = b.length := by
  have hfull : (filled start length bl h).bl.length = (filled start length bl h).length :=
    (filled_full haw hbl).2.trans (filled_length h).symm
  refine ⟨tidy_replace ha.tidy (filled_start h) (filled_length h) (.inr hfull), ?_⟩
  exact forall_mem_cut.mpr ⟨fun _ => hfull, (forall_mem_cut.mp ha.full).2⟩

theorem readFinishLoop_joined (stat : State → ℤ) (woken : List ℕ) (fuel : ℕ)
    (ha : Ahead start length opos pre (h :: rest)) (haw : Awaited start length h) (hbl : length ≤ bl.length) :
    ∃ pre' g stat', Joined start length bl pre h rest pre' g ∧
      readFinishLoop start length bl (fuel + 1) ⟨pre ++ h :: rest, stat⟩ woken (some h.start) h.start =
        (tryMergeRight g.start ⟨pre' ++ g :: rest, stat'⟩).bind fun ob =>
          readFinishLoop start length bl fuel ob (woken ++ contexts h) (Keyed.first BufferHead.start rest) h.fin := by
  obtain ⟨stat', hturn⟩ := readFinishLoop_fill stat woken fuel ha.tidy haw hbl
  obtain ⟨htidy, hfull⟩ := ha.tidy_fill haw hbl
  have hclean := (filled_full haw hbl).1
  obtain ⟨pre', g, hmerged, hpeek, hle, hfin, hstate, hlen, htry⟩ := tryMergeBh_cut stat' htidy
    fun b hb heq => hfull b hb (heq.trans hclean)
  rw [filled_start] at hle htry
  rw [hclean] at hmerged hstate
  refine ⟨pre', g, stat', ⟨hmerged, hpeek, hle, hfin.trans (filled_fin h), hstate, hlen⟩, ?_⟩
  rw [hturn, htry]

/-- The clean neighbour is merged, and the iterator was on it. -/
theorem readFinishLoop_erased {c : BufferHead} (ha : Ahead start length opos pre (h :: c :: rest))
    (haw : Awaited start length h)
    (hbl : length ≤ bl.length) (hclean : c.state = .clean) (hadj : c.start = h.fin) (hin : c.start < start + length) :
    readFinishLoop start length bl (fuel + 1) ⟨pre ++ h :: c :: rest, stat⟩ woken (some h.start) h.start = none := by
  obtain ⟨pre', g, stat', hj, hturn⟩ := readFinishLoop_joined stat woken fuel ha haw hbl
  have ht := hj.merged.same.tidy
  have hjoin := tryMergeRight_joins stat' ht (hj.fin_eq.trans hadj.symm) (hj.clean.trans hclean.symm)
  have hlow := hj.start_le
  have hlt := lt_after ha.tidy.sorted c mem_cons_self
  have hafter := lt_after_second ha.tidy.sorted
  have hgone : Object.find ⟨pre' ++ g.join c :: rest, stat'⟩ c.start = none := by
    refine find?_eq_none.mpr fun b hb => ?_
    rcases mem_append.mp hb with hb | hb
    · have := before_lt ht.sorted b hb
      simp only [decide_eq_true_eq]
      omega
    · rcases mem_cons.mp hb with rfl | hb
      · change ¬ decide (g.start = c.start) = true
        simp only [decide_eq_true_eq]
        omega
      · simpa using (hafter b hb).ne'
  rw [hturn, hjoin, bind_some]
  cases fuel with
  | zero => rfl
  | succ fuel =>
    change (if start + length ≤ h.fin then _ else (Object.find _ c.start).bind _) = _
    rw [if_neg (by omega), hgone, bind_none]

theorem readFinishLoop_last (stat : State → ℤ) (woken : List ℕ) (fuel : ℕ)
    (ha : Ahead start length opos pre (h :: rest)) (haw : Awaited start length h) (hbl : length ≤ bl.length)
    (hpast : start + length ≤ h.fin) :
    ∃ r, readFinishLoop start length bl (fuel + 2) ⟨pre ++ h :: rest, stat⟩ woken (some h.start) h.start =
      some (r, woken ++ contexts h) ∧
      Merged .clean (pre ++ filled start length bl h :: rest) r.data := by
  obtain ⟨stat', hturn⟩ := readFinishLoop_fill stat woken (fuel + 1) ha.tidy haw hbl
  obtain ⟨htidy, hfull⟩ := ha.tidy_fill haw hbl
  have hclean := (filled_full haw hbl).1
  obtain ⟨data', htry, hmerged⟩ := tryMergeBh_merged stat' htidy fun b hb heq => hfull b hb (heq.trans hclean)
  rw [filled_start] at htry
  rw [hclean] at hmerged
  refine ⟨⟨data', stat'⟩, ?_, hmerged⟩
  rw [hturn, htry, bind_some, readFinishLoop_past hpast]

theorem readFinishLoop_next (stat : State → ℤ) (woken : List ℕ) (fuel : ℕ)
    (ha : Ahead start length opos pre (h :: rest)) (haw : Awaited start length h) (hbl : length ≤ bl.length)
    (hfollows : ∀ c ∈ rest, Follows start length h c) (hin : h.fin < start + length) :
    ∃ pre' g stat', Joined start length bl pre h rest pre' g ∧
      readFinishLoop start length bl (fuel + 1) ⟨pre ++ h :: rest, stat⟩ woken (some h.start) h.start =
        readFinishLoop start length bl fuel ⟨pre' ++ g :: rest, stat'⟩ (woken ++ contexts h)
          (Keyed.first BufferHead.start rest) h.fin := by
  obtain ⟨pre', g, stat', hj, hturn⟩ := readFinishLoop_joined stat woken fuel ha haw hbl
  refine ⟨pre', g, stat', hj, ?_⟩
  have hstay := tryMergeRight_stays stat' hj.merged.same.tidy.sorted fun c hc heq => by
    have hmem := mem_of_mem_head? hc
    have := hfollows c hmem haw (heq.2.trans hj.clean) (heq.1.trans hj.fin_eq)
    have := hj.fin_eq
    omega
  rw [hturn, hstay, bind_some]

theorem Ahead.after (ha : Ahead start length opos pre (h :: rest)) {l : List BufferHead} (ht : Tidy (l ++ rest))
    (hfull : ∀ b ∈ l ++ rest, b.state = .clean → b.bl.length = b.length) : Ahead start length h.fin l rest := by
  obtain ⟨-, -, -, -, hafter, -⟩ := tidy_cut.mp ha.tidy
  refine ⟨ht, hfull, fun b hb => ha.inside b (mem_cons_of_mem _ hb), fun b hb => ?_⟩
  exact ⟨(ha.low b (mem_cons_of_mem _ hb)).1, hafter b hb⟩

theorem Ahead.skip (ha : Ahead start length opos pre (h :: rest)) : Ahead start length h.fin (pre ++ [h]) rest := by
  apply ha.after
  · rw [← append_cons]
    exact ha.tidy
  · rw [← append_cons]
    exact ha.full

theorem Ahead.join {pre' : List BufferHead} {g : BufferHead} (ha : Ahead start length opos pre (h :: rest))
    (haw : Awaited start length h) (hbl : length ≤ bl.length) (hj : Joined start length bl pre h rest pre' g) :
    Ahead start length h.fin (pre' ++ [g]) rest := by
  apply ha.after
  · rw [← append_cons]
    exact hj.merged.same.tidy
  intro b hb hclean
  rw [← append_cons] at hb
  rcases hj.merged.origin b hb with hold | hnew
  · exact (ha.tidy_fill haw hbl).2 b hold hclean
  · exact hnew.2

theorem Ahead.past (bl : Bytes) (ha : Ahead start length opos pre post) (hpast : ∀ b ∈ post, start + length ≤ b.start) :
    post.map (filled start length bl) = post ∧ post.flatMap (answered start length) = [] ∧
      post.Pairwise (Follows start length) :=
  past_unchanged hpast fun b hb => ha.tidy.pos b (mem_append_right _ hb)

theorem mem_filled {b : BufferHead} (hb : b ∈ pre ++ h :: rest) (hrx : h.state = .rx)
    (hstate : b.state = .dirty ∨ b.state = .tx) :
    b ∈ pre ++ filled start length bl h :: rest := by
  rcases mem_append.mp hb with hb | hb
  · exact mem_append_left _ hb
  · rcases mem_cons.mp hb with rfl | hb
    · rw [hrx] at hstate
      exact absurd hstate (by decide)
    · exact mem_append_right _ (mem_cons_of_mem _ hb)

/-- **All heads to come are filled**, where no clean one follows. -/
theorem readFinishLoop_fills (hbl : length ≤ bl.length) :
    ∀ {post pre : List BufferHead} (stat : State → ℤ) (woken : List ℕ) {opos fuel : ℕ},
    Ahead start length opos pre post → post.Pairwise (Follows start length) → 2 * post.length + 1 ≤ fuel →
    ∃ r, readFinishLoop start length bl fuel ⟨pre ++ post, stat⟩ woken (Keyed.first BufferHead.start post) opos =
      some (r, woken ++ post.flatMap (answered start length)) ∧ Fills start length bl pre post r := by
  intro post
  induction post with
  | nil =>
    intro pre stat woken opos fuel ha _ hfuel
    obtain ⟨fuel, rfl⟩ : ∃ f, fuel = f + 1 := Nat.exists_eq_add_of_le' hfuel
    refine ⟨⟨pre ++ [], stat⟩, ?_, fun _ => rfl, fun b hb _ => hb⟩
    rw [flatMap_nil, append_nil woken]
    rfl
  | cons h rest ih =>
    intro pre stat woken opos fuel ha hpair hfuel
    obtain ⟨hfollows, hpair⟩ := pairwise_cons.mp hpair
    obtain ⟨hge, hopos⟩ := ha.low h mem_cons_self
    rw [length_cons] at hfuel
    obtain ⟨fuel, rfl⟩ : ∃ f, fuel = f + 2 := Nat.exists_eq_add_of_le' (by omega)
    obtain ⟨m, hm, hgap⟩ := readFinishLoop_gap bl stat woken fuel ha.tidy.sorted hopos
    change ∃ r, readFinishLoop start length bl (fuel + 2) _ _ (some h.start) opos = _ ∧ _
    rw [hgap, flatMap_cons]
    obtain ⟨-, -, -, -, hafter, -⟩ := tidy_cut.mp ha.tidy
    rcases lt_or_ge h.start (start + length) with hin | hpast
    · by_cases hrx : h.state = .rx
      · have haw : Awaited start length h := ⟨hrx, hge, ha.inside h mem_cons_self hrx hin⟩
        have hanswer : answered start length h = contexts h := if_pos haw
        rw [hanswer, ← append_assoc]
        rcases lt_or_ge h.fin (start + length) with hmore | hlast
        · -- one more is filled
          obtain ⟨pre', g, stat', hj, hturn⟩ := readFinishLoop_next stat woken m ha haw hbl hfollows hmore
          obtain ⟨r, hloop, hfills⟩ := ih stat' (woken ++ contexts h) (ha.join haw hbl hj) hpair
            (by omega : 2 * rest.length + 1 ≤ m)
          rw [← append_cons] at hloop
          refine ⟨r, hturn.trans hloop, fun x => ?_, fun b hb hstate => hfills.kept b ?_ hstate⟩
          · rw [hfills.peek_eq, peek_append, hj.peek_eq, ← peek_append, append_assoc, singleton_append,
              map_cons]
          · rw [← append_cons]
            refine hj.merged.kept b (mem_filled hb hrx hstate) ?_
            rcases hstate with hs | hs <;> rw [hs] <;> nofun
        · -- this is the last
          obtain ⟨m, rfl⟩ : ∃ f, m = f + 1 := Nat.exists_eq_add_of_le' (by omega)
          obtain ⟨r, hloop, hmerged⟩ := readFinishLoop_last stat woken m ha haw hbl hlast
          obtain ⟨hmap, hwoken, -⟩ := ha.skip.past bl fun b hb => hlast.trans (hafter b hb)
          rw [hwoken, append_nil]
          refine ⟨r, hloop, fun x => ?_, fun b hb hstate => hmerged.kept b (mem_filled hb hrx hstate) ?_⟩
          · rw [hmerged.same.peek_eq, map_cons, hmap]
          · rcases hstate with hs | hs <;> rw [hs] <;> nofun
      · -- one that is not rx
        have hnot : ¬ Awaited start length h := fun haw => hrx haw.1
        have hanswer : answered start length h = [] := if_neg hnot
        have hfilled : filled start length bl h = h := if_neg hnot
        obtain ⟨r, hloop, hfills⟩ := ih stat woken ha.skip hpair (by omega : 2 * rest.length + 1 ≤ m)
        rw [← append_cons] at hloop
        refine ⟨r, ?_, fun x => ?_, fun b hb hstate => hfills.kept b (append_cons pre h rest ▸ hb) hstate⟩
        · rw [readFinishLoop_skip ha.tidy.sorted hin hrx, hloop, hanswer, nil_append]
        · rw [hfills.peek_eq, append_assoc, singleton_append, map_cons, hfilled]
    · -- the range is behind
      have hall : ∀ b ∈ h :: rest, start + length ≤ b.start := by
        refine forall_mem_cons.mpr ⟨hpast, fun b hb => ?_⟩
        have hfin : h.fin = h.start + h.length := rfl
        have := hafter b hb
        omega
      obtain ⟨hmap, hwoken, -⟩ := ha.past bl hall
      rw [← flatMap_cons, hwoken, append_nil]
      refine ⟨_, readFinishLoop_past hpast, fun x => ?_, fun b hb _ => hb⟩
      rw [hmap]

/-- **The iterator is lost**, where a clean one follows. -/
theorem readFinishLoop_lost (hbl : length ≤ bl.length) :
    ∀ {post pre : List BufferHead} (stat : State → ℤ) (woken : List ℕ) {opos fuel : ℕ},
    Ahead start length opos pre post → ¬ post.Pairwise (Follows start length) → 2 * post.length + 1 ≤ fuel →
    readFinishLoop start length bl fuel ⟨pre ++ post, stat⟩ woken (Keyed.first BufferHead.start post) opos = none := by
  intro post
  induction post with
  | nil =>
    intro pre stat woken opos fuel _ hpair _
    exact absurd .nil hpair
  | cons h rest ih =>
    intro pre stat woken opos fuel ha hpair hfuel
    obtain ⟨hge, hopos⟩ := ha.low h mem_cons_self
    rw [length_cons] at hfuel
    obtain ⟨fuel, rfl⟩ : ∃ f, fuel = f + 2 := Nat.exists_eq_add_of_le' (by omega)
    obtain ⟨m, hm, hgap⟩ := readFinishLoop_gap bl stat woken fuel ha.tidy.sorted hopos
    change readFinishLoop start length bl (fuel + 2) _ _ (some h.start) opos = _
    rw [hgap]
    obtain ⟨-, -, -, -, hafter, -⟩ := tidy_cut.mp ha.tidy
    have hfin : h.fin = h.start + h.length := rfl
    have hin : h.start < start + length := by
      refine not_le.mp fun hpast => hpair (ha.past bl (forall_mem_cons.mpr ⟨hpast, fun b hb => ?_⟩)).2.2
      have := hafter b hb
      omega
    rw [pairwise_cons] at hpair
    by_cases hrx : h.state = .rx
    · have haw : Awaited start length h := ⟨hrx, hge, ha.inside h mem_cons_self hrx hin⟩
      by_cases hfollows : ∀ c ∈ rest, Follows start length h c
      · have hpair' : ¬ rest.Pairwise (Follows start length) := fun hp => hpair ⟨hfollows, hp⟩
        have hmore : h.fin < start + length :=
          not_le.mp fun hlast => hpair' (ha.skip.past bl fun b hb => hlast.trans (hafter b hb)).2.2
        obtain ⟨pre', g, stat', hj, hturn⟩ := readFinishLoop_next stat woken m ha haw hbl hfollows hmore
        have hloop := ih stat' (woken ++ contexts h) (ha.join haw hbl hj) hpair'
          (by omega : 2 * rest.length + 1 ≤ m)
        rw [← append_cons] at hloop
        exact hturn.trans hloop
      · -- the clean head is the next one
        obtain ⟨c, hc, hnot⟩ := not_forall₂.mp hfollows
        obtain ⟨-, hclean, hadj, hlow⟩ : Awaited start length h ∧ c.state = .clean ∧ c.start = h.fin ∧
          ¬ start + length ≤ c.start := by
          simpa [Follows] using hnot
        cases rest with
        | nil => cases hc
        | cons d rest =>
          have hd : c = d := by
            refine (mem_cons.mp hc).resolve_right fun hc => ?_
            have := lt_after_second ha.tidy.sorted c hc
            have := hafter d mem_cons_self
            omega
          subst hd
          exact readFinishLoop_erased ha haw hbl hclean hadj (not_le.mp hlow)
    · have hpair' : ¬ rest.Pairwise (Follows start length) := fun hp => hpair ⟨fun c _ haw => absurd haw.1 hrx, hp⟩
      have hloop := ih stat woken ha.skip hpair' (by omega : 2 * rest.length + 1 ≤ m)
      rw [← append_cons] at hloop
      exact (readFinishLoop_skip ha.tidy.sorted hin hrx).trans hloop

/-! ### From the first head of the range -/

variable {data : List BufferHead} {bh : BufferHead} {x : ℕ}

theorem length_padded (length : ℕ) (bl : Bytes) : length ≤ (padded length bl).length := by
  rw [padded, length_append, length_replicate]
  omega

theorem peek_filled (ht : Tidy data) (hmem : bh ∈ data) (hin : bh.start ≤ x ∧ x < bh.fin) :
    peek (data.map (filled start length bl)) x = (filled start length bl bh).peek x := by
  obtain ⟨l, l', rfl⟩ := append_of_mem hmem
  obtain ⟨-, -, -, hbefore, -, -⟩ := tidy_cut.mp ht
  have hnone : peek (l.map (filled start length bl)) x = none := by
    refine not_isSome_iff_eq_none.mp fun hsome => ?_
    obtain ⟨b, hb, hlow, hhigh⟩ := peek_isSome.mp hsome
    obtain ⟨b', hb', rfl⟩ := mem_map.mp hb
    rw [filled_fin] at hhigh
    have := hbefore b' hb'
    omega
  have hsome : ((filled start length bl bh).peek x).isSome := by
    rw [BufferHead.peek, filled_start, filled_fin, if_pos hin]
    rfl
  rw [map_append, map_cons, peek_append, hnone, none_or, peek_cons, or_of_isSome hsome]

theorem Pending.cut (hp : Pending start length data) :
    ∃ pre post, data = pre ++ post ∧ Ahead start length start pre post ∧ (∀ b ∈ pre, ¬ Awaited start length b) ∧
      lowerBound BufferHead.start start data = Keyed.first BufferHead.start post := by
  obtain ⟨pre, post, rfl, hpre, hpost⟩ := exists_lower_cut hp.tidy.sorted start
  refine ⟨pre, post, rfl,
    ⟨hp.tidy, fun b hb hclean => ?_, fun b hb hrx hlow => ?_, fun b hb => ⟨hpost b hb, hpost b hb⟩⟩,
    fun b hb haw => (hpre b hb).not_ge haw.2.1, Keyed.lowerBound_cut hpre hpost⟩
  · exact (hp.ok b hb).full_at hclean nofun nofun
  · have hb' := mem_append_right pre hb
    exact ((hp.ok b hb').inside hrx hlow ((hpost b hb).trans_lt (hp.tidy.start_lt_fin hb'))).2

theorem before_unchanged (bl : Bytes) (hpre : ∀ b ∈ pre, ¬ Awaited start length b) :
    pre.map (filled start length bl) = pre ∧ pre.flatMap (answered start length) = [] := by
  refine ⟨?_, flatMap_eq_nil_iff.mpr fun b hb => if_neg (hpre b hb)⟩
  exact (map_congr_left fun b hb => if_neg (hpre b hb)).trans (map_id pre)

theorem pairwise_after (hpre : ∀ b ∈ pre, ¬ Awaited start length b) :
    (pre ++ post).Pairwise (Follows start length) ↔ post.Pairwise (Follows start length) := by
  rw [pairwise_append]
  refine ⟨fun h => h.2.1, fun h => ⟨?_, h, fun b hb c _ haw => absurd haw (hpre b hb)⟩⟩
  exact pairwise_of_forall_mem_list fun b hb c _ haw => absurd haw (hpre b hb)

/-- **The heads of the range are filled**, where no clean one follows. -/
theorem bhReadFinish_fills (stat : State → ℤ) (hp : Pending start length data)
    (hpair : data.Pairwise (Follows start length)) (reply : Bytes) :
    ∃ r, bhReadFinish start length reply (some ⟨data, stat⟩) = some (some r, data.flatMap (answered start length)) ∧
      Fills start length (padded length reply) [] data r := by
  obtain ⟨pre, post, rfl, ha, hpre, hlb⟩ := hp.cut
  have hfuel : 2 * post.length + 1 ≤ 2 * (pre ++ post).length + 1 := by
    rw [length_append]
    omega
  obtain ⟨r, hloop, hfills⟩ := readFinishLoop_fills (length_padded length reply) stat [] ha
    ((pairwise_after hpre).mp hpair) hfuel
  obtain ⟨hmap, hwoken⟩ := before_unchanged (padded length reply) hpre
  refine ⟨r, ?_, fun x => ?_, hfills.kept⟩
  · rw [bhReadFinish, hlb, hloop, map_some, flatMap_append, hwoken]
  · rw [hfills.peek_eq, map_append, hmap, nil_append]

/-- **The loop goes wrong**, where one follows. -/
theorem bhReadFinish_lost (stat : State → ℤ) (hp : Pending start length data)
    (hpair : ¬ data.Pairwise (Follows start length)) (reply : Bytes) :
    bhReadFinish start length reply (some ⟨data, stat⟩) = none := by
  obtain ⟨pre, post, rfl, ha, hpre, hlb⟩ := hp.cut
  have hfuel : 2 * post.length + 1 ≤ 2 * (pre ++ post).length + 1 := by
    rw [length_append]
    omega
  rw [bhReadFinish, hlb,
    readFinishLoop_lost (length_padded length reply) stat [] ha (fun h => hpair ((pairwise_after hpre).mpr h)) hfuel]
  rfl

theorem peek_awaited (haw : Awaited start length bh) (hlow : bh.start ≤ x) (hhigh : x < bh.fin) :
    (filled start length bl bh).peek x = some (.clean, bl[x - bh.start]?) := by
  have hfin : bh.fin = bh.start + bh.length := rfl
  rw [BufferHead.peek, filled_start, filled_fin, if_pos ⟨hlow, hhigh⟩, filled, if_pos haw, getElem?_take,
    if_pos (by omega)]

/-! ### Who is woken -/

theorem waitersIn_awaited (hok : HeadOk start length bh) (hpos : 0 < bh.length) (haw : Awaited start length bh) :
    waitersIn start length bh = contexts bh := by
  have hfin : bh.fin = bh.start + bh.length := rfl
  obtain ⟨hrx, hge, hle⟩ := haw
  have hall := hok.waiters hrx (by omega) (by omega)
  rw [waitersIn, contexts, filter_eq_self.mpr fun w hw => decide_eq_true (hall w hw)]

theorem flatMap_tight {α β : Type} {f g : α → List β} {l : List α} (hle : ∀ a ∈ l, (f a).length ≤ (g a).length)
    (h : (l.flatMap f).length = (l.flatMap g).length) : ∀ a ∈ l, (f a).length = (g a).length := by
  rw [length_flatMap, length_flatMap] at h
  intro a ha
  by_contra hne
  exact (sum_lt_sum _ _ hle ⟨a, ha, lt_of_le_of_ne (hle a ha) hne⟩).ne h

/-- **All are woken** where nobody waits at another head, and only then. -/
theorem woken_perm (hp : Pending start length data) :
    (data.flatMap (answered start length)).Perm (data.flatMap (waitersIn start length)) ↔
      ∀ bh ∈ data, ¬ Awaited start length bh → waitersIn start length bh = [] := by
  have hanswer : ∀ bh ∈ data, Awaited start length bh → answered start length bh = waitersIn start length bh :=
    fun bh hb haw => by
    rw [answered, if_pos haw, waitersIn_awaited (hp.ok bh hb) (hp.tidy.pos bh hb) haw]
  constructor
  · intro hperm bh hb hnot
    have hle : ∀ bh ∈ data, (answered start length bh).length ≤ (waitersIn start length bh).length := fun bh hb => by
      by_cases haw : Awaited start length bh
      · rw [hanswer bh hb haw]
      · rw [answered, if_neg haw]
        exact Nat.zero_le _
    have hlen := flatMap_tight hle hperm.length_eq bh hb
    rw [answered, if_neg hnot] at hlen
    exact length_eq_zero_iff.mp hlen.symm
  · intro hknown
    rw [flatMap_congr fun bh hb => ?_]
    by_cases haw : Awaited start length bh
    · exact hanswer bh hb haw
    · rw [answered, if_neg haw, hknown bh hb haw]

end loop

/-- **A read is delivered** if each head that is rx has at its own position what the reply begins with, if no clean head
follows one, and if nobody waits at another head; and not otherwise. -/
theorem read_finish_delivers {start length : ℕ} {ob₀ ob : Object} {bh : BufferHead} (hb : Begins start length ob₀ bh)
    (h : Run.Reach (step start length) Run.anyAct (bhSetState bh .rx ob₀) ob) (reply : Bytes) :
    (∃ r woken, bhReadFinish start length reply (some ob) = some (some r, woken) ∧
      Delivered start length reply ob r woken) ↔
      Deliverable start length reply ob.data := by
  have hp := pending_reach hb h
  have hbl := length_padded length reply
  constructor
  · rintro ⟨r, woken, hfinish, hd⟩
    have hpair : ob.data.Pairwise (Follows start length) := by
      by_contra hpair
      cases (bhReadFinish_lost ob.stat hp hpair reply).symm.trans hfinish
    obtain ⟨r', hfinish', hfills⟩ := bhReadFinish_fills ob.stat hp hpair reply
    cases hfinish.symm.trans hfinish'
    refine ⟨fun b hb haw i hi => ?_, hpair, (woken_perm hp).mp hd.woken⟩
    have hfin : b.fin = b.start + b.length := rfl
    have hin : b.start ≤ b.start + i ∧ b.start + i < b.fin := by omega
    have hgiven := hd.bytes b hb haw (b.start + i) hin.1 hin.2
    rw [hfills.peek_eq, nil_append, peek_filled hp.tidy hb hin, peek_awaited haw hin.1 hin.2,
      Nat.add_sub_cancel_left] at hgiven
    have hpos : b.start + i - start = b.start - start + i := by
      have := haw.2.1
      omega
    rw [← hpos]
    exact congrArg Prod.snd (some.inj hgiven)
  · intro hd
    obtain ⟨r, hfinish, hfills⟩ := bhReadFinish_fills ob.stat hp hd.apart reply
    refine ⟨r, _, hfinish, fun b hb haw x hlow hhigh => ?_, hfills.kept, (woken_perm hp).mpr hd.known,
      fun x hlow hhigh => ?_⟩
    · have hfin : b.fin = b.start + b.length := rfl
      have hpos : b.start - start + (x - b.start) = x - start := by
        have := haw.2.1
        omega
      rw [hfills.peek_eq, nil_append, peek_filled hp.tidy hb ⟨hlow, hhigh⟩, peek_awaited haw hlow hhigh,
        hd.alike b hb haw (x - b.start) (by omega), hpos]
    · obtain ⟨b, hb, hin⟩ := hp.covered x hlow hhigh
      have hok := hp.ok b hb
      have hfin : b.fin = b.start + b.length := rfl
      rw [hfills.peek_eq, nil_append, peek_filled hp.tidy hb hin]
      by_cases haw : Awaited start length b
      · have hlt : x - b.start < (padded length reply).length := by
          have := haw.2
          omega
        refine ⟨.clean, (padded length reply)[x - b.start], ?_, nofun, nofun⟩
        rw [peek_awaited haw hin.1 hin.2, getElem?_eq_getElem hlt]
      · have hmissing := hok.here (by omega) (by omega)
        have hrx : b.state ≠ .rx := fun hrx => haw ⟨hrx, hok.inside hrx (by omega) (by omega)⟩
        have hlt : x - b.start < b.bl.length := by
          rw [hok.full hmissing hrx]
          omega
        refine ⟨b.state, b.bl[x - b.start], ?_, hrx, hmissing⟩
        rw [filled, if_neg haw, BufferHead.peek, if_pos hin, getElem?_eq_getElem hlt]

/-- The second of two bytes is overwritten, and the reply has the first. -/
theorem read_finish_delivers_first :
    ∃ ob, Run.Reach (step 0 2) Run.anyAct
        (bhSetState (BufferHead.new 0 2) .rx ⟨[BufferHead.new 0 2], Function.update 0 .missing 2⟩) ob ∧
      ∃ r woken, bhReadFinish 0 2 [1, 2] (some ob) = some (some r, woken) ∧ Delivered 0 2 [1, 2] ob r woken := by
  obtain ⟨ob, hexec, hdata⟩ : ∃ ob, Run.exec (step 0 2) Run.anyAct [.wait 0 0 7, .split 0 1, .write 1 [9] 3]
      (bhSetState (new 0 2) .rx ⟨[new 0 2], Function.update 0 .missing 2⟩) = some ob ∧
      ob.data = [⟨.rx, 0, 1, [], 0, 0, [(0, [7])]⟩, ⟨.dirty, 1, 1, [9], 0, 3, []⟩] := ⟨_, rfl, rfl⟩
  have hreach := Run.reach_of_exec hexec
  have hbegins : Begins 0 2 ⟨[new 0 2], Function.update 0 .missing 2⟩ (new 0 2) :=
    ⟨⟨by decide, by decide, by decide⟩, by decide, rfl, rfl, rfl, rfl⟩
  refine ⟨ob, hreach, (read_finish_delivers hbegins hreach [1, 2]).mpr ?_⟩
  rw [hdata]
  exact ⟨by decide, by decide, by decide⟩

/-- The first of two bytes is overwritten, and the second head gets the first byte of the reply. -/
theorem read_finish_wrong_part :
    ∃ ob, Begins 0 2 ⟨[BufferHead.new 0 2], Function.update 0 .missing 2⟩ (BufferHead.new 0 2) ∧
      Run.Reach (step 0 2) Run.anyAct
        (bhSetState (BufferHead.new 0 2) .rx ⟨[BufferHead.new 0 2], Function.update 0 .missing 2⟩) ob ∧
      ¬ ∃ r woken, bhReadFinish 0 2 [1, 2] (some ob) = some (some r, woken) ∧ Delivered 0 2 [1, 2] ob r woken := by
  obtain ⟨ob, hexec, hdata, r', hfinish, hpeek⟩ : ∃ ob, Run.exec (step 0 2) Run.anyAct [.split 0 1, .write 0 [9] 3]
      (bhSetState (new 0 2) .rx ⟨[new 0 2], Function.update 0 .missing 2⟩) = some ob ∧
      ob.data = [⟨.dirty, 0, 1, [9], 0, 3, []⟩, ⟨.rx, 1, 1, [], 0, 0, []⟩] ∧
      ∃ r, bhReadFinish 0 2 [1, 2] (some ob) = some (some r, []) ∧ peek r.data 1 = some (.clean, some 1) :=
        ⟨_, rfl, rfl, _, rfl, rfl⟩
  refine ⟨ob, ⟨⟨by decide, by decide, by decide⟩, by decide, rfl, rfl, rfl, rfl⟩, Run.reach_of_exec hexec, ?_⟩
  rintro ⟨r, woken, h, hd⟩
  cases hfinish.symm.trans h
  have hbytes := hd.bytes ⟨.rx, 1, 1, [], 0, 0, []⟩ (by rw [hdata]; decide) (by decide) 1 (by decide) (by decide)
  cases hpeek.symm.trans hbytes

end ObjectCacher
end Osdc
end Ceph
