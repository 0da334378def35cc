/-
# Mapping a write to one buffer head

`Object::map_write` makes one buffer head (`ObjectCacher`) of the heads and gaps of the extent that
is written: it splits those that reach further, and adds to the head that it has begun
with what comes next.

With the first head or gap alone this works. What is added to the head after
it is not: a gap adds to its length and not to the counters, and a second head is
joined with it by `merge_left`, which wants it to be in the same state, and erases what
the iterator of the loop points to.
-/
import Ceph.Osdc.ObjectCacher
import Ceph.Osdc.Striping

namespace Ceph
namespace Osdc
namespace ObjectCacher

open List BufferHead
open Option hiding min_eq_left min_eq_right min_le_right

/-! ### The code -/

/-- A head that begins at `cur` or before it, with `left` bytes to go: the object, the iterator and `final`. -/
def intersected (k cur left : ℕ) (bh : BufferHead) (final : Option ℕ) (ob : Object) : Option (Object × ℕ × ℕ) :=
  if k < cur then
    if final = none then
      (split k cur ob).bind fun ob => (Keyed.next BufferHead.start k ob.data).bind fun p =>
        if p = some cur then
          if bh.fin ≤ cur + left then some (ob, cur, cur)
          else (split cur (cur + left) ob).map fun ob => (ob, cur, cur)
        else none
    else none
  else
    (if bh.length ≤ left then some ob else split k (cur + left) ob).bind fun ob =>
      match final with
      | some f => (mergeLeft f k ob).map fun ob => (ob, k, f)
      | none => some (ob, k, k)

/-- The loop of `map_write`, which takes a byte at least each time. -/
def mapWriteLoop : ℕ → Object → Option ℕ → Option ℕ → ℕ → ℕ → Option (Object × Option ℕ)
  | 0, ob, _, final, _, left => if left = 0 then some (ob, final) else none
  | fuel + 1, ob, p, final, cur, left =>
    if left = 0 then some (ob, final)
    else
      match p with
      | none =>         -- at end?
        match final with
        | none => (bhAdd (BufferHead.new cur left) ob).bind fun ob =>
          mapWriteLoop fuel ob none (some cur) (cur + left) 0
        | some f => (ob.find f).bind fun bh =>
          mapWriteLoop fuel (setLength f (bh.length + left) ob) none (some f) (cur + left) 0
      | some k => (ob.find k).bind fun bh =>
        if k ≤ cur then
          (intersected k cur left bh final ob).bind fun r => (r.1.find r.2.2).bind fun f =>
            -- p++, of what is still there
            (Keyed.next BufferHead.start r.2.1 r.1.data).bind fun p =>
              mapWriteLoop fuel r.1 p (some r.2.2) (cur + (f.fin - cur)) (left - (f.fin - cur))
        else
          let glen := min (k - cur) left
          match final with
          | some f => (ob.find f).bind fun bh =>
            mapWriteLoop fuel (setLength f (bh.length + glen) ob) (some k) (some f) (cur + glen) (left - glen)
          | none => (bhAdd (BufferHead.new cur glen) ob).bind fun ob =>
            mapWriteLoop fuel ob (some k) (some cur) (cur + glen) (left - glen)

/-- `map_write`: the object, and the head that is returned. -/
def mapWrite (oid : ObjectT) (extents : List ObjectExtent) (ob : Object) : Option (Object × ℕ) :=
  (extents.foldlM (fun r ex =>
      if ex.oid ≠ oid then some r
      else mapWriteLoop ex.length r.1 (firstOverlap ex.start r.1.data) r.2 ex.start ex.length) (ob, none)).bind
    fun r => r.2.map fun f => (r.1, f)

/-! ### What it is for -/

/-- The head that is returned is the extent, the heads are apart, what is outside is as before,
and so are the counters. -/
structure Wrote (others : State → ℤ) (start length : ℕ) (ob r : Object) (f : ℕ) : Prop where
  head : ∃ bh ∈ r.data, bh.start = f ∧ bh.start = start ∧ bh.length = length
  apart : r.data.Pairwise fun a b => a.fin ≤ b.start
  outside : ∀ x, ¬ (start ≤ x ∧ x < start + length) → peek r.data x = peek ob.data x
  counted : Counted others r

/-- The extent is in a gap, or in one head. -/
def OnePiece (start length : ℕ) (data : List BufferHead) : Prop :=
  (∀ bh ∈ data, bh.fin ≤ start ∨ start + length ≤ bh.start) ∨ ∃ bh ∈ data, bh.start ≤ start ∧ start + length ≤ bh.fin

section loop

variable {pre post : List BufferHead} {bh f : BufferHead} {stat others : State → ℤ}
  {ob r : Object} {o p final : Option ℕ}
  {fuel cur left start length k : ℕ}

theorem mapWriteLoop_zero (fuel : ℕ) : mapWriteLoop fuel ob p final cur 0 = some (ob, final) := by
  cases fuel <;> exact if_pos rfl

theorem setLength_cut (hs : Keyed.Sorted BufferHead.start (pre ++ f :: post)) (n : ℕ) :
    setLength f.start n ⟨pre ++ f :: post, stat⟩ = ⟨pre ++ { f with length := n } :: post, stat⟩ := by
  rw [setLength, Keyed.modify_cut hs]

theorem sorted_longer (hs : Keyed.Sorted BufferHead.start (pre ++ f :: post)) (n : ℕ) :
    Keyed.Sorted BufferHead.start (pre ++ { f with length := n } :: post) := by
  obtain ⟨hpre, hpost, hbefore, hafter, hcross⟩ := Keyed.sorted_cut.mp hs
  exact Keyed.sorted_cut.mpr ⟨hpre, hpost, hbefore, hafter, hcross⟩

theorem total_longer (pre post : List BufferHead) (f : BufferHead) (n : ℕ) :
    total f.state (pre ++ { f with length := f.length + n } :: post) = total f.state (pre ++ f :: post) + n := by
  simp only [total_append, total_cons, if_true]
  omega

theorem intersected_next {q : ℕ} {res : Object × ℕ × ℕ} (h : intersected cur cur left bh (some q) ob = some res) :
    Keyed.next BufferHead.start res.2.1 res.1.data = none := by
  rw [intersected, if_neg (lt_irrefl cur)] at h
  obtain ⟨ob', -, hmerge⟩ := bind_eq_some_iff.mp h
  obtain ⟨r, hr, rfl⟩ := map_eq_some_iff.mp hmerge
  exact next_mergeLeft hr

/-- **What is added to a head** is not counted, and no head is joined to it. -/
theorem mapWriteLoop_adds :
    ∀ {fuel : ℕ} {f : BufferHead} {cur left : ℕ}, Keyed.Sorted BufferHead.start (pre ++ f :: post) →
    (∀ b ∈ post, cur ≤ b.start) →
    mapWriteLoop fuel ⟨pre ++ f :: post, stat⟩ (Keyed.first BufferHead.start post) (some f.start) cur left =
      some (r, o) →
    r.stat = stat ∧ total f.state r.data = total f.state (pre ++ f :: post) + left := by
  intro fuel
  induction fuel with
  | zero =>
    intro f cur left hs hpost h
    rw [mapWriteLoop] at h
    split_ifs at h with h0
    cases h
    exact ⟨rfl, by rw [h0, add_zero]⟩
  | succ fuel ih =>
    intro f cur left hs hpost h
    rw [mapWriteLoop.eq_def] at h
    dsimp only at h
    split_ifs at h with h0
    · cases h
      exact ⟨rfl, by rw [h0, add_zero]⟩
    · cases post with
      | nil =>
        -- the rest of the extent
        rw [Object.find, Keyed.find_cut hs, bind_some, mapWriteLoop_zero, setLength_cut hs] at h
        cases h
        exact ⟨rfl, total_longer pre [] f left⟩
      | cons b post =>
        have hcur := hpost b mem_cons_self
        change (Object.find _ b.start).bind _ = _ at h
        rw [Object.find, Keyed.find_second hs, bind_some] at h
        split_ifs at h with hle
        · -- the next head begins here
          obtain ⟨res, hint, hbind⟩ := bind_eq_some_iff.mp h
          obtain ⟨g, -, hbind⟩ := bind_eq_some_iff.mp hbind
          obtain ⟨p, hnext, -⟩ := bind_eq_some_iff.mp hbind
          rw [le_antisymm hle hcur] at hint
          cases (intersected_next hint).symm.trans hnext
        · -- a gap
          rw [Object.find, Keyed.find_cut hs, bind_some, setLength_cut hs] at h
          have hafter : ∀ c ∈ b :: post, cur + min (b.start - cur) left ≤ c.start := by
            have hle : cur + min (b.start - cur) left ≤ b.start := by omega
            exact forall_mem_cons.mpr ⟨hle, fun c hc => hle.trans (Keyed.lt_after_second hs c hc).le⟩
          obtain ⟨hstat, htotal⟩ := ih (sorted_longer hs _) hafter h
          have hlonger := total_longer pre (b :: post) f (min (b.start - cur) left)
          dsimp only at htotal
          refine ⟨hstat, ?_⟩
          omega

theorem turn_intersected (hs : Keyed.Sorted BufferHead.start (pre ++ f :: post)) (hstart : f.start = start)
    (hbh : ob.find k = some bh) (hk : k ≤ start)
    (hint : intersected k start length bh none ob = some (⟨pre ++ f :: post, stat⟩, start, start)) (hpos : length ≠ 0) :
    mapWriteLoop (fuel + 1) ob (some k) none start length =
      mapWriteLoop fuel ⟨pre ++ f :: post, stat⟩ (Keyed.first BufferHead.start post) (some start) f.fin
        (length - f.length) := by
  subst hstart
  have hfin : f.fin = f.start + f.length := rfl
  rw [mapWriteLoop, if_neg hpos, hbh, bind_some, if_pos hk, hint, bind_some]
  rw [Object.find, Keyed.find_cut hs, bind_some, Keyed.next_cut hs, bind_some, hfin,
    Nat.add_sub_cancel_left]

/-- **The head that the extent begins in** is split where it reaches further. -/
theorem intersected_first (stat : State → ℤ) (ht : Tidy (pre ++ bh :: post)) (hin : bh.start ≤ start ∧ start < bh.fin)
    (hpos : 0 < length) :
    ∃ pre' f post', f.start = start ∧ f.fin = min bh.fin (start + length) ∧
      SameContent (pre ++ bh :: post) (pre' ++ f :: post') ∧
      intersected bh.start start length bh none ⟨pre ++ bh :: post, stat⟩ =
        some (⟨pre' ++ f :: post', stat⟩, start, start) := by
  have hfin : bh.fin = bh.start + bh.length := rfl
  rcases lt_or_ge bh.start start with hlt | hge
  · -- the right half, or the middle
    have hoff : bh.start < start ∧ start < bh.fin := ⟨hlt, hin.2⟩
    have hsplit := sameContent_split ht hoff
    have hnext : Keyed.next BufferHead.start bh.start (pre ++ bh.leftOf start :: bh.rightOf start :: post) =
      some (some start) :=
      Keyed.next_cut (a := bh.leftOf start) hsplit.tidy.sorted
    have hlist := append_cons pre (bh.leftOf start) (bh.rightOf start :: post)
    rw [intersected, if_pos hlt, if_pos rfl, split_cut ht hoff, bind_some, hnext, bind_some, if_pos rfl]
    rcases le_or_gt bh.fin (start + length) with hle | hgt
    · refine ⟨pre ++ [bh.leftOf start], bh.rightOf start, post, rfl, ?_, hlist ▸ hsplit, ?_⟩
      · rw [fin_rightOf hoff, min_eq_left hle]
      · rw [if_pos hle, ← hlist]
    · have hoff' : (bh.rightOf start).start < start + length ∧ start + length < (bh.rightOf start).fin := by
        rw [fin_rightOf hoff]
        exact ⟨Nat.lt_add_of_pos_right hpos, hgt⟩
      rw [hlist] at hsplit
      have hsplit' := sameContent_split hsplit.tidy hoff'
      refine ⟨pre ++ [bh.leftOf start], (bh.rightOf start).leftOf (start + length),
        (bh.rightOf start).rightOf (start + length) :: post, rfl, ?_, hsplit.trans hsplit', ?_⟩
      · rw [fin_leftOf hoff', min_eq_right hgt.le]
      · have hcut : split start (start + length) ⟨pre ++ [bh.leftOf start] ++ bh.rightOf start :: post, stat⟩ = _ :=
          split_cut hsplit.tidy hoff'
        rw [if_neg (not_le.mpr hgt), hlist, hcut, map_some]
  · -- the whole head, or its left half
    obtain rfl : start = bh.start := le_antisymm hge hin.1
    rw [intersected, if_neg (lt_irrefl _)]
    rcases le_or_gt bh.length length with hle | hgt
    · refine ⟨pre, bh, post, rfl, ?_, .refl ht, ?_⟩
      · rw [hfin, min_eq_left (Nat.add_le_add_left hle _)]
      · rw [if_pos hle, bind_some]
    · have hoff : bh.start < bh.start + length ∧ bh.start + length < bh.fin :=
        ⟨Nat.lt_add_of_pos_right hpos, Nat.add_lt_add_left hgt _⟩
      refine ⟨pre, bh.leftOf (bh.start + length), bh.rightOf (bh.start + length) :: post, rfl, ?_,
        sameContent_split ht hoff, ?_⟩
      · rw [fin_leftOf hoff, min_eq_right hoff.2.le]
      · rw [if_neg (not_le.mpr hgt), split_cut ht hoff, bind_some]

/-- Where an extent is one piece: in the gap before a head, or in the head. -/
theorem onePiece_cut (ht : Tidy (pre ++ bh :: post)) (hpre : ∀ b ∈ pre, b.fin ≤ start) (hin : start < bh.fin)
    (hpos : 0 < length) :
    OnePiece start length (pre ++ bh :: post) ↔
      start + length ≤ bh.start ∨ (bh.start ≤ start ∧ start + length ≤ bh.fin) := by
  obtain ⟨-, -, -, -, hafter, -⟩ := tidy_cut.mp ht
  constructor
  · rintro (hgap | ⟨b, hb, hlow, hhigh⟩)
    · rcases hgap bh (by simp) with h | h
      · omega
      · exact .inl h
    · -- only this head has the first byte
      have hpiece : b = bh := by
        rcases mem_append.mp hb with hb | hb
        · have := hpre b hb
          omega
        · refine (mem_cons.mp hb).resolve_right fun hb => ?_
          have := hafter b hb
          omega
      exact .inr (hpiece ▸ ⟨hlow, hhigh⟩)
  · rintro (h | ⟨hlow, hhigh⟩)
    · refine .inl (forall_mem_append.mpr ⟨fun b hb => .inl (hpre b hb),
        forall_mem_cons.mpr ⟨.inr h, fun b hb => .inr ?_⟩⟩)
      have hfin : bh.fin = bh.start + bh.length := rfl
      have := hafter b hb
      omega
    · exact .inr ⟨bh, by simp, hlow, hhigh⟩

/-- The head that the first turn has begun: all of the extent if that is one piece. -/
structure Began (others : State → ℤ) (start length : ℕ) (ob : Object) (pre post : List BufferHead) (f : BufferHead)
    (stat : State → ℤ) : Prop where
  start_eq : f.start = start
  tidy : Tidy (pre ++ f :: post)
  outside : ∀ x, ¬ (start ≤ x ∧ x < start + length) → peek (pre ++ f :: post) x = peek ob.data x
  counted : Counted others ⟨pre ++ f :: post, stat⟩
  le : f.length ≤ length
  all : f.length = length ↔ OnePiece start length ob.data

theorem began_new (ht : Tidy (pre ++ post)) (hc : Counted others ⟨pre ++ post, stat⟩) {n : ℕ} (hn : 0 < n)
    (hle : n ≤ length)
    (hpre : ∀ b ∈ pre, b.fin ≤ start) (hpost : ∀ b ∈ post, start + n ≤ b.start)
    (hall : n = length ↔ OnePiece start length (pre ++ post)) :
    Began others start length ⟨pre ++ post, stat⟩ pre post (new start n)
        (bhStatAdd (new start n) stat) ∧
      bhAdd (new start n) ⟨pre ++ post, stat⟩ =
        some ⟨pre ++ new start n :: post, bhStatAdd (new start n) stat⟩ := by
  obtain ⟨htpre, htpost, hcross⟩ := tidy_append.mp ht
  refine ⟨⟨rfl, ?_, fun x hx => ?_, counted_add hc, hle, hall⟩, bhAdd_cut (fun b hb => ?_) fun b hb => ?_⟩
  · exact tidy_cut.mpr ⟨htpre, htpost, ⟨hn, .inl rfl⟩, hpre, hpost, hcross⟩
  · have hnone : (new start n).peek x = none := by
      refine peek_outside _ fun h => hx ⟨h.1, h.2.trans_le ?_⟩
      exact Nat.add_le_add_left hle start
    rw [peek_append, peek_cons, hnone, none_or, ← peek_append]
  · exact (htpre.start_lt_fin hb).trans_le (hpre b hb)
  · have := hpost b hb
    change start < b.start
    omega

/-- **The first turn.** -/
theorem mapWriteLoop_first (start fuel : ℕ) (ht : Tidy ob.data) (hc : Counted others ob) (hpos : 0 < length) :
    ∃ pre post f stat, Began others start length ob pre post f stat ∧
      mapWriteLoop (fuel + 1) ob (firstOverlap start ob.data) none start length =
        mapWriteLoop fuel ⟨pre ++ f :: post, stat⟩ (Keyed.first BufferHead.start post) (some start) f.fin
          (length - f.length) := by
  obtain ⟨data, stat⟩ := ob
  obtain ⟨pre, post, hdata, hpre, hpost⟩ := exists_cut ht start
  obtain rfl : data = pre ++ post := hdata
  rw [firstOverlap_cut ht hpre hpost]
  cases post with
  | nil =>
    have hone : length = length ↔ OnePiece start length (pre ++ []) := by
      refine iff_of_true rfl (.inl fun b hb => .inl (hpre b ?_))
      rwa [append_nil] at hb
    obtain ⟨hbegan, hadd⟩ := began_new ht hc hpos le_rfl hpre nofun hone
    refine ⟨pre, [], _, _, hbegan, ?_⟩
    change (if length = 0 then _ else (bhAdd _ _).bind _) = _
    rw [if_neg hpos.ne', hadd, bind_some]
    exact congrArg (mapWriteLoop fuel _ _ _ _) (Nat.sub_self length).symm
  | cons bh post =>
    have hin := hpost bh mem_cons_self
    have hone := onePiece_cut ht hpre hin hpos
    have hfind : Object.find ⟨pre ++ bh :: post, stat⟩ bh.start = some bh := Keyed.find_cut ht.sorted
    rcases lt_or_ge start bh.start with hgap | hover
    · have hafter : ∀ b ∈ bh :: post, start + min (bh.start - start) length ≤ b.start := by
        refine forall_mem_cons.mpr ⟨by omega, fun b hb => ?_⟩
        have := Keyed.lt_after ht.sorted b hb
        omega
      have hall : min (bh.start - start) length = length ↔ OnePiece start length (pre ++ bh :: post) := by
        rw [hone]
        omega
      obtain ⟨hbegan, hadd⟩ := began_new ht hc (by omega) (min_le_right _ _) hpre hafter hall
      refine ⟨pre, bh :: post, _, _, hbegan, ?_⟩
      change (if length = 0 then _ else (Object.find _ bh.start).bind _) = _
      rw [if_neg hpos.ne', hfind, bind_some, if_neg hgap.not_ge]
      dsimp only
      rw [hadd, bind_some]
      rfl
    · obtain ⟨pre', f, post', hstart, hfin, hsame, hint⟩ := intersected_first stat ht ⟨hover, hin⟩ hpos
      have hlen : f.fin = f.start + f.length := rfl
      refine ⟨pre', post', f, stat, ⟨hstart, hsame.tidy, fun x _ => hsame.peek_eq x, fun s => ?_, by omega, ?_⟩, ?_⟩
      · rw [hsame.total_eq]
        exact hc s
      · rw [hone]
        omega
      · exact turn_intersected hsame.tidy.sorted hstart hfind hover hint hpos.ne'

theorem mapWrite_others {oid : ObjectT} {before after : List ObjectExtent} {ex : ObjectExtent} (hoid : ex.oid = oid)
    (hothers : ∀ e ∈ before ++ after, e.oid ≠ oid) :
    mapWrite oid (before ++ ex :: after) ob =
      (mapWriteLoop ex.length ob (firstOverlap ex.start ob.data) none ex.start ex.length).bind fun r =>
        r.2.map fun f => (r.1, f) := by
  refine congrArg (Option.bind · _) ?_
  exact foldlM_others (fun (r : Object × Option ℕ) e =>
    mapWriteLoop e.length r.1 (firstOverlap e.start r.1.data) r.2 e.start e.length) (ob, none) hoid hothers

end loop

/-- **A write is mapped to one head** if it is in a gap or in one head, and not otherwise. -/
theorem map_write_one_head {others : State → ℤ} {ob : Object} {oid : ObjectT} {before after : List ObjectExtent}
    {ex : ObjectExtent}
    (hoid : ex.oid = oid) (hothers : ∀ e ∈ before ++ after, e.oid ≠ oid) (ht : Tidy ob.data) (hc : Counted others ob) :
    (∃ r f, mapWrite oid (before ++ ex :: after) ob = some (r, f) ∧ Wrote others ex.start ex.length ob r f) ↔
      0 < ex.length ∧ OnePiece ex.start ex.length ob.data := by
  rw [mapWrite_others hoid hothers]
  rcases eq_zero_or_pos ex.length with h0 | hpos
  · -- no head at all
    refine iff_of_false ?_ fun h => h.1.ne' h0
    rintro ⟨r, f, h, -⟩
    rw [h0, mapWriteLoop_zero, bind_some] at h
    cases h
  · obtain ⟨pre, post, g, stat, hbegan, hloop⟩ := mapWriteLoop_first ex.start (ex.length - 1) ht hc hpos
    rw [Nat.sub_add_cancel hpos] at hloop
    rw [hloop]
    constructor
    · rintro ⟨r, f, h, hwrote⟩
      refine ⟨hpos, hbegan.all.mp ?_⟩
      -- what was added is not counted
      obtain ⟨⟨r', o⟩, hres, hsome⟩ := bind_eq_some_iff.mp h
      obtain ⟨f', -, heq⟩ := map_eq_some_iff.mp hsome
      cases heq
      rw [← hbegan.start_eq] at hres
      obtain ⟨-, -, -, -, hafter, -⟩ := tidy_cut.mp hbegan.tidy
      obtain ⟨hstat, htotal⟩ := mapWriteLoop_adds hbegan.tidy.sorted hafter hres
      have hcounted := hwrote.counted g.state
      have hbefore := hbegan.counted g.state
      have hle := hbegan.le
      rw [hstat] at hcounted
      dsimp only at hcounted hbefore
      omega
    · rintro ⟨-, hone⟩
      have hlen := hbegan.all.mpr hone
      rw [hlen, Nat.sub_self, mapWriteLoop_zero]
      refine ⟨_, _, rfl, ⟨g, by simp, hbegan.start_eq, hbegan.start_eq, hlen⟩, hbegan.tidy.apart, hbegan.outside,
        hbegan.counted⟩

/-- A clean head of four bytes is overwritten in the middle. -/
theorem map_write_one_head_inside :
    ∃ r f, mapWrite ⟨1, 0, 0⟩ [⟨⟨1, 0, 0⟩, 1, 2, 0, []⟩]
        ⟨[⟨.clean, 0, 4, [1, 2, 3, 4], 0, 0, []⟩], Function.update 0 .clean 4⟩ = some (r, f) ∧
      Wrote 0 1 2 ⟨[⟨.clean, 0, 4, [1, 2, 3, 4], 0, 0, []⟩], Function.update 0 .clean 4⟩ r f := by
  have hoid : (⟨⟨1, 0, 0⟩, 1, 2, 0, []⟩ : ObjectExtent).oid = ⟨1, 0, 0⟩ := rfl
  have hothers : ∀ e ∈ ([] ++ [] : List ObjectExtent), e.oid ≠ ⟨1, 0, 0⟩ := nofun
  have htidy : Tidy [⟨.clean, 0, 4, [1, 2, 3, 4], 0, 0, []⟩] := ⟨by decide, by decide, by decide⟩
  refine (map_write_one_head hoid hothers htidy fun s => ?_).mpr ⟨by decide, .inr (by decide)⟩
  cases s <;> decide

/-- A clean head and a dirty one are not joined; what comes after a clean head is not counted. -/
theorem map_write_two_pieces :
    (Tidy [⟨.clean, 0, 1, [1], 0, 0, []⟩, ⟨.dirty, 1, 1, [2], 0, 0, []⟩] ∧
      Counted 0 ⟨[⟨.clean, 0, 1, [1], 0, 0, []⟩, ⟨.dirty, 1, 1, [2], 0, 0, []⟩],
        Function.update (Function.update 0 .clean 1) .dirty 1⟩ ∧
      mapWrite ⟨1, 0, 0⟩ [⟨⟨1, 0, 0⟩, 0, 2, 0, []⟩] ⟨[⟨.clean, 0, 1, [1], 0, 0, []⟩, ⟨.dirty, 1, 1, [2], 0, 0, []⟩],
        Function.update (Function.update 0 .clean 1) .dirty 1⟩ = none) ∧
      Tidy [⟨.clean, 0, 1, [1], 0, 0, []⟩] ∧ Counted 0 ⟨[⟨.clean, 0, 1, [1], 0, 0, []⟩], Function.update 0 .clean 1⟩ ∧
      ∃ r f, mapWrite ⟨1, 0, 0⟩ [⟨⟨1, 0, 0⟩, 0, 2, 0, []⟩]
          ⟨[⟨.clean, 0, 1, [1], 0, 0, []⟩], Function.update 0 .clean 1⟩ = some (r, f) ∧
        ¬ Counted 0 r := by
  refine ⟨⟨⟨by decide, by decide, by decide⟩, fun s => ?_, rfl⟩, ⟨by decide, by decide, by decide⟩, fun s => ?_, _, _,
    rfl, fun h => ?_⟩
  · cases s <;> decide
  · cases s <;> decide
  · exact absurd (h .clean) (by decide)


end ObjectCacher
end Osdc
end Ceph
