/-
# Heads that a write cuts

A write takes only a part of some heads. Such a head is split at the ends of this part. If it has an I/O
that is still in the device's queue, then the I/O is taken back first, and the pieces outside are submitted
again; this takes a piece that lies in one extent.

The pieces have the head's data and waiters between them. `split` does not look at the first entry of the
waiters, so it stays with the piece on the left.
-/
import Ceph.Ebofs.BufferCache
import Ceph.Lib.Tiles

namespace Ceph
namespace Ebofs
namespace Cache

open List BufferHead
open Option hiding min_eq_left min_eq_right
open Tiles
open Osdc.ObjectCacher (keptWaiters movedWaiters)

/-! ### The code -/

/-- The I/O of a head that is taken back. -/
inductive Withdrawn
  | nothing
  | read
  | write
deriving DecidableEq

/-- `bh->is_rx() && bc->bh_cancel_read(bh)`, or the same for a write of this epoch. -/
def withdraw (epoch : ℕ) (bh : BufferHead) (bc : BufferCache) : Option (Withdrawn × BufferHead × BufferCache) :=
  if bh.state = .rx then
    (bhCancelRead bh bc).map fun (ok, bh, bc) => (if ok then .read else .nothing, bh, bc)
  else if bh.state = .tx ∧ bh.epochModified = epoch then
    (bhCancelWrite bh epoch bc).map fun (ok, bh, bc) => (if ok then .write else .nothing, bh, bc)
  else some (.nothing, bh, bc)

/-- The piece outside is read or written again. -/
def reissue (on : Onode) (w : Withdrawn) (bh : BufferHead) (bc : BufferCache) : Option (BufferHead × BufferCache) :=
  match w with
  | .nothing => some (bh, bc)
  | .read => bhRead on bh 0 bc
  | .write => bhWrite on bh 0 bc

/-- A head at the iterator that begins at `cur` or before: what is left of the part up to `cur + max`, the part itself,
and what is right of it. -/
def cutHead (on : Onode) (epoch cur max : ℕ) (bh : BufferHead) (bc : BufferCache) :
    Option (List BufferHead × BufferHead × List BufferHead × BufferCache) :=
  if bh.start < cur then
    if bh.fin ≤ cur + max then
      -- we want right bit (one splice)
      (withdraw epoch bh bc).bind fun (w, bh, bc) =>
        (split bh cur bc).bind fun (left, right, bc) =>
          (reissue on w left bc).map fun (left, bc) => ([left], right, [], bc)
    else
      -- we want middle bit (two splices)
      (withdraw epoch bh bc).bind fun (w, bh, bc) =>
        (split bh cur bc).bind fun (left, middle, bc) =>
          (reissue on w left bc).bind fun (left, bc) =>
            (split middle (cur + max) bc).bind fun (middle, right, bc) =>
              (reissue on w right bc).map fun (right, bc) => ([left], middle, [right], bc)
  else if bh.length ≤ max then some ([], bh, [], bc)
  else
    -- we want left bit (one splice)
    (withdraw epoch bh bc).bind fun (w, bh, bc) =>
      (split bh (cur + max) bc).bind fun (left, right, bc) =>
        (reissue on w right bc).map fun (right, bc) => ([], left, [right], bc)

/-- Try to cancel tx. -/
def tryCancelTx (epoch : ℕ) (bh : BufferHead) (bc : BufferCache) : Option (BufferHead × BufferCache) :=
  if bh.state = .tx ∧ bh.epochModified = epoch then (bhCancelWrite bh epoch bc).map fun (_, bh, bc) => (bh, bc)
  else some (bh, bc)

/-! ### What pieces have -/

/-- A head without its state and its I/O. -/
def BufferHead.core (bh : BufferHead) : BufferHead :=
  { bh with state := .missing, rxIoh := 0, rxFrom := ⟨0, 0⟩, txIoh := 0, txBlock := 0 }

/-- The same head, but an I/O may be taken back or submitted again. -/
structure Kept (a b : BufferHead) : Prop where
  core : b.core = a.core
  state : b.state = a.state ∨ a.state = .rx ∧ b.state = .missing ∨ a.state = .tx ∧ b.state = .dirty

/-- A head is cut at some blocks, one after the other. -/
inductive Cut : BufferHead → List ℕ → List BufferHead → Prop
  | whole {a b : BufferHead} : Kept a b → Cut a [] [b]
  | cons {a left : BufferHead} {c : ℕ} {cs : List ℕ} {ps : List BufferHead} :
      a.start < c → c < a.fin → Kept (a.leftOf c) left → Cut (a.rightOf c) cs ps → Cut a (c :: cs) (left :: ps)

/-- The read waiters of a head wait for its blocks. -/
def InPlace (bh : BufferHead) : Prop := ∀ w ∈ bh.waitforRead, bh.start ≤ w.1 ∧ w.1 < bh.fin

instance (bh : BufferHead) : Decidable (InPlace bh) :=
  inferInstanceAs (Decidable (∀ w ∈ bh.waitforRead, bh.start ≤ w.1 ∧ w.1 < bh.fin))

/-- At each cut, if there are waiters behind it, then there is one between the cut before and this one. -/
def Attended (cut : ℕ → Prop) (bh : BufferHead) : Prop :=
  ∀ c, cut c → (∃ w ∈ bh.waitforRead, c ≤ w.1) → ∃ w ∈ bh.waitforRead, w.1 < c ∧ ∀ c', cut c' → c' < c → c' ≤ w.1

/-- The heads of a piece that is read or written again. -/
def Solid (on : Onode) (a b : ℕ) : Prop := ∃ ex, mapExtents on a (b - a) = some [ex] ∧ ex.start ≠ 0

/-- The I/O of a head can be taken back. -/
def Queued (epoch : ℕ) (queue : List ℕ) (bh : BufferHead) : Prop :=
  bh.state = .rx ∧ bh.rxIoh ≠ 0 ∧ bh.rxIoh ∈ queue ∨
    bh.state = .tx ∧ bh.epochModified = epoch ∧ bh.txIoh ≠ 0 ∧ bh.txIoh ∈ queue

section kept

variable {a b c : BufferHead} {x : ℕ}

theorem Kept.refl (a : BufferHead) : Kept a a := ⟨rfl, .inl rfl⟩

section

variable (h : Kept a b)
include h

theorem Kept.trans (h' : Kept b c) : Kept a c := by
  refine ⟨h'.core.trans h.core, ?_⟩
  rcases h.state with hab | ⟨ha, hb⟩ | ⟨ha, hb⟩
  · rw [← hab]
    exact h'.state
  · refine .inr (.inl ⟨ha, ?_⟩)
    rcases h'.state with hbc | ⟨hb', -⟩ | ⟨hb', -⟩
    · exact hbc.trans hb
    · nomatch hb'.symm.trans hb
    · nomatch hb'.symm.trans hb
  · refine .inr (.inr ⟨ha, ?_⟩)
    rcases h'.state with hbc | ⟨hb', -⟩ | ⟨hb', -⟩
    · exact hbc.trans hb
    · nomatch hb'.symm.trans hb
    · nomatch hb'.symm.trans hb

theorem Kept.field {β : Type} (f : BufferHead → β) (hf : ∀ x : BufferHead, f x.core = f x) :
    f b = f a := by
  rw [← hf b, h.core, hf a]

theorem Kept.start_eq : b.start = a.start := h.field start fun _ => rfl

theorem Kept.length_eq : b.length = a.length := h.field length fun _ => rfl

theorem Kept.fin_eq : b.fin = a.fin := h.field fin fun _ => rfl

theorem Kept.data_eq : b.data = a.data := h.field data fun _ => rfl

theorem Kept.frags_eq : b.frags = a.frags := h.field frags fun _ => rfl

theorem Kept.waitforRead_eq : b.waitforRead = a.waitforRead := h.field waitforRead fun _ => rfl

theorem Kept.epochModified_eq : b.epochModified = a.epochModified := h.field epochModified fun _ => rfl

theorem Kept.version_eq : b.version = a.version := h.field version fun _ => rfl

theorem Kept.lastFlushed_eq : b.lastFlushed = a.lastFlushed := h.field lastFlushed fun _ => rfl

theorem Kept.filled (ha : a.Filled) : b.Filled := by
  unfold BufferHead.Filled at ha ⊢
  rwa [h.data_eq, h.length_eq]

theorem Kept.inPlace : InPlace b ↔ InPlace a := by
  unfold InPlace
  rw [h.waitforRead_eq, h.start_eq, h.fin_eq]

theorem Kept.leftOf (x : ℕ) : Kept (a.leftOf x) (b.leftOf x) :=
  ⟨congrArg (fun q => (q.leftOf x).core) h.core, h.state⟩

theorem Kept.rightOf (x : ℕ) : Kept (a.rightOf x) (b.rightOf x) :=
  ⟨congrArg (fun q => (q.rightOf x).core) h.core, h.state⟩

end

end kept

section cut

variable {a b b' : BufferHead} {cs cs' : List ℕ} {ps done : List BufferHead} {c : ℕ}

theorem Cut.of_kept (hk : Kept a b) (h : Cut b cs ps) : Cut a cs ps := by
  induction h generalizing a with
  | whole hb => exact .whole (hk.trans hb)
  | @cons b left c cs ps hlow hhigh hl _ ih =>
    refine .cons (hk.start_eq ▸ hlow) (hk.fin_eq ▸ hhigh) ((hk.leftOf c).trans hl) (ih (hk.rightOf c))

theorem Cut.append (h : Cut a cs (done ++ [b])) (h' : Cut b cs' ps) : Cut a (cs ++ cs') (done ++ ps) := by
  induction done generalizing a cs with
  | nil =>
    cases h with
    | whole hk => exact h'.of_kept hk
    | cons _ _ _ hrest => cases hrest
  | cons d done ih =>
    obtain ⟨rest, hrest⟩ : ∃ rest, rest = done ++ [b] := ⟨_, rfl⟩
    rw [cons_append, ← hrest] at h
    cases h with
    | whole _ => exact absurd hrest.symm (append_ne_nil_of_right_ne_nil _ (cons_ne_nil _ _))
    | cons hlow hhigh hl hcut => exact .cons hlow hhigh hl (ih (hrest ▸ hcut))

section

variable (h : Cut a cs ps)
include h

theorem Cut.mem : ∀ c ∈ cs, a.start < c ∧ c < a.fin := by
  induction h with
  | whole _ => exact nofun
  | @cons a left c cs ps hlow hhigh _ _ ih =>
    have hfin := rightOf_fin hlow.le hhigh.le
    refine forall_mem_cons.mpr ⟨⟨hlow, hhigh⟩, fun x hx => ?_⟩
    obtain ⟨h1, h2⟩ := ih x hx
    exact ⟨hlow.trans h1, hfin ▸ h2⟩

theorem Cut.tiled (hpos : a.start < a.fin) : Tiled start fin a.start a.fin ps := by
  induction h with
  | whole hk => exact ⟨hk.start_eq, hk.fin_eq ▸ hpos, hk.fin_eq⟩
  | @cons a left c cs ps hlow hhigh hk _ ih =>
    have hfin := rightOf_fin hlow.le hhigh.le
    have hleft : left.fin = c := hk.fin_eq.trans (leftOf_fin hlow.le)
    have hrest := ih (hfin ▸ hhigh)
    rw [hfin] at hrest
    refine ⟨hk.start_eq, by rwa [hleft], ?_⟩
    rw [hleft]
    exact hrest

theorem Cut.data (hf : a.Filled) : ps.flatMap data = a.data := by
  induction h with
  | whole hk => rw [flatMap_singleton, hk.data_eq]
  | @cons a left c cs ps hlow hhigh hk _ ih =>
    have hright : (a.rightOf c).data = a.data.drop ((c - a.start) * blockSize) := by
      refine take_of_length_le ?_
      rw [length_drop]
      rcases hf with h | h
      · rw [h, length_nil, Nat.zero_sub]
        exact Nat.zero_le _
      · rw [h, ← Nat.sub_mul]
    rw [flatMap_cons, ih (filled_split hf ⟨hlow.le, hhigh.le⟩).2, hk.data_eq, hright]
    exact take_append_drop _ _

theorem Cut.waiters : ps.flatMap waitforRead = a.waitforRead := by
  induction h with
  | whole hk => rw [flatMap_singleton, hk.waitforRead_eq]
  | @cons a left c cs ps _ _ hk _ ih =>
    rw [flatMap_cons, ih, hk.waitforRead_eq]
    exact Osdc.ObjectCacher.kept_append_moved c a.waitforRead

theorem Cut.frags : ps.flatMap frags = a.frags := by
  induction h with
  | whole hk => rw [flatMap_singleton, hk.frags_eq]
  | @cons a left c cs ps _ _ hk _ ih =>
    rw [flatMap_cons, ih, hk.frags_eq]
    exact append_nil _

theorem Cut.version : ∀ b ∈ ps, (b.version = a.version ∧ b.epochModified = a.epochModified ∧
    b.lastFlushed = a.lastFlushed) ∧
      (b.state = a.state ∨ a.state = .rx ∧ b.state = .missing ∨ a.state = .tx ∧ b.state = .dirty) := by
  induction h with
  | whole hk =>
    refine forall_mem_singleton.mpr ⟨⟨hk.version_eq, hk.epochModified_eq, hk.lastFlushed_eq⟩, hk.state⟩
  | @cons a left c cs ps _ _ hk _ ih =>
    exact forall_mem_cons.mpr ⟨⟨⟨hk.version_eq, hk.epochModified_eq, hk.lastFlushed_eq⟩, hk.state⟩, ih⟩

theorem Cut.filled (hf : a.Filled) : ∀ b ∈ ps, b.Filled := by
  induction h with
  | whole hk => exact forall_mem_singleton.mpr (hk.filled hf)
  | @cons a left c cs ps hlow hhigh hk _ ih =>
    obtain ⟨hleft, hright⟩ := filled_split hf ⟨hlow.le, hhigh.le⟩
    exact forall_mem_cons.mpr ⟨hk.filled hleft, ih hright⟩

end

theorem Cut.keep (h : Cut a cs (done ++ b :: ps)) (hk : Kept b b') : Cut a cs (done ++ b' :: ps) := by
  induction done generalizing a cs with
  | nil =>
    cases h with
    | whole hb => exact .whole (hb.trans hk)
    | cons hlow hhigh hb hcut => exact .cons hlow hhigh (hb.trans hk) hcut
  | cons d done ih =>
    obtain ⟨rest, hrest⟩ : ∃ rest, rest = done ++ b :: ps := ⟨_, rfl⟩
    rw [cons_append, ← hrest] at h
    cases h with
    | whole _ => exact absurd hrest.symm (append_ne_nil_of_right_ne_nil _ (cons_ne_nil _ _))
    | cons hlow hhigh hl hcut => exact .cons hlow hhigh hl (ih (hrest ▸ hcut))

theorem mem_movedWaiters_iff {ws : List (ℕ × List ℕ)} {w0 w : ℕ × List ℕ} (hs : Keyed.Sorted Prod.fst (w0 :: ws))
    (hlow : w0.1 < c) : w ∈ movedWaiters c (w0 :: ws) ↔ w ∈ w0 :: ws ∧ c ≤ w.1 := by
  constructor
  · intro h
    refine ⟨?_, Osdc.ObjectCacher.moved_from h⟩
    rw [← Osdc.ObjectCacher.kept_append_moved c (w0 :: ws)]
    exact mem_append_right _ h
  · rintro ⟨h, hge⟩
    rw [← Osdc.ObjectCacher.kept_append_moved c (w0 :: ws)] at h
    refine (mem_append.mp h).resolve_left fun hk => ?_
    by_cases hhead : (w0 :: ws).head? = some w
    · obtain rfl : w0 = w := some.inj hhead
      exact absurd hlow (not_lt.mpr hge)
    · exact absurd (Osdc.ObjectCacher.kept_before hs hk hhead) (not_lt.mpr hge)

/-- **The waiters are in place** exactly if each cut is attended. -/
theorem Cut.inPlace_iff (h : Cut a cs ps) (hs : Keyed.Sorted Prod.fst a.waitforRead) (hin : InPlace a) :
    (∀ b ∈ ps, InPlace b) ↔ Attended (· ∈ cs) a := by
  induction h with
  | whole hk => exact iff_of_true (forall_mem_singleton.mpr (hk.inPlace.mpr hin)) nofun
  | @cons a left c cs ps hlow hhigh hk hcut ih =>
    have hfin := rightOf_fin hlow.le hhigh.le
    have hmem := hcut.mem
    have hleft : left.waitforRead = keptWaiters c a.waitforRead := hk.waitforRead_eq
    have hleftFin : left.fin = c := hk.fin_eq.trans (leftOf_fin hlow.le)
    have hright : (a.rightOf c).waitforRead = movedWaiters c a.waitforRead := rfl
    rw [forall_mem_cons]
    cases hws : a.waitforRead with
    | nil =>
      rw [hws] at hleft hright
      have hnone : InPlace (a.rightOf c) := fun w hw => by
        rw [hright] at hw
        nomatch hw
      refine iff_of_true ⟨fun w hw => ?_, (ih (by rw [hright]; exact .nil) hnone).mpr fun x _ hx => ?_⟩ fun x _ hx => ?_
      · rw [hleft] at hw
        nomatch hw
      · obtain ⟨w, hw, -⟩ := hx
        rw [hright] at hw
        nomatch hw
      · obtain ⟨w, hw, -⟩ := hx
        rw [hws] at hw
        nomatch hw
    | cons w0 ws =>
      have hw0 : w0 ∈ a.waitforRead := hws ▸ mem_cons_self
      rw [hws] at hleft hright hs
      by_cases hfirst : w0.1 < c
      · have hiff : ∀ w, w ∈ (a.rightOf c).waitforRead ↔ w ∈ a.waitforRead ∧ c ≤ w.1 := fun w => by
          rw [hright, hws]
          exact mem_movedWaiters_iff hs hfirst
        have hsorted : Keyed.Sorted Prod.fst (a.rightOf c).waitforRead := by
          rw [hright]
          refine hs.sublist ?_
          conv_rhs => rw [← Osdc.ObjectCacher.kept_append_moved c (w0 :: ws)]
          exact sublist_append_right _ _
        have hplace : InPlace (a.rightOf c) := fun w hw => by
          obtain ⟨hw, hge⟩ := (hiff w).mp hw
          exact ⟨hge, hfin ▸ (hin w hw).2⟩
        have hkept : InPlace left := fun w hw => by
          rw [hleft] at hw
          have hmemw : w ∈ a.waitforRead := by
            rw [hws, ← Osdc.ObjectCacher.kept_append_moved c (w0 :: ws)]
            exact mem_append_left _ hw
          rw [hk.start_eq, hleftFin]
          refine ⟨(hin w hmemw).1, ?_⟩
          by_cases hhead : (w0 :: ws).head? = some w
          · obtain rfl : w0 = w := some.inj hhead
            exact hfirst
          · exact Osdc.ObjectCacher.kept_before hs hw hhead
        rw [and_iff_right hkept, ih hsorted hplace]
        constructor
        · rintro hatt x hx ⟨w, hw, hge⟩
          rcases mem_cons.mp hx with rfl | hx
          · refine ⟨w0, hw0, hfirst, fun y hy hlt => ?_⟩
            rcases mem_cons.mp hy with rfl | hy
            · exact absurd hlt (lt_irrefl _)
            · exact absurd ((hmem y hy).1.trans hlt) (lt_irrefl _)
          · have hcx : c < x := (hmem x hx).1
            obtain ⟨v, hv, hlt, hbetween⟩ := hatt x hx ⟨w, (hiff w).mpr ⟨hw, hcx.le.trans hge⟩, hge⟩
            obtain ⟨hv, hcv⟩ := (hiff v).mp hv
            refine ⟨v, hv, hlt, fun y hy hyx => ?_⟩
            rcases mem_cons.mp hy with rfl | hy
            · exact hcv
            · exact hbetween y hy hyx
        · rintro hatt x hx ⟨w, hw, hge⟩
          have hcx : c < x := (hmem x hx).1
          obtain ⟨v, hv, hlt, hbetween⟩ := hatt x (mem_cons_of_mem _ hx) ⟨w, ((hiff w).mp hw).1, hge⟩
          exact ⟨v, (hiff v).mpr ⟨hv, hbetween c mem_cons_self hcx⟩, hlt,
            fun y hy hyx => hbetween y (mem_cons_of_mem _ hy) hyx⟩
      · -- the first waiter stays left of its block
        refine iff_of_false (fun h => hfirst ?_) fun hatt => ?_
        · have hmemw : w0 ∈ left.waitforRead := by
            rw [hleft]
            exact mem_cons_self
          exact hleftFin ▸ (h.1 w0 hmemw).2
        · obtain ⟨w, hw, hlt, -⟩ := hatt c mem_cons_self ⟨w0, hw0, not_lt.mp hfirst⟩
          rw [hws] at hw
          rcases mem_cons.mp hw with rfl | hw
          · exact hfirst hlt
          · exact hfirst (((pairwise_cons.mp hs).1 w hw).trans hlt)

end cut

/-! ### Taking an I/O back, and submitting it again -/

/-- What `withdraw` leaves. -/
structure Taken (epoch : ℕ) (bh : BufferHead) (bc : BufferCache) (w : Withdrawn) (bh' : BufferHead)
    (bc' : BufferCache) : Prop where
  kept : Kept bh bh'
  queued : w ≠ .nothing ↔ Queued epoch bc.queue bh
  nothing : w = .nothing → bh' = bh ∧ bc' = bc
  read : w = .read → bh.state = .rx ∧ bh'.state = .missing ∧ bh'.rxIoh = 0
  write : w = .write → bh.state = .tx ∧ bh'.state = .dirty ∧ bh.epochModified = epoch
  iohs : (bh'.rxIoh = bh.rxIoh ∨ bh'.rxIoh = 0) ∧ (bh'.txIoh = bh.txIoh ∨ bh'.txIoh = 0)
  lastIoh : bc'.lastIoh = bc.lastIoh
  queue : ∀ i, i ≠ bh.rxIoh → i ≠ bh.txIoh → (i ∈ bc'.queue ↔ i ∈ bc.queue)

/-- What `reissue` makes of a piece. -/
structure Again (w : Withdrawn) (bh : BufferHead) (bc : BufferCache) (bh' : BufferHead) (bc' : BufferCache) :
    Prop where
  core : bh'.core = bh.core
  nothing : w = .nothing → bh' = bh ∧ bc' = bc
  read : w = .read → bh'.state = .rx ∧ bh'.rxIoh = bc.lastIoh + 1 ∧ bh'.txIoh = bh.txIoh
  write : w = .write → bh'.state = .tx ∧ bh'.txIoh = bc.lastIoh + 1 ∧ bh'.rxIoh = bh.rxIoh
  submitted : w ≠ .nothing → bc'.lastIoh = bc.lastIoh + 1 ∧ bc'.queue = (bc.lastIoh + 1) :: bc.queue

theorem Taken.none {epoch : ℕ} {bh : BufferHead} {bc : BufferCache} (h : ¬ Queued epoch bc.queue bh) :
    Taken epoch bh bc .nothing bh bc :=
  ⟨.refl bh, iff_of_false (fun h => h rfl) h, fun _ => ⟨rfl, rfl⟩, nofun, nofun, ⟨.inl rfl, .inl rfl⟩, rfl,
    fun _ _ _ => .rfl⟩

section io

variable {on : Onode} {bh bh' : BufferHead} {bc bc' : BufferCache} {l : List BufferHead} {others : State → ℕ}
  {epoch ioh c : ℕ} {w : Withdrawn} {st : State}

theorem statSub_queue (h : statSub bh bc = some bc') : bc'.queue = bc.queue ∧ bc'.lastIoh = bc.lastIoh := by
  rw [statSub] at h
  by_cases hle : 0 ≤ bc.stat bh.state - bh.length
  · rw [if_pos hle] at h
    cases h
    exact ⟨rfl, rfl⟩
  · rw [if_neg hle] at h
    nomatch h

theorem setState_queue (h : setState bh st bc = some (bh', bc')) :
    bc'.queue = bc.queue ∧ bc'.lastIoh = bc.lastIoh := by
  obtain ⟨bc₁, hsub, ⟨⟩⟩ := map_eq_some_iff.mp h
  have hqueue := statSub_queue hsub
  exact hqueue

theorem cancelIo_eq : cancelIo ioh bc =
    if ioh ≠ 0 ∧ ioh ∈ bc.queue then some { bc with queue := bc.queue.erase ioh } else none := rfl

/-- **A split**, which has nothing to do with I/O. -/
theorem split_spec (hc : Counted others (bh :: l) bc) (hcut : bh.start < c ∧ c < bh.fin) (hf : bh.Filled) :
    ∃ bc', split bh c bc = some (bh.leftOf c, bh.rightOf c, bc') ∧
      Counted others (bh.leftOf c :: bh.rightOf c :: l) bc' ∧ bc'.queue = bc.queue ∧ bc'.lastIoh = bc.lastIoh := by
  obtain ⟨bc', hsplit, hc'⟩ := split_counted hc hcut hf
  refine ⟨bc', hsplit, hc', ?_⟩
  obtain ⟨bc₁, hsub, heq⟩ := bind_eq_some_iff.mp hsplit
  split_ifs at heq
  obtain ⟨-, -, rfl⟩ := heq
  have hqueue := statSub_queue hsub
  exact hqueue

theorem counted_of_stat (h : Counted others l bc) (hstat : bc'.stat = bc.stat) : Counted others l bc' := fun s => by
  rw [hstat]
  exact h s

section

variable (hc : Counted others (bh :: l) bc)
include hc

theorem bhCancelRead_spec (hrx : bh.state = .rx) :
    ∃ ok bh' bc', bhCancelRead bh bc = some (ok, bh', bc') ∧ Counted others (bh' :: l) bc' ∧
      Taken epoch bh bc (if ok then .read else .nothing) bh' bc' := by
  rw [bhCancelRead, cancelIo_eq]
  by_cases hio : bh.rxIoh ≠ 0 ∧ bh.rxIoh ∈ bc.queue
  · rw [if_pos hio]
    have hc1 : Counted others ({ bh with rxIoh := 0 } :: l) { bc with queue := bc.queue.erase bh.rxIoh } :=
      counted_of_stat hc rfl
    obtain ⟨bc', hset, hc'⟩ := setState_counted .missing hc1
    obtain ⟨hqueue, hlast⟩ := setState_queue hset
    refine ⟨true, _, bc', by dsimp only; rw [hset]; rfl, hc', ?_⟩
    refine ⟨⟨rfl, .inr (.inl ⟨hrx, rfl⟩)⟩, iff_of_true nofun (.inl ⟨hrx, hio⟩), nofun, fun _ => ⟨hrx, rfl, rfl⟩, nofun,
      ⟨.inr rfl, .inl rfl⟩, hlast, fun i hi _ => ?_⟩
    rw [hqueue]
    exact mem_erase_of_ne hi
  · rw [if_neg hio]
    refine ⟨false, bh, bc, rfl, hc, .none ?_⟩
    rintro (⟨-, h⟩ | ⟨h, -⟩)
    · exact hio h
    · rw [hrx] at h
      nomatch h

theorem bhCancelWrite_spec (htx : bh.state = .tx ∧ bh.epochModified = epoch) (hepoch : 0 < epoch) :
    ∃ ok bh' bc', bhCancelWrite bh epoch bc = some (ok, bh', bc') ∧ Counted others (bh' :: l) bc' ∧
      Taken epoch bh bc (if ok then .write else .nothing) bh' bc' := by
  rw [bhCancelWrite, if_pos ⟨htx.1, htx.2, htx.2 ▸ hepoch⟩, cancelIo_eq]
  by_cases hio : bh.txIoh ≠ 0 ∧ bh.txIoh ∈ bc.queue
  · rw [if_pos hio]
    have hc1 : Counted others ({ bh with txIoh := 0 } :: l) { bc with queue := bc.queue.erase bh.txIoh } :=
      counted_of_stat hc rfl
    obtain ⟨bc₁, hset, hc'⟩ := setState_counted .dirty hc1
    obtain ⟨hqueue, hlast⟩ := setState_queue hset
    refine ⟨true, _, countUnflushed bh.epochModified (-1) bc₁, by dsimp only; rw [hset]; rfl,
      counted_of_stat hc' rfl, ?_⟩
    refine ⟨⟨rfl, .inr (.inr ⟨htx.1, rfl⟩)⟩, iff_of_true nofun (.inr ⟨htx.1, htx.2, hio⟩), nofun, nofun,
      fun _ => ⟨htx.1, rfl, htx.2⟩, ⟨.inl rfl, .inr rfl⟩, hlast, fun i _ hi => ?_⟩
    change i ∈ bc₁.queue ↔ _
    rw [hqueue]
    exact mem_erase_of_ne hi
  · rw [if_neg hio]
    refine ⟨false, bh, bc, rfl, hc, .none ?_⟩
    rintro (⟨h, -⟩ | ⟨-, -, h⟩)
    · rw [htx.1] at h
      nomatch h
    · exact hio h

/-- **An I/O is taken back** if it is still in the queue. -/
theorem withdraw_spec (hepoch : 0 < epoch) :
    ∃ w bh' bc', withdraw epoch bh bc = some (w, bh', bc') ∧ Counted others (bh' :: l) bc' ∧
      Taken epoch bh bc w bh' bc' := by
  unfold withdraw
  split_ifs with hrx htx
  · obtain ⟨ok, bh', bc', hcancel, hc', htaken⟩ := bhCancelRead_spec hc hrx
    exact ⟨_, bh', bc', by rw [hcancel]; rfl, hc', htaken⟩
  · obtain ⟨ok, bh', bc', hcancel, hc', htaken⟩ := bhCancelWrite_spec hc htx hepoch
    exact ⟨_, bh', bc', by rw [hcancel]; rfl, hc', htaken⟩
  · refine ⟨.nothing, bh, bc, rfl, hc, .none ?_⟩
    rintro (⟨h, -⟩ | ⟨h, h', -⟩)
    · exact hrx h
    · exact htx ⟨h, h'⟩

theorem tryCancelTx_spec (hepoch : 0 < epoch) :
    ∃ bh' bc', tryCancelTx epoch bh bc = some (bh', bc') ∧ Counted others (bh' :: l) bc' ∧ Kept bh bh' ∧
      ((bh'.rxIoh = bh.rxIoh ∨ bh'.rxIoh = 0) ∧ (bh'.txIoh = bh.txIoh ∨ bh'.txIoh = 0)) ∧
      bc'.lastIoh = bc.lastIoh ∧ ∀ i, i ≠ bh.rxIoh → i ≠ bh.txIoh → (i ∈ bc'.queue ↔ i ∈ bc.queue) := by
  unfold tryCancelTx
  split_ifs with htx
  · obtain ⟨ok, bh', bc', hcancel, hc', htaken⟩ := bhCancelWrite_spec hc htx hepoch
    exact ⟨bh', bc', by rw [hcancel]; rfl, hc', htaken.kept, htaken.iohs, htaken.lastIoh, htaken.queue⟩
  · exact ⟨bh, bc, rfl, hc, .refl bh, ⟨.inl rfl, .inl rfl⟩, rfl, fun _ _ _ => .rfl⟩

end

theorem oneExtent_eq : (∃ ex, oneExtent on bh = some ex) ↔ Solid on bh.start bh.fin := by
  have hlen : bh.fin - bh.start = bh.length := Nat.add_sub_cancel_left _ _
  rw [Solid, hlen]
  constructor
  · rintro ⟨ex, h⟩
    obtain ⟨exv, hexv, h⟩ := bind_eq_some_iff.mp h
    split at h
    · next ex' =>
      split_ifs at h with hne
      exact ⟨ex', hexv, hne⟩
    · nomatch h
  · rintro ⟨ex, hexv, hne⟩
    exact ⟨ex, by rw [oneExtent, hexv, bind_some]; exact if_pos hne⟩

/-- **A piece is read or written again** if it is in one extent. -/
theorem reissue_spec (on : Onode) (hc : Counted others (bh :: l) bc)
    (hread : w = .read → bh.state = .missing ∧ bh.rxIoh = 0)
    (hwrite : w = .write → bh.state = .dirty ∧ 0 < bh.version ∧ bh.lastFlushed < bh.version) :
    ((w ≠ .nothing → Solid on bh.start bh.fin) → ∃ bh' bc', reissue on w bh bc = some (bh', bc') ∧
        Counted others (bh' :: l) bc' ∧ Again w bh bc bh' bc') ∧
      (¬ (w ≠ .nothing → Solid on bh.start bh.fin) → reissue on w bh bc = none) := by
  cases w with
  | nothing =>
    refine ⟨fun _ => ⟨bh, bc, rfl, hc, rfl, fun _ => ⟨rfl, rfl⟩, nofun, nofun, fun h => absurd rfl h⟩, fun h => ?_⟩
    exact absurd (fun h => absurd rfl h) h
  | read =>
    obtain ⟨hstate, hioh⟩ := hread rfl
    obtain ⟨bc₁, hset, hc1⟩ := setState_counted .rx hc
    obtain ⟨hqueue, hlast⟩ := setState_queue hset
    have hext : oneExtent on { bh with state := .rx } = oneExtent on bh := rfl
    have hstep : bhRead on bh 0 bc = (oneExtent on bh).bind fun ex =>
        some ({ bh with state := .rx, rxIoh := bc₁.lastIoh + 1, rxFrom := ex }, submit bc₁) := by
      rw [bhRead, if_pos hstate, hset, bind_some]
      dsimp only
      rw [hext]
      simp only [ne_eq, not_true, if_false, if_pos hioh]
    refine ⟨fun hsolid => ?_, fun hsolid => ?_⟩
    · obtain ⟨ex, hex⟩ := oneExtent_eq.mpr (hsolid nofun)
      refine ⟨{ bh with state := .rx, rxIoh := bc₁.lastIoh + 1, rxFrom := ex }, submit bc₁,
        by rw [reissue, hstep, hex]; rfl, counted_of_stat hc1 rfl, rfl, nofun,
        fun _ => ⟨rfl, by rw [← hlast], rfl⟩, nofun, fun _ => ⟨by rw [← hlast]; rfl, by rw [← hlast, ← hqueue]; rfl⟩⟩
    · have hnone : oneExtent on bh = none := eq_none_iff_forall_not_mem.mpr fun ex hex =>
        hsolid fun _ => oneExtent_eq.mp ⟨ex, hex⟩
      rw [reissue, hstep, hnone]
      rfl
  | write =>
    obtain ⟨hstate, hversion, hflushed⟩ := hwrite rfl
    obtain ⟨bc₁, hset, hc1⟩ := setState_counted .tx hc
    obtain ⟨hqueue, hlast⟩ := setState_queue hset
    have hext : oneExtent on { bh with state := .tx } = oneExtent on bh := rfl
    have hstep : bhWrite on bh 0 bc = (oneExtent on bh).bind fun ex =>
        some ({ bh with state := .tx, txBlock := ex.start, txIoh := bc₁.lastIoh + 1 },
          countUnflushed bh.epochModified 1 (submit bc₁)) := by
      rw [bhWrite, if_pos ⟨hversion, hstate⟩, hset, bind_some]
      dsimp only
      refine congrArg _ (funext fun ex => if_pos ⟨fun h => absurd rfl h, hflushed⟩)
    refine ⟨fun hsolid => ?_, fun hsolid => ?_⟩
    · obtain ⟨ex, hex⟩ := oneExtent_eq.mpr (hsolid nofun)
      refine ⟨{ bh with state := .tx, txBlock := ex.start, txIoh := bc₁.lastIoh + 1 },
        countUnflushed bh.epochModified 1 (submit bc₁), by rw [reissue, hstep, hex]; rfl, counted_of_stat hc1 rfl, rfl,
        nofun, nofun,
        fun _ => ⟨rfl, by rw [← hlast], rfl⟩, fun _ => ⟨by rw [← hlast]; rfl, by rw [← hlast, ← hqueue]; rfl⟩⟩
    · have hnone : oneExtent on bh = none := eq_none_iff_forall_not_mem.mpr fun ex hex =>
        hsolid fun _ => oneExtent_eq.mp ⟨ex, hex⟩
      rw [reissue, hstep, hnone]
      rfl

end io

/-! ### Cutting a head -/

/-- What a head is cut into: the part from `cur` up to `e`, and what is outside of it. The piece on the right can be taken
back if the head could. -/
structure CutAt (epoch cur e : ℕ) (bh : BufferHead) (bc : BufferCache) (pre : List BufferHead) (hit : BufferHead)
    (post : List BufferHead) (bc' : BufferCache) : Prop where
  cut : ∃ cs, Cut bh cs (pre ++ hit :: post) ∧ ∀ c, c ∈ cs ↔ (c = cur ∨ c = e) ∧ bh.start < c ∧ c < bh.fin
  hit_range : hit.start = cur ∧ hit.fin = min bh.fin e
  hit_iohs : (hit.rxIoh = bh.rxIoh ∨ hit.rxIoh = 0) ∧ (hit.txIoh = bh.txIoh ∨ hit.txIoh = 0)
  post_eq : post = [] ∧ bh.fin ≤ e ∨ ∃ right, post = [right] ∧ e < bh.fin ∧ right.start = e ∧ right.fin = bh.fin ∧
    (Queued epoch bc'.queue right ↔ Queued epoch bc.queue bh) ∧
      ∀ i, i = right.rxIoh ∨ i = right.txIoh → i = 0 ∨ bc.lastIoh < i ∧ i ≤ bc'.lastIoh
  lastIoh : bc.lastIoh ≤ bc'.lastIoh
  queue : ∀ i, i ≠ 0 → i ≤ bc.lastIoh → i ≠ bh.rxIoh → i ≠ bh.txIoh → (i ∈ bc'.queue ↔ i ∈ bc.queue)

section cutting

variable {on : Onode} {bh bh' b q q' : BufferHead} {bc bc₁ bc₂ bc' : BufferCache} {l l' : List BufferHead}
  {others : State → ℕ} {epoch cur max c : ℕ} {w : Withdrawn}

theorem counted_perm (h : Counted others l bc) (hp : l.Perm l') : Counted others l' bc := fun s => by
  have htotal : total s l' = total s l := (hp.map _).sum_nat.symm
  rw [htotal]
  exact h s

theorem Taken.kept_again (ht : Taken epoch bh bc w bh' bc₁) (ha : Again w q bc₂ q' bc') (hcore : q.core = b.core)
    (hstate : b.state = bh.state) (hstate' : q.state = bh'.state) : Kept b q' := by
  refine ⟨ha.core.trans hcore, .inl ?_⟩
  cases w with
  | nothing => rw [(ha.nothing rfl).1, hstate', (ht.nothing rfl).1, hstate]
  | read => rw [(ha.read rfl).1, hstate, (ht.read rfl).1]
  | write => rw [(ha.write rfl).1, hstate, (ht.write rfl).1]

/-- The piece on the right of a cut. -/
theorem Taken.queued_again (ht : Taken epoch bh bc w bh' bc₁) (ha : Again w q bc₂ q' bc')
    (hstate : q.state = bh'.state) (hepoch : q.epochModified = bh.epochModified) (hrx : q.rxIoh = 0)
    (htx : q.txIoh = 0) (hlast : bc.lastIoh ≤ bc₂.lastIoh) :
    (Queued epoch bc'.queue q' ↔ Queued epoch bc.queue bh) ∧
      ∀ i, i = q'.rxIoh ∨ i = q'.txIoh → i = 0 ∨ bc.lastIoh < i ∧ i ≤ bc'.lastIoh := by
  cases w with
  | nothing =>
    obtain ⟨rfl, rfl⟩ := ha.nothing rfl
    have hno : ¬ Queued epoch bc.queue bh := fun h => ht.queued.mpr h rfl
    refine ⟨iff_of_false ?_ hno, fun i hi => .inl ?_⟩
    · rintro (⟨-, h, -⟩ | ⟨-, -, h, -⟩)
      · exact h hrx
      · exact h htx
    · rcases hi with rfl | rfl
      · exact hrx
      · exact htx
  | read =>
    obtain ⟨hs, hr, hx⟩ := ha.read rfl
    obtain ⟨hl, hq⟩ := ha.submitted nofun
    refine ⟨iff_of_true (.inl ⟨hs, ?_, ?_⟩) (ht.queued.mp nofun), ?_⟩
    · rw [hr]
      exact Nat.succ_ne_zero _
    · rw [hr, hq]
      exact mem_cons_self
    · rintro i (rfl | rfl)
      · rw [hr, hl]
        exact .inr ⟨Nat.lt_succ_of_le hlast, le_rfl⟩
      · exact .inl (hx.trans htx)
  | write =>
    obtain ⟨hs, hx, hr⟩ := ha.write rfl
    obtain ⟨hl, hq⟩ := ha.submitted nofun
    have hep : q'.epochModified = epoch :=
      ((congrArg epochModified ha.core).trans hepoch).trans (ht.write rfl).2.2
    refine ⟨iff_of_true (.inr ⟨hs, hep, ?_, ?_⟩) (ht.queued.mp nofun), ?_⟩
    · rw [hx]
      exact Nat.succ_ne_zero _
    · rw [hx, hq]
      exact mem_cons_self
    · rintro i (rfl | rfl)
      · exact .inl (hr.trans hrx)
      · rw [hx, hl]
        exact .inr ⟨Nat.lt_succ_of_le hlast, le_rfl⟩

theorem Again.queue (ha : Again w q bc q' bc') :
    bc.lastIoh ≤ bc'.lastIoh ∧ ∀ i, i ≤ bc.lastIoh → (i ∈ bc'.queue ↔ i ∈ bc.queue) := by
  by_cases hw : w = .nothing
  · obtain ⟨-, rfl⟩ := ha.nothing hw
    exact ⟨le_rfl, fun _ _ => .rfl⟩
  · obtain ⟨hl, hq⟩ := ha.submitted hw
    refine ⟨hl ▸ Nat.le_succ _, fun i hi => ?_⟩
    rw [hq, mem_cons]
    exact or_iff_right (by omega)

theorem Taken.ready (ht : Taken epoch bh bc w bh' bc') (hfresh : bh.state = .tx → 0 < bh.version ∧ bh.lastFlushed < bh.version) :
    (w = .read → bh'.state = .missing ∧ bh'.rxIoh = 0) ∧
      (w = .write → bh'.state = .dirty ∧ 0 < bh'.version ∧ bh'.lastFlushed < bh'.version) := by
  refine ⟨fun hw => (ht.read hw).2, fun hw => ?_⟩
  obtain ⟨htx, hdirty, -⟩ := ht.write hw
  rw [ht.kept.version_eq, ht.kept.lastFlushed_eq]
  exact ⟨hdirty, hfresh htx⟩

/-- The pieces outside that are submitted again. -/
def Reissues (on : Onode) (cur e : ℕ) (bh : BufferHead) : Prop :=
  (bh.start < cur → Solid on bh.start cur) ∧ (e < bh.fin → Solid on e bh.fin)

/-- The head is cut exactly if `P` holds. -/
def CutIff (on : Onode) (others : State → ℕ) (epoch cur max : ℕ) (bh : BufferHead) (l : List BufferHead)
    (bc : BufferCache) (P : Prop) : Prop :=
  (P → ∃ pre hit post bc', cutHead on epoch cur max bh bc = some (pre, hit, post, bc') ∧
    Counted others (pre ++ hit :: post ++ l) bc' ∧ CutAt epoch cur (cur + max) bh bc pre hit post bc') ∧
  (¬ P → cutHead on epoch cur max bh bc = none)

section cases

variable (hc : Counted others (bh :: l) bc) (hf : bh.Filled) (hepoch : 0 < epoch)
  (hfresh : bh.state = .tx → 0 < bh.version ∧ bh.lastFlushed < bh.version) (hcur : cur < bh.fin)

include hc hf hepoch hfresh hcur

/-- The head ends in the part: one splice. -/
theorem cutHead_right (hstart : bh.start < cur) (hend : bh.fin ≤ cur + max) :
    CutIff on others epoch cur max bh l bc (Queued epoch bc.queue bh → Solid on bh.start cur) := by
  obtain ⟨w, bh', bc₁, hw, hc1, ht⟩ := withdraw_spec hc hepoch
  have hk := ht.kept
  have hcut : bh'.start < cur ∧ cur < bh'.fin := by
    rw [hk.start_eq, hk.fin_eq]
    exact ⟨hstart, hcur⟩
  obtain ⟨bc₂, hsplit, hc2, hqueue2, hlast2⟩ := split_spec hc1 hcut (hk.filled hf)
  obtain ⟨hok, hfail⟩ := reissue_spec on hc2 (ht.ready hfresh).1 (ht.ready hfresh).2
  have hrange : (bh'.leftOf cur).start = bh.start ∧ (bh'.leftOf cur).fin = cur := ⟨hk.start_eq, leftOf_fin hcut.1.le⟩
  rw [hrange.1, hrange.2, ht.queued] at hok hfail
  have hstep : cutHead on epoch cur max bh bc =
      (reissue on w (bh'.leftOf cur) bc₂).map fun p => ([p.1], bh'.rightOf cur, [], p.2) := by
    rw [cutHead, if_pos hstart, if_pos hend, hw, bind_some]
    dsimp only
    rw [hsplit, bind_some]
  refine ⟨fun hsolid => ?_, fun hsolid => by rw [hstep, hfail hsolid]; rfl⟩
  obtain ⟨left, bc', hagain, hc', ha⟩ := hok hsolid
  refine ⟨[left], bh'.rightOf cur, [], bc', by rw [hstep, hagain]; rfl, hc', ?_⟩
  obtain ⟨hlast, hqueue⟩ := ha.queue
  rw [hlast2, ht.lastIoh] at hlast hqueue
  refine ⟨⟨[cur], ?_, fun c => ?_⟩, ⟨rfl, ?_⟩, ⟨.inr rfl, .inr rfl⟩, .inl ⟨rfl, hend⟩, hlast, fun i _ hi hr hx => ?_⟩
  · exact .cons hstart hcur (ht.kept_again ha (hk.leftOf cur).core rfl rfl) (.whole (hk.rightOf cur))
  · rw [mem_singleton]
    constructor
    · rintro rfl
      exact ⟨.inl rfl, hstart, hcur⟩
    · rintro ⟨rfl | rfl, -, h⟩
      · rfl
      · exact absurd h (not_lt.mpr hend)
  · rw [rightOf_fin hcut.1.le hcut.2.le, hk.fin_eq, min_eq_left hend]
  · rw [hqueue i hi, hqueue2]
    exact ht.queue i hr hx

/-- The head begins where the part does, and goes on behind it: one splice. -/
theorem cutHead_left (hstart : bh.start = cur) (hend : cur + max < bh.fin) (hmax : 0 < max) :
    CutIff on others epoch cur max bh l bc (Queued epoch bc.queue bh → Solid on (cur + max) bh.fin) := by
  obtain ⟨w, bh', bc₁, hw, hc1, ht⟩ := withdraw_spec hc hepoch
  have hk := ht.kept
  have hcut : bh'.start < cur + max ∧ cur + max < bh'.fin := by
    rw [hk.start_eq, hk.fin_eq]
    omega
  obtain ⟨bc₂, hsplit, hc2, hqueue2, hlast2⟩ := split_spec hc1 hcut (hk.filled hf)
  obtain ⟨hok, hfail⟩ := reissue_spec on (counted_perm hc2 (.swap _ _ _))
    (fun h => ⟨((ht.ready hfresh).1 h).1, rfl⟩) (ht.ready hfresh).2
  have hrange : (bh'.rightOf (cur + max)).start = cur + max ∧ (bh'.rightOf (cur + max)).fin = bh.fin :=
    ⟨rfl, (rightOf_fin hcut.1.le hcut.2.le).trans hk.fin_eq⟩
  rw [hrange.1, hrange.2, ht.queued] at hok hfail
  have hlen : ¬ bh.length ≤ max := fun h => by
    unfold fin at hend
    omega
  have hstep : cutHead on epoch cur max bh bc =
      (reissue on w (bh'.rightOf (cur + max)) bc₂).map fun p => ([], bh'.leftOf (cur + max), [p.1], p.2) := by
    rw [cutHead, if_neg (by omega), if_neg hlen, hw, bind_some]
    dsimp only
    rw [hsplit, bind_some]
  refine ⟨fun hsolid => ?_, fun hsolid => by rw [hstep, hfail hsolid]; rfl⟩
  obtain ⟨right, bc', hagain, hc', ha⟩ := hok hsolid
  refine ⟨[], bh'.leftOf (cur + max), [right], bc', by rw [hstep, hagain]; rfl, counted_perm hc' (.swap _ _ _), ?_⟩
  obtain ⟨hlast, hqueue⟩ := ha.queue
  have hright := ht.queued_again ha rfl hk.epochModified_eq rfl rfl (by rw [hlast2, ht.lastIoh])
  have hkept := ht.kept_again ha (hk.rightOf (cur + max)).core rfl rfl
  rw [hlast2, ht.lastIoh] at hlast hqueue
  refine ⟨⟨[cur + max], ?_, fun c => ?_⟩, ⟨hk.start_eq.trans hstart, ?_⟩, ht.iohs,
    .inr ⟨right, rfl, hend, hkept.start_eq, ?_, hright⟩, hlast, fun i _ hi hr hx => ?_⟩
  · exact .cons (by omega) hend (hk.leftOf _) (.whole hkept)
  · rw [mem_singleton]
    constructor
    · rintro rfl
      exact ⟨.inr rfl, by omega, hend⟩
    · rintro ⟨rfl | rfl, h, -⟩
      · omega
      · rfl
  · rw [leftOf_fin hcut.1.le, min_eq_right hend.le]
  · exact hkept.fin_eq.trans (rightOf_fin (by omega) hend.le)
  · rw [hqueue i hi, hqueue2]
    exact ht.queue i hr hx

/-- The part is inside the head: two splices. -/
theorem cutHead_middle (hstart : bh.start < cur) (hend : cur + max < bh.fin) (hmax : 0 < max) :
    CutIff on others epoch cur max bh l bc
      (Queued epoch bc.queue bh → Solid on bh.start cur ∧ Solid on (cur + max) bh.fin) := by
  obtain ⟨w, bh', bc₁, hw, hc1, ht⟩ := withdraw_spec hc hepoch
  have hk := ht.kept
  have hcut : bh'.start < cur ∧ cur < bh'.fin := by
    rw [hk.start_eq, hk.fin_eq]
    exact ⟨hstart, hcur⟩
  obtain ⟨bc₂, hsplit, hc2, hqueue2, hlast2⟩ := split_spec hc1 hcut (hk.filled hf)
  obtain ⟨hok, hfail⟩ := reissue_spec on hc2 (ht.ready hfresh).1 (ht.ready hfresh).2
  have hrange : (bh'.leftOf cur).start = bh.start ∧ (bh'.leftOf cur).fin = cur := ⟨hk.start_eq, leftOf_fin hcut.1.le⟩
  rw [hrange.1, hrange.2, ht.queued] at hok hfail
  have hstep : cutHead on epoch cur max bh bc = (reissue on w (bh'.leftOf cur) bc₂).bind fun p =>
      (split (bh'.rightOf cur) (cur + max) p.2).bind fun q =>
        (reissue on w q.2.1 q.2.2).map fun r => ([p.1], q.1, [r.1], r.2) := by
    rw [cutHead, if_pos hstart, if_neg (not_le.mpr hend), hw, bind_some]
    dsimp only
    rw [hsplit, bind_some]
  by_cases hleft : Queued epoch bc.queue bh → Solid on bh.start cur
  swap
  · refine ⟨fun h => absurd (fun hq => (h hq).1) hleft, fun _ => ?_⟩
    rw [hstep, hfail hleft]
    rfl
  obtain ⟨left, bc3, hagain, hc3, ha⟩ := hok hleft
  have hrfin : (bh'.rightOf cur).fin = bh.fin := (rightOf_fin hcut.1.le hcut.2.le).trans hk.fin_eq
  have hcut2 : (bh'.rightOf cur).start < cur + max ∧ cur + max < (bh'.rightOf cur).fin := by
    rw [hrfin]
    exact ⟨Nat.lt_add_of_pos_right hmax, hend⟩
  obtain ⟨bc4, hsplit2, hc4, hqueue4, hlast4⟩ := split_spec (counted_perm hc3 (.swap _ _ _)) hcut2
    (filled_split (hk.filled hf) ⟨hcut.1.le, hcut.2.le⟩).2
  obtain ⟨hok2, hfail2⟩ := reissue_spec on (counted_perm hc4 (.swap _ _ _))
    (fun h => ⟨((ht.ready hfresh).1 h).1, rfl⟩) (ht.ready hfresh).2
  have hrange2 : ((bh'.rightOf cur).rightOf (cur + max)).start = cur + max ∧
      ((bh'.rightOf cur).rightOf (cur + max)).fin = bh.fin := ⟨rfl, (rightOf_fin hcut2.1.le hcut2.2.le).trans hrfin⟩
  rw [hrange2.1, hrange2.2, ht.queued] at hok2 hfail2
  rw [hagain, bind_some] at hstep
  rw [hsplit2, bind_some] at hstep
  refine ⟨fun hsolid => ?_, fun hsolid => ?_⟩
  · obtain ⟨right, bc', hagain2, hc', ha2⟩ := hok2 fun hq => (hsolid hq).2
    refine ⟨[left], (bh'.rightOf cur).leftOf (cur + max), [right], bc', by rw [hstep, hagain2]; rfl,
      counted_perm hc' ?_, ?_⟩
    · exact (List.Perm.swap _ _ _).trans ((List.Perm.cons _ (.swap _ _ _)).trans (.swap _ _ _))
    · obtain ⟨hlast, hqueue⟩ := ha.queue
      obtain ⟨hlast', hqueue'⟩ := ha2.queue
      have hright := ht.queued_again ha2 rfl hk.epochModified_eq rfl rfl (by
        rw [hlast4]
        rwa [hlast2, ht.lastIoh] at hlast)
      have hkept := ht.kept_again ha2 ((hk.rightOf cur).rightOf (cur + max)).core rfl rfl
      rw [hlast2, ht.lastIoh] at hlast hqueue
      rw [hlast4] at hlast' hqueue'
      refine ⟨⟨[cur, cur + max], ?_, fun c => ?_⟩, ⟨rfl, ?_⟩, ⟨.inr rfl, .inr rfl⟩,
        .inr ⟨right, rfl, hend, hkept.start_eq, ?_, hright⟩, hlast.trans hlast', fun i _ hi hr hx => ?_⟩
      · refine .cons hstart hcur (ht.kept_again ha (hk.leftOf cur).core rfl rfl) (.cons ?_ ?_ ?_ (.whole hkept))
        · exact hcut2.1
        · rw [rightOf_fin hstart.le hcur.le]
          exact hend
        · exact (hk.rightOf cur).leftOf _
      · rw [mem_cons, mem_singleton]
        refine ⟨fun h => ⟨h, ?_⟩, fun h => h.1⟩
        rcases h with rfl | rfl
        · exact ⟨hstart, hcur⟩
        · exact ⟨by omega, hend⟩
      · rw [leftOf_fin hcut2.1.le, min_eq_right hend.le]
      · exact hkept.fin_eq.trans ((rightOf_fin (by exact hcut2.1.le) (by
          rw [rightOf_fin hstart.le hcur.le]
          exact hend.le)).trans (rightOf_fin hstart.le hcur.le))
      · rw [hqueue' i (hi.trans hlast), hqueue4, hqueue i hi, hqueue2]
        exact ht.queue i hr hx
  · rw [hstep, hfail2 fun h => hsolid fun hq => ⟨hleft hq, h hq⟩]
    rfl

/-- **A head is cut.** This fails exactly if its I/O is taken back and a piece outside is not in one extent. -/
theorem cutHead_spec (hle : bh.start ≤ cur) (hmax : 0 < max) :
    CutIff on others epoch cur max bh l bc (Queued epoch bc.queue bh → Reissues on cur (cur + max) bh) := by
  have hiff : ∀ {P : Prop}, (Reissues on cur (cur + max) bh ↔ P) →
      ((Queued epoch bc.queue bh → Reissues on cur (cur + max) bh) ↔ (Queued epoch bc.queue bh → P)) :=
    fun h => imp_congr_right fun _ => h
  rcases lt_or_eq_of_le hle with hstart | hstart
  · rcases lt_or_ge (cur + max) bh.fin with hend | hend
    · rw [hiff (show Reissues on cur (cur + max) bh ↔ Solid on bh.start cur ∧ Solid on (cur + max) bh.fin from
        and_congr (forall_prop_of_true hstart) (forall_prop_of_true hend))]
      exact cutHead_middle hc hf hepoch hfresh hcur hstart hend hmax
    · rw [hiff (show Reissues on cur (cur + max) bh ↔ Solid on bh.start cur from
        ⟨fun h => h.1 hstart, fun h => ⟨fun _ => h, fun h' => absurd h' (not_lt.mpr hend)⟩⟩)]
      exact cutHead_right hc hf hepoch hfresh hcur hstart hend
  · rcases lt_or_ge (cur + max) bh.fin with hend | hend
    · rw [hiff (show Reissues on cur (cur + max) bh ↔ Solid on (cur + max) bh.fin from
        ⟨fun h => h.2 hend, fun h => ⟨fun h' => absurd h' (by omega), fun _ => h⟩⟩)]
      exact cutHead_left hc hf hepoch hfresh hcur hstart hend hmax
    · have hwhole : Reissues on cur (cur + max) bh :=
        ⟨fun h => absurd h (by omega), fun h => absurd h (not_lt.mpr hend)⟩
      refine ⟨fun _ => ?_, fun h => absurd (fun _ => hwhole) h⟩
      have hlen : bh.length ≤ max := by
        unfold fin at hend
        omega
      refine ⟨[], bh, [], bc, ?_, hc, ⟨[], .whole (.refl bh), fun c => ?_⟩, ⟨hstart, (min_eq_left hend).symm⟩,
        ⟨.inl rfl, .inl rfl⟩, .inl ⟨rfl, hend⟩, le_rfl, fun _ _ _ _ _ => .rfl⟩
      · rw [cutHead, if_neg (by omega), if_pos hlen]
      · refine iff_of_false not_mem_nil ?_
        rintro ⟨rfl | rfl, h1, h2⟩
        · omega
        · omega

end cases

end cutting

end Cache
end Ebofs
end Ceph
