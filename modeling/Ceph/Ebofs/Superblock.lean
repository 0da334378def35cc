/-
# The two superblocks

`mount`, `mkfs`, `prepare_super` and `write_super` of `ebofs/Ebofs.cc` with the
usemaps of `ebofs/nodes.h`: a commit writes the usemap and then the superblock
of its epoch, each into the one of two places that the parity of the epoch
says. A crash can come at any point, also in the middle of the write of a
superblock; `mount` picks a superblock and replays the journal, whose entries
carry the epoch they were submitted in.

The checksum of a superblock is an arbitrary function, and its tables are of an
arbitrary type: what they say is for the commit thread, which hands them over.

`mount` compares the epochs of the two superblocks without asking which of
them is valid, and an entry of the next epoch advances `super_epoch`, so that
the commit after the mount skips the epoch whose parity would be right.
-/
import Mathlib.Algebra.Group.Nat.Defs
import Mathlib.Data.Finset.Basic
import Ceph.Lib.Run

namespace Ceph
namespace Ebofs

open List Function
open Option hiding max_eq_left max_eq_right

/-- `extent_t`. -/
structure Extent where
  start : ℕ
  length : ℕ
deriving DecidableEq

/-- The extents have no block in common. -/
def Extent.Apart (e f : Extent) : Prop := e.start + e.length ≤ f.start ∨ f.start + f.length ≤ e.start

instance (e f : Extent) : Decidable (e.Apart f) := inferInstanceAs (Decidable (_ ∨ _))

theorem Extent.Apart.symm {e f : Extent} (h : e.Apart f) : f.Apart e := Or.symm h

namespace Superblock

/-- `EBOFS_MAGIC`. -/
def ebofsMagic : ℕ := 0x000EB0F5

/-- `ebofs_super`, up to its checksum. Of the node pool only the usemaps are kept. -/
structure Body (τ : Type) where
  sMagic : ℕ
  fsid : ℕ
  epoch : ℕ                 -- 32 bits
  numBlocks : ℕ
  freeBlocks : ℕ
  limboBlocks : ℕ
  nodeUsemapEven : Extent
  nodeUsemapOdd : Extent
  tables : τ

/-- `ebofs_super`. -/
structure Super (τ : Type) extends Body τ where
  superCsum : ℕ

variable {τ : Type} (calcCsum : Body τ → ℕ)

/-- `is_corrupt`. -/
def Super.isCorrupt (sb : Super τ) : Bool := calcCsum sb.toBody ≠ sb.superCsum

/-- `is_valid_magic`. -/
def Super.isValidMagic (sb : Super τ) : Bool := sb.sMagic = ebofsMagic

/-- `is_valid`. -/
def Super.isValid (sb : Super τ) : Bool := sb.isValidMagic ∧ ¬ sb.isCorrupt calcCsum

/-- The place of an epoch: `epoch & 1`. -/
def odd (epoch : ℕ) : Bool := epoch % 2 = 1

/-- The block of a superblock. -/
def superExtent (o : Bool) : Extent := ⟨if o then 1 else 0, 1⟩

/-- The usemap of an epoch. -/
def usemapLoc (even odd' : Extent) (epoch : ℕ) : Extent := if odd epoch then odd' else even

/-- The usemap that belongs to a superblock: what `read_usemap_and_clean_nodes` reads. -/
def Super.usemap (sb : Super τ) : Extent := usemapLoc sb.nodeUsemapEven sb.nodeUsemapOdd sb.epoch

/-- A commit of the commit thread. -/
inductive Phase (τ : Type)
  | idle
  | flushing (superbp : Super τ)      -- usemap written, waiting for the nodes
  | writing (superbp : Super τ)       -- in write_super

/-- A mounted file system. -/
structure Mem (τ : Type) where
  superEpoch : ℕ
  fsid : ℕ
  usemapEven : Extent
  usemapOdd : Extent
  phase : Phase τ
  -- not in the source
  newest : Super τ              -- the superblock selected by mount, or the last one written since
  place : Bool                  -- where it is
  writes : List Extent          -- what was written of superblocks and usemaps since

/-- The device, the journal and the mounted file system, if there is one. -/
structure Disk (τ : Type) where
  numBlocks : ℕ
  super : Bool → Super τ        -- blocks 0 and 1
  journal : List ℕ              -- the epochs of the entries that read_entry finds
  mem : Option (Mem τ)

/-- `prepare_super`. -/
def prepareSuper (s : Disk τ) (m : Mem τ) (epoch freeBlocks limboBlocks : ℕ) (tables : τ) : Super τ :=
  let b : Body τ :=
    { sMagic := ebofsMagic, fsid := m.fsid, epoch := epoch % 2 ^ 32, numBlocks := s.numBlocks
      freeBlocks, limboBlocks, nodeUsemapEven := m.usemapEven, nodeUsemapOdd := m.usemapOdd, tables }
  { b with superCsum := calcCsum b }

/-! ### Mounting -/

/-- The superblock that `mount` picks. -/
def pickNewest (sb1 sb2 : Super τ) : Bool := if sb1.epoch > sb2.epoch then false else true

/-- The replay of the journal: `super_epoch` after the entries; `none` if the
assertion on their epoch fails. -/
def replay : ℕ → List ℕ → Option ℕ
  | superEpoch, [] => some superEpoch
  | superEpoch, e :: es =>
    if e < superEpoch then replay superEpoch es
    else
      let superEpoch := if e = superEpoch + 1 then superEpoch + 1 else superEpoch
      if e = superEpoch then replay superEpoch es else none

/-- `mount`; `none` if it fails. -/
def mount (s : Disk τ) : Option (Mem τ) :=
  let sb1 := s.super false
  let sb2 := s.super true
  if ¬ sb1.isValidMagic ∧ ¬ sb2.isValidMagic then none
  else if sb1.isCorrupt calcCsum ∧ sb2.isCorrupt calcCsum then none
  else if (sb1.isValid calcCsum ∧ sb1.numBlocks > s.numBlocks) ∨
      (sb2.isValid calcCsum ∧ sb2.numBlocks > s.numBlocks) then none
  else
    let place := pickNewest sb1 sb2
    let sb := s.super place
    (replay sb.epoch s.journal).map fun superEpoch =>
      { superEpoch, fsid := sb.fsid
        usemapEven := sb.nodeUsemapEven, usemapOdd := sb.nodeUsemapOdd
        phase := .idle, newest := sb, place, writes := [] }

/-! ### Commits and crashes -/

/-- What can happen. `commitDone` can give the node pool new usemaps
(`alloc_more_node_space`). The first `kept` entries of the journal have reached
the disk in a crash. -/
inductive Act (τ : Type)
  | mount
  | submit                                                        -- a journal entry
  | commitStart (freeBlocks limboBlocks : ℕ) (tables : τ)
  | writeSuper
  | commitDone (more : Option (Extent × Extent))
  | crash (kept : ℕ)
  | crashInSuper (kept : ℕ) (torn : Super τ)                      -- in the middle of write_super

/-- New usemaps are allocated from free space. -/
def FreshUsemaps (m : Mem τ) (even odd' : Extent) : Prop :=
  even.Apart odd' ∧ (∀ e ∈ [even, odd'], e.Apart m.usemapEven ∧ e.Apart m.usemapOdd ∧
    e.Apart (superExtent false) ∧ e.Apart (superExtent true))

instance (m : Mem τ) (even odd' : Extent) : Decidable (FreshUsemaps m even odd') :=
  inferInstanceAs (Decidable (_ ∧ _))

/-- One step. -/
def step (s : Disk τ) (a : Act τ) : Option (Disk τ) :=
  match a, s.mem with
  | .mount, none => (mount calcCsum s).map fun m => { s with mem := some m }
  | .submit, some m => some { s with journal := s.journal ++ [m.superEpoch] }
  | .commitStart freeBlocks limboBlocks tables, some m =>
    match m.phase with
    | .idle =>
      let e := m.superEpoch + 1
      some { s with mem := some { m with
        superEpoch := e
        phase := .flushing (prepareSuper calcCsum s m e freeBlocks limboBlocks tables)
        writes := usemapLoc m.usemapEven m.usemapOdd e :: m.writes } }
    | _ => none
  | .writeSuper, some m =>
    match m.phase with
    | .flushing superbp => some { s with mem := some { m with
        phase := .writing superbp
        writes := superExtent (odd m.superEpoch) :: m.writes } }
    | _ => none
  | .commitDone more, some m =>
    match m.phase with
    | .writing superbp =>
      let m' : Mem τ := { m with
        phase := .idle, newest := superbp, place := odd m.superEpoch, writes := [] }
      let s' : Disk τ := { s with
        super := Function.update s.super (odd m.superEpoch) superbp
        journal := s.journal.filter fun e => m.superEpoch ≤ e }
      match more with
      | none => some { s' with mem := some m' }
      | some (even, odd') =>
        if FreshUsemaps m even odd' then
          some { s' with mem := some { m' with usemapEven := even, usemapOdd := odd' } }
        else none
    | _ => none
  | .crash kept, some _ => some { s with journal := s.journal.take kept, mem := none }
  | .crashInSuper kept torn, some m =>
    match m.phase with
    | .writing _ =>
      if torn.isCorrupt calcCsum then some { s with
        super := Function.update s.super (odd m.superEpoch) torn
        journal := s.journal.take kept
        mem := none }
      else none
    | _ => none
  | _, _ => none

/-- The superblock that `mkfs` writes for an epoch; the usemaps lie behind the first
node region. -/
def mkfsSuper (numBlocks fsid freeBlocks : ℕ) (tables : τ) (epoch : ℕ) : Super τ :=
  let nr := max 10 (20 + numBlocks / 1000)
  let usemapLen := (nr - 1) / 8 / 4096 + 1
  let b : Body τ :=
    { sMagic := ebofsMagic, fsid, epoch, numBlocks, freeBlocks, limboBlocks := 0
      nodeUsemapEven := ⟨2 + nr, usemapLen⟩, nodeUsemapOdd := ⟨2 + nr + usemapLen, usemapLen⟩, tables }
  { b with superCsum := calcCsum b }

/-- `mkfs`: both superblocks, and an empty journal. -/
def mkfs (numBlocks fsid freeBlocks : ℕ) (tables : τ) : Disk τ where
  numBlocks := numBlocks
  super o := mkfsSuper calcCsum numBlocks fsid freeBlocks tables (if o then 1 else 0)
  journal := []
  mem := none

/-! ### The invariant -/

/-- The superblock at `o` is valid, and no valid one has a larger epoch. -/
def Newest (s : Disk τ) (o : Bool) : Prop :=
  (s.super o).isValid calcCsum = true ∧
    ∀ o', (s.super o').isValid calcCsum = true → (s.super o').epoch ≤ (s.super o).epoch

/-- The condition on a run: at a mount, a superblock that is not valid does not show
an epoch as large as the other one's, and the journal has no entry of an epoch
after both superblocks; and a commit does not use up the 32 bits of an epoch. -/
def Settled (s : Disk τ) : Act τ → Prop
  | .mount =>
    ((s.super false).isValid calcCsum = false → (s.super false).epoch ≤ (s.super true).epoch) ∧
    ((s.super true).isValid calcCsum = false → (s.super true).epoch < (s.super false).epoch) ∧
    ∀ e ∈ s.journal, e ≤ max (s.super false).epoch (s.super true).epoch
  | .commitStart _ _ _ => s.mem.all (fun m => m.superEpoch + 1 < 2 ^ 32) = true
  | _ => True

instance : ∀ (s : Disk τ) (a : Act τ), Decidable (Settled calcCsum s a)
  | _, .mount => inferInstanceAs (Decidable (_ ∧ _ ∧ _))
  | _, .commitStart _ _ _ => inferInstanceAs (Decidable (_ = true))
  | _, .submit | _, .writeSuper | _, .commitDone _ | _, .crash _ | _, .crashInSuper _ _ => isTrue trivial

/-- The usemaps lie apart, and not on a superblock. -/
structure Locs (even odd' : Extent) : Prop where
  apart : even.Apart odd'
  evenSuper : ∀ o, even.Apart (superExtent o)
  oddSuper : ∀ o, odd'.Apart (superExtent o)

variable {even odd' : Extent} {m : Mem τ}

theorem Locs.super (h : Locs even odd') (e : ℕ) (o : Bool) :
    (usemapLoc even odd' e).Apart (superExtent o) := by
  rw [usemapLoc]
  split_ifs
  · exact h.oddSuper o
  · exact h.evenSuper o

theorem odd_succ (e : ℕ) : odd (e + 1) = !odd e := by
  rcases Nat.mod_two_eq_zero_or_one e with h | h
  · have h1 : (e + 1) % 2 = 1 := by omega
    simp [odd, h, h1]
  · have h1 : (e + 1) % 2 = 0 := by omega
    simp [odd, h, h1]

theorem Locs.next (h : Locs even odd') (e : ℕ) :
    (usemapLoc even odd' (e + 1)).Apart (usemapLoc even odd' e) := by
  rw [usemapLoc, usemapLoc, odd_succ]
  cases Superblock.odd e
  · exact h.apart.symm
  · exact h.apart

/-- A valid superblock at `o`. -/
structure Good (numBlocks : ℕ) (sb : Super τ) (o : Bool) : Prop where
  place : odd sb.epoch = o
  blocks : sb.numBlocks ≤ numBlocks
  locs : Locs sb.nodeUsemapEven sb.nodeUsemapOdd

/-- A commit in progress. -/
structure Commit (s : Disk τ) (m : Mem τ) (sb : Super τ) : Prop where
  epoch : m.superEpoch = m.newest.epoch + 1
  valid : sb.isValid calcCsum = true
  good : Good s.numBlocks sb (odd m.superEpoch)
  same : sb.epoch = m.superEpoch
  sameEven : sb.nodeUsemapEven = m.usemapEven
  sameOdd : sb.nodeUsemapOdd = m.usemapOdd

/-- What the phase of a commit says. -/
def PhaseInv (s : Disk τ) (m : Mem τ) : Phase τ → Prop
  | .idle => m.superEpoch = m.newest.epoch
  | .flushing sb | .writing sb => Commit calcCsum s m sb

/-- A mounted file system. -/
structure MemInv (s : Disk τ) (m : Mem τ) : Prop where
  newest : Newest calcCsum s m.place
  same : m.newest = s.super m.place
  locs : Locs m.usemapEven m.usemapOdd
  next : (usemapLoc m.usemapEven m.usemapOdd (m.newest.epoch + 1)).Apart m.newest.usemap
  phase : PhaseInv calcCsum s m m.phase
  writes : ∀ w ∈ m.writes, w.Apart (superExtent m.place) ∧ w.Apart m.newest.usemap

structure Inv (s : Disk τ) : Prop where
  good : ∀ o, (s.super o).isValid calcCsum = true → Good s.numBlocks (s.super o) o
  valid : ∃ o, (s.super o).isValid calcCsum = true
  mem : ∀ m, s.mem = some m → MemInv calcCsum s m

variable {calcCsum} {s : Disk τ}

theorem MemInv.of_same {s' : Disk τ} (h : MemInv calcCsum s m) (hs : s'.super = s.super)
    (hn : s'.numBlocks = s.numBlocks) : MemInv calcCsum s' m where
  newest := by
    rw [Newest, hs]
    exact h.newest
  same := by
    rw [hs]
    exact h.same
  locs := h.locs
  next := h.next
  phase := by
    have hp := h.phase
    revert hp
    cases m.phase with
    | idle => exact id
    | flushing sb | writing sb => exact fun hc => { hc with good := hn ▸ hc.good }
  writes := h.writes

/-! ### Mounting finds the newest superblock -/

/-- A replay of entries that are not newer than `e` ends in `e`. -/
theorem replay_eq {e : ℕ} : ∀ {es : List ℕ}, (∀ x ∈ es, x ≤ e) → replay e es = some e
  | [], _ => rfl
  | x :: es, h => by
    have ih := replay_eq fun y hy => h y (mem_cons_of_mem _ hy)
    have hx := h x mem_cons_self
    rw [replay]
    rcases lt_or_eq_of_le hx with hlt | rfl
    · rw [if_pos hlt]
      exact ih
    · rw [if_neg (lt_irrefl _)]
      simpa using ih

theorem pickNewest_newest
    (h0 : (s.super false).isValid calcCsum = false → (s.super false).epoch ≤ (s.super true).epoch)
    (h1 : (s.super true).isValid calcCsum = false → (s.super true).epoch < (s.super false).epoch) :
    Newest calcCsum s (pickNewest (s.super false) (s.super true)) ∧
      (s.super (pickNewest (s.super false) (s.super true))).epoch =
        max (s.super false).epoch (s.super true).epoch := by
  rw [pickNewest]
  split_ifs with hgt
  · have hv : (s.super false).isValid calcCsum = true := by
      by_contra hc
      have := h0 (by simpa using hc)
      omega
    refine ⟨⟨hv, fun o' _ => ?_⟩, (max_eq_left hgt.le).symm⟩
    cases o'
    · exact le_rfl
    · exact hgt.le
  · have hv : (s.super true).isValid calcCsum = true := by
      by_contra hc
      have := h1 (by simpa using hc)
      omega
    refine ⟨⟨hv, fun o' _ => ?_⟩, (max_eq_right (not_lt.mp hgt)).symm⟩
    cases o'
    · exact not_lt.mp hgt
    · exact le_rfl

/-- **Mounting.** When the condition holds, `mount` succeeds and selects the newest
valid superblock. -/
theorem mount_newest (h : Inv calcCsum s) (hs : Settled calcCsum s .mount) :
    ∃ m, mount calcCsum s = some m ∧ Newest calcCsum s m.place ∧ m.newest = s.super m.place ∧
      MemInv calcCsum s m := by
  obtain ⟨h0, h1, hj⟩ := hs
  obtain ⟨hn, hmax⟩ := pickNewest_newest h0 h1
  set o := pickNewest (s.super false) (s.super true) with ho
  have hvalid : ∀ o', (s.super o').isValid calcCsum = true →
      (s.super o').isValidMagic = true ∧ (s.super o').isCorrupt calcCsum = false := by
    intro o' hv
    simpa [Super.isValid] using hv
  have hblocks : ∀ o', ¬ ((s.super o').isValid calcCsum = true ∧ (s.super o').numBlocks > s.numBlocks) :=
    fun o' ⟨hv, hb⟩ => absurd (h.good o' hv).blocks (not_le.mpr hb)
  have hr : replay (s.super o).epoch s.journal = some (s.super o).epoch :=
    replay_eq fun e he => hmax ▸ hj e he
  have hm : mount calcCsum s = some
      { superEpoch := (s.super o).epoch, fsid := (s.super o).fsid
        usemapEven := (s.super o).nodeUsemapEven, usemapOdd := (s.super o).nodeUsemapOdd
        phase := .idle, newest := s.super o, place := o, writes := [] } := by
    obtain ⟨hmag, hcor⟩ := hvalid o hn.1
    rw [mount]
    dsimp only
    rw [if_neg ?_, if_neg ?_, if_neg ?_, ← ho, hr]
    · rfl
    · rintro (hb | hb)
      · exact hblocks _ hb
      · exact hblocks _ hb
    · rintro ⟨hb0, hb1⟩
      cases hcase : o <;> simp_all
    · rintro ⟨hb0, hb1⟩
      cases hcase : o <;> simp_all
  have hg := h.good o hn.1
  exact ⟨_, hm, hn, rfl, ⟨hn, rfl, hg.locs, hg.locs.next _, rfl, by simp⟩⟩

/-! ### Every run -/

theorem prepareSuper_valid (s : Disk τ) (m : Mem τ) (e free limbo : ℕ) (tables : τ) :
    (prepareSuper calcCsum s m e free limbo tables).isValid calcCsum = true := by
  simp [prepareSuper, Super.isValid, Super.isValidMagic, Super.isCorrupt]

theorem superExtent_apart {o o' : Bool} (h : o ≠ o') : (superExtent o).Apart (superExtent o') := by
  cases o <;> cases o' <;> simp_all [superExtent, Extent.Apart]

section

variable (h : Inv calcCsum s) (hm : s.mem = some m)
include h hm

theorem commitStart_inv (hp : m.phase = .idle)
    (hb : m.superEpoch + 1 < 2 ^ 32) (free limbo : ℕ) (tables : τ) :
    Inv calcCsum { s with mem := some { m with
      superEpoch := m.superEpoch + 1
      phase := .flushing (prepareSuper calcCsum s m (m.superEpoch + 1) free limbo tables)
      writes := usemapLoc m.usemapEven m.usemapOdd (m.superEpoch + 1) :: m.writes } } := by
  have hi := h.mem m hm
  have he : m.superEpoch = m.newest.epoch := by
    have := hi.phase
    rwa [hp] at this
  refine ⟨h.good, h.valid, fun m' hm' => ?_⟩
  cases hm'
  refine ⟨hi.newest, hi.same, hi.locs, hi.next, ⟨?_, prepareSuper_valid .., ⟨?_, le_rfl, hi.locs⟩, ?_,
    rfl, rfl⟩, ?_⟩
  · exact congrArg (· + 1) he
  · exact congrArg odd (Nat.mod_eq_of_lt hb)
  · exact Nat.mod_eq_of_lt hb
  · intro w hw
    rcases mem_cons.mp hw with rfl | hw
    · exact ⟨hi.locs.super _ _, by rw [he]; exact hi.next⟩
    · exact hi.writes w hw

theorem Commit.place_ne {sb : Super τ}
    (hc : Commit calcCsum s m sb) : odd m.superEpoch ≠ m.place := by
  have hi := h.mem m hm
  have hg := (h.good m.place hi.newest.1).place
  rw [hc.epoch, odd_succ, hi.same, hg]
  cases m.place <;> simp

theorem writeSuper_inv {sb : Super τ} (hp : m.phase = .flushing sb) :
    Inv calcCsum { s with mem := some { m with
      phase := .writing sb
      writes := superExtent (odd m.superEpoch) :: m.writes } } := by
  have hi := h.mem m hm
  have hc : Commit calcCsum s m sb := by
    have := hi.phase
    rwa [hp] at this
  refine ⟨h.good, h.valid, fun m' hm' => ?_⟩
  cases hm'
  refine ⟨hi.newest, hi.same, hi.locs, hi.next, { hc with good := { hc.good with } }, fun w hw => ?_⟩
  rcases mem_cons.mp hw with rfl | hw
  · refine ⟨superExtent_apart (hc.place_ne h hm), ?_⟩
    have hg := h.good m.place hi.newest.1
    rw [hi.same]
    exact (hg.locs.super _ _).symm
  · exact hi.writes w hw

theorem update_other {o : Bool} (ho : o ≠ m.place)
    (sb : Super τ) (hg : sb.isValid calcCsum = true → Good s.numBlocks sb o) :
    (∀ o', (update s.super o sb o').isValid calcCsum = true →
      Good s.numBlocks (update s.super o sb o') o') ∧
    (update s.super o sb m.place).isValid calcCsum = true := by
  refine ⟨fun o' hv => ?_, ?_⟩
  · by_cases ho' : o' = o
    · subst ho'
      rw [update_self] at hv ⊢
      exact hg hv
    · rw [update_of_ne ho'] at hv ⊢
      exact h.good o' hv
  · rw [update_of_ne ho.symm]
    exact (h.mem m hm).newest.1

/-- The superblock of a commit is on the disk: it is the newest. -/
theorem commitDone_inv {sb : Super τ}
    (hp : m.phase = .writing sb) (even odd' : Extent) (hl : Locs even odd')
    (hn : (usemapLoc even odd' (sb.epoch + 1)).Apart sb.usemap) (js : List ℕ) :
    Inv calcCsum { s with
      super := update s.super (odd m.superEpoch) sb
      journal := js
      mem := some { m with
        phase := .idle, newest := sb, place := odd m.superEpoch, writes := []
        usemapEven := even, usemapOdd := odd' } } := by
  have hi := h.mem m hm
  have hc : Commit calcCsum s m sb := by
    have := hi.phase
    rwa [hp] at this
  have hne := hc.place_ne h hm
  obtain ⟨hgood, -⟩ := update_other h hm hne sb fun _ => hc.good
  have hself : update s.super (odd m.superEpoch) sb (odd m.superEpoch) = sb := update_self ..
  refine ⟨hgood, ⟨odd m.superEpoch, by dsimp only; rw [hself]; exact hc.valid⟩, fun m' hm' => ?_⟩
  cases hm'
  refine ⟨⟨by dsimp only; rw [hself]; exact hc.valid, fun o' hv => ?_⟩, hself.symm, hl, hn,
    hc.same.symm, by simp⟩
  dsimp only at hv ⊢
  rw [hself]
  by_cases ho' : o' = odd m.superEpoch
  · rw [ho', hself]
  · rw [update_of_ne ho'] at hv ⊢
    have hle := hi.newest.2 o' hv
    rw [← hi.same] at hle
    have := hc.same
    have := hc.epoch
    omega

end

theorem FreshUsemaps.locs (h : FreshUsemaps m even odd') : Locs even odd' := by
  obtain ⟨ha, h⟩ := h
  obtain ⟨-, -, he0, he1⟩ := h even (by simp)
  obtain ⟨-, -, ho0, ho1⟩ := h odd' (by simp)
  refine ⟨ha, fun o => ?_, fun o => ?_⟩
  · cases o
    · exact he0
    · exact he1
  · cases o
    · exact ho0
    · exact ho1

theorem FreshUsemaps.next (h : FreshUsemaps m even odd') (e e' : ℕ) :
    (usemapLoc even odd' e).Apart (usemapLoc m.usemapEven m.usemapOdd e') := by
  obtain ⟨-, h⟩ := h
  have hmem : usemapLoc even odd' e ∈ [even, odd'] := by
    rw [usemapLoc]
    split_ifs <;> simp
  obtain ⟨h1, h2, -⟩ := h _ hmem
  rw [usemapLoc.eq_def m.usemapEven]
  split_ifs
  · exact h2
  · exact h1

/-- **One step keeps the invariant.** -/
theorem step_inv {s' : Disk τ} {a : Act τ} (h : Inv calcCsum s) (hok : Settled calcCsum s a)
    (hs : step calcCsum s a = some s') : Inv calcCsum s' := by
  unfold step at hs
  split at hs
  · next hm =>
    obtain ⟨m, hmt, -, -, hi⟩ := mount_newest h hok
    rw [hmt] at hs
    cases hs
    exact ⟨h.good, h.valid, fun m' hm' => by cases hm'; exact hi.of_same rfl rfl⟩
  · next m hm =>
    cases hs
    exact ⟨h.good, h.valid, fun m' hm' => (h.mem m' hm').of_same rfl rfl⟩
  · next free limbo tables m hm =>
    split at hs
    · next hp =>
      cases hs
      have hb : m.superEpoch + 1 < 2 ^ 32 := by simpa [Settled, hm] using hok
      exact commitStart_inv h hm hp hb free limbo tables
    · cases hs
  · next m hm =>
    split at hs
    · next sb hp =>
      cases hs
      exact writeSuper_inv h hm hp
    · cases hs
  · next more m hm =>
    split at hs
    · next sb hp =>
      have hi := h.mem m hm
      have hc : Commit calcCsum s m sb := by
        have := hi.phase
        rwa [hp] at this
      have hu : sb.usemap = usemapLoc m.usemapEven m.usemapOdd sb.epoch := by
        rw [Super.usemap, hc.sameEven, hc.sameOdd]
      split at hs
      · cases hs
        exact commitDone_inv h hm hp _ _ hi.locs (by rw [hu]; exact hi.locs.next _) _
      · next even odd' =>
        obtain ⟨hf, ⟨⟩⟩ := ite_none_right_eq_some.mp hs
        exact commitDone_inv h hm hp _ _ hf.locs (by rw [hu]; exact hf.next _ _) _
    · cases hs
  · next kept m hm =>
    cases hs
    exact ⟨h.good, h.valid, fun m' hm' => by cases hm'⟩
  · next kept torn m hm =>
    split at hs
    · next sb hp =>
      obtain ⟨ht, ⟨⟩⟩ := ite_none_right_eq_some.mp hs
      have hc : Commit calcCsum s m sb := by
        have := (h.mem m hm).phase
        rwa [hp] at this
      obtain ⟨hgood, hv⟩ := update_other h hm (hc.place_ne h hm) torn
        fun hv => by simp [Super.isValid, ht] at hv
      exact ⟨hgood, ⟨m.place, hv⟩, fun m' hm' => by cases hm'⟩
    · cases hs
  · cases hs

theorem mkfs_inv (numBlocks fsid free : ℕ) (tables : τ) :
    Inv calcCsum (mkfs calcCsum numBlocks fsid free tables) := by
  have hloc : ∀ (nr len : ℕ), Locs ⟨2 + nr, len⟩ ⟨2 + nr + len, len⟩ := by
    intro nr len
    refine ⟨.inl le_rfl, fun o => .inr ?_, fun o => .inr ?_⟩
    · dsimp only [superExtent]
      split_ifs <;> omega
    · dsimp only [superExtent]
      split_ifs <;> omega
  refine ⟨fun o _ => ⟨?_, le_rfl, hloc _ _⟩, ⟨false, ?_⟩, fun m hm => by cases hm⟩
  · cases o <;> rfl
  · simp [mkfs, mkfsSuper, Super.isValid, Super.isValidMagic, Super.isCorrupt]

/-- **The superblocks alternate.** In every run in which the condition holds at each
step, a mount that meets it succeeds and selects the valid superblock with the
largest epoch, and what a commit then writes of superblocks and usemaps lies
apart from that superblock and its usemap. -/
theorem superblocks_alternate (calcCsum : Body τ → ℕ) (numBlocks fsid free : ℕ) (tables : τ) {s : Disk τ}
    (h : Run.Reach (step calcCsum) (Settled calcCsum) (mkfs calcCsum numBlocks fsid free tables) s) :
    (Settled calcCsum s .mount → ∃ m, mount calcCsum s = some m ∧ Newest calcCsum s m.place ∧
      m.newest = s.super m.place) ∧
    ∀ m, s.mem = some m → ∀ w ∈ m.writes,
      w.Apart (superExtent m.place) ∧ w.Apart m.newest.usemap := by
  have hi : Inv calcCsum s := h.inv (Inv calcCsum) (mkfs_inv ..) fun _ _ _ hi hok hs => step_inv hi hok hs
  refine ⟨fun hs => ?_, fun m hm => (hi.mem m hm).writes⟩
  obtain ⟨m, hm, hn, hsame, -⟩ := mount_newest hi hs
  exact ⟨m, hm, hn, hsame⟩

/-! ### Runs -/

/-- The checksum of a superblock without tables: the sum of its words. -/
def sumCsum (b : Body Unit) : ℕ :=
  b.sMagic + b.fsid + b.epoch + b.numBlocks + b.freeBlocks + b.limboBlocks +
    b.nodeUsemapEven.start + b.nodeUsemapEven.length + b.nodeUsemapOdd.start + b.nodeUsemapOdd.length

/-- A small device. -/
def small : Disk Unit := mkfs sumCsum 1000 7 900 ()

/-- The block of epoch 0 with one word of a later superblock. -/
def torn (epoch : ℕ) : Super Unit :=
  { small.super false with epoch := epoch, freeBlocks := 800 }

/-- Epoch 2 is torn, with the old epoch still in the block; after the next mount epoch 2
is written again. -/
def tornRun : List (Act Unit) :=
  [.mount, .submit, .commitStart 800 0 (), .writeSuper, .crashInSuper 1 (torn 0),
    .mount, .commitStart 800 0 (), .writeSuper]

theorem superblocks_alternate_torn : ∃ s, Run.Reach (step sumCsum) (Settled sumCsum) small s ∧
    ∃ m, s.mem = some m ∧ m.writes.length = 2 ∧ ∀ w ∈ m.writes,
      w.Apart (superExtent m.place) ∧ w.Apart m.newest.usemap := by
  have hrun : ((Run.exec (step sumCsum) (Settled sumCsum) tornRun small).bind fun s : Disk Unit =>
      s.mem.map fun m => m.writes.length) = some 2 := by decide +kernel
  obtain ⟨s, hs, hm⟩ := bind_eq_some_iff.mp hrun
  obtain ⟨m, hm, hl⟩ := map_eq_some_iff.mp hm
  have hr := Run.reach_of_exec hs
  exact ⟨s, hr, m, hm, hl, (superblocks_alternate sumCsum 1000 7 900 () hr).2 m hm⟩

/-- An entry of epoch 2 is journaled while epoch 2 is being committed, and the commit
does not finish: the replay advances to epoch 2, and the next commit is epoch 3, in
the place of epoch 1. -/
def replayRun : List (Act Unit) :=
  [.mount, .submit, .commitStart 800 0 (), .submit, .crash 2, .mount, .commitStart 800 0 ()]

/-- Epoch 2 is torn after its epoch was written. -/
def tornEpochRun : List (Act Unit) :=
  [.mount, .commitStart 800 0 (), .writeSuper, .crashInSuper 0 (torn 2)]

/-- After the first run the usemap of the selected superblock is overwritten; after the
second the corrupt superblock is selected. -/
theorem superblocks_collide :
    (∃ s, Run.Reach (step sumCsum) Run.anyAct small s ∧
      ∃ m, s.mem = some m ∧ ∃ w ∈ m.writes, ¬ w.Apart m.newest.usemap) ∧
    (∃ s, Run.Reach (step sumCsum) Run.anyAct small s ∧
      ∃ m, mount sumCsum s = some m ∧ ¬ Newest sumCsum s m.place) := by
  constructor
  · have hrun : ((Run.exec (step sumCsum) Run.anyAct replayRun small).bind fun s : Disk Unit =>
        s.mem.map fun m => m.writes.any fun w => ¬ w.Apart m.newest.usemap) = some true := by
      decide +kernel
    obtain ⟨s, hs, hm⟩ := bind_eq_some_iff.mp hrun
    obtain ⟨m, hm, hw⟩ := map_eq_some_iff.mp hm
    obtain ⟨w, hw, hn⟩ := List.any_eq_true.mp hw
    exact ⟨s, Run.reach_of_exec hs, m, hm, w, hw, by simpa using hn⟩
  · have hrun : ((Run.exec (step sumCsum) Run.anyAct tornEpochRun small).bind fun s : Disk Unit =>
        (mount sumCsum s).map fun m => (s.super m.place).isValid sumCsum) = some false := by
      decide +kernel
    obtain ⟨s, hs, hm⟩ := bind_eq_some_iff.mp hrun
    obtain ⟨m, hm, hv⟩ := map_eq_some_iff.mp hm
    exact ⟨s, Run.reach_of_exec hs, m, hm, fun hn => by simp [hn.1] at hv⟩

end Superblock
end Ebofs
end Ceph
