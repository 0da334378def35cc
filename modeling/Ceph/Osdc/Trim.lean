/-
# Trimming the MDS journal

`write_head`, `trim` and their completions in `osdc/Journaler.cc`: the expire
position goes into the head of the journal, and when a head is durable, the
objects below its expire position are removed, whole periods of the layout at
a time. Any number of heads can be outstanding, and they complete in any
order. Appending and reading are left out but for the positions they move.

Each completion overwrites `last_committed`. One that comes after a newer head
moves it back, and `trim` then fails its assertion; `last_committed` is empty
until the first head is committed. With these two left out, nothing is removed
that is not below the expire position of a durable head.
-/
import Mathlib.Tactic.Ring
import Ceph.Lib.Run

namespace Ceph
namespace Osdc
namespace Trim

open List Option

/-- The layout of the journal's file; the size of an object is a multiple of the stripe
unit. -/
structure Layout where
  stripeUnit : ℕ
  stripeCount : ℕ
  objectSize : ℕ
  dvd : stripeUnit ∣ objectSize
  pos : 0 < objectSize * stripeCount

/-- `ceph_file_layout_period`. -/
def Layout.period (l : Layout) : ℕ := l.objectSize * l.stripeCount

/-- The object of a byte, as in `file_to_extents`. -/
def Layout.objectOf (l : Layout) (cur : ℕ) : ℕ :=
  let stripesPerObject := l.objectSize / l.stripeUnit
  let blockno := cur / l.stripeUnit
  let stripeno := blockno / l.stripeCount
  let stripepos := blockno % l.stripeCount
  let objectsetno := stripeno / stripesPerObject
  objectsetno * l.stripeCount + stripepos

/-- `Header`. -/
structure Header where
  trimmedPos : ℕ
  expirePos : ℕ
  readPos : ℕ
  writePos : ℕ
deriving DecidableEq

/-- The positions of a journal. -/
structure State where
  ok : Bool                       -- no assertion has failed
  writePos : ℕ
  ackPos : ℕ
  readPos : ℕ
  expirePos : ℕ
  trimmingPos : ℕ
  trimmedPos : ℕ
  lastCommitted : Header
  heads : List Header             -- outstanding `write_head`s
  trims : List ℕ                  -- outstanding removals, and where they end
  -- not in the source
  durable : List Header           -- the heads that were committed
  removed : List (ℕ × ℕ)          -- what `filer.remove` was called with: start and end

variable (l : Layout)

/-- `write_head`. -/
def writeHead (s : State) : State :=
  { s with heads := s.heads ++ [⟨s.trimmedPos, s.expirePos, s.readPos, s.ackPos⟩] }

/-- `trim`. -/
def trim (s : State) : State :=
  let trimTo := s.lastCommitted.expirePos - s.lastCommitted.expirePos % l.period
  if trimTo = 0 ∨ trimTo = s.trimmingPos then s
  -- already trimming, try again later
  else if s.trimmingPos > s.trimmedPos then s
  else if trimTo ≤ s.writePos ∧ trimTo > s.trimmingPos then
    { s with
      removed := s.removed ++ [(s.trimmingPos, trimTo)]
      trims := s.trims ++ [trimTo]
      trimmingPos := trimTo }
  else { s with ok := false }

/-- `_finish_write_head`, of the `k`-th outstanding head. -/
def finishWriteHead (k : ℕ) (s : State) : Option State :=
  s.heads[k]?.map fun wrote =>
    trim l { s with heads := s.heads.eraseIdx k, durable := wrote :: s.durable, lastCommitted := wrote }

/-- `_trim_finish`, of the `k`-th outstanding removal. -/
def trimFinish (k : ℕ) (s : State) : Option State :=
  s.trims[k]?.map fun upTo =>
    if upTo ≤ s.trimmingPos ∧ upTo > s.trimmedPos then { s with trims := s.trims.eraseIdx k, trimmedPos := upTo }
    else { s with ok := false }

/-- A journal that is opened: `reset`, or `recover` with what the head says. -/
def opened (h : Header) (writePos : ℕ) (durable : List Header) (removed : List (ℕ × ℕ)) : State where
  ok := true
  writePos
  ackPos := writePos
  readPos := h.readPos
  expirePos := h.expirePos
  trimmingPos := h.trimmedPos
  trimmedPos := h.trimmedPos
  lastCommitted := ⟨0, 0, 0, 0⟩
  heads := []
  trims := []
  durable
  removed

/-- What can happen. -/
inductive Act
  | append (n : ℕ)
  | ack (p : ℕ)
  | read (p : ℕ)
  | cut                           -- `is_readable` cuts off a partial entry
  | setExpirePos (ep : ℕ)
  | writeHead
  | finishWriteHead (k : ℕ)
  | trim
  | trimFinish (k : ℕ)
  | recover (k : ℕ) (e : ℕ)       -- a restart finds the `k`-th head and the end of the file

/-- One step. -/
def step (s : State) (a : Act) : Option State :=
  if s.ok = false then none
  else match a with
  | .append n => some { s with writePos := s.writePos + n }
  | .ack p => if s.ackPos ≤ p ∧ p ≤ s.writePos then some { s with ackPos := p } else none
  | .read p => if s.readPos ≤ p ∧ p ≤ s.writePos then some { s with readPos := p } else none
  | .cut => if s.readPos ≤ s.writePos then some { s with writePos := s.readPos, ackPos := s.readPos } else none
  | .setExpirePos ep => some { s with expirePos := ep }
  | .writeHead => some (Trim.writeHead s)
  | .finishWriteHead k => Trim.finishWriteHead l k s
  | .trim => some (Trim.trim l s)
  | .trimFinish k => Trim.trimFinish k s
  | .recover k e => ((s.heads ++ s.durable)[k]?).map fun h => opened h e (h :: s.durable) s.removed

/-- `reset`, with the head written. -/
def init : State :=
  let h : Header := ⟨l.period, l.period, l.period, l.period⟩
  opened h l.period [h] []

/-! ### What is claimed -/

/-- What was removed lies below the expire position of a durable head. -/
def Expired (s : State) : Prop :=
  ∀ r ∈ s.removed, ∀ x, r.1 ≤ x → x < r.2 → ∀ y, l.objectOf y = l.objectOf x → ∃ h ∈ s.durable, y < h.expirePos

/-- The journal as it is claimed to be. -/
structure Claimed (s : State) : Prop where
  ok : s.ok = true
  expired : Expired l s
  trimmed : s.trimmedPos ≤ s.trimmingPos
  committed : s.trimmingPos ≤ s.lastCommitted.expirePos

/-- The journal as it is: `last_committed` can still be empty. -/
structure Trimmed (s : State) : Prop where
  ok : s.ok = true
  expired : Expired l s
  trimmed : s.trimmedPos ≤ s.trimmingPos
  committed : s.lastCommitted = ⟨0, 0, 0, 0⟩ ∨ s.trimmingPos ≤ s.lastCommitted.expirePos

/-- The condition on a run: the expire position grows and stays below the read and the
write position, and no head is committed after one with a greater expire position. -/
def InOrder (s : State) : Act → Prop
  | .cut => s.expirePos ≤ s.readPos
  | .setExpirePos ep => s.expirePos ≤ ep ∧ ep ≤ s.writePos
  | .finishWriteHead k => ∀ h ∈ s.heads[k]?, s.lastCommitted.expirePos ≤ h.expirePos
  | .recover k e => ∀ h ∈ (s.heads ++ s.durable)[k]?, h.expirePos ≤ e
  | _ => True

instance : ∀ (s : State) (a : Act), Decidable (InOrder s a)
  | _, .cut => inferInstanceAs (Decidable (_ ≤ _))
  | _, .setExpirePos _ => inferInstanceAs (Decidable (_ ∧ _))
  | _, .finishWriteHead _ | _, .recover _ _ => inferInstanceAs (Decidable (∀ h ∈ _, _))
  | _, .append _ | _, .ack _ | _, .read _ | _, .writeHead | _, .trim | _, .trimFinish _ => isTrue trivial

/-! ### Objects -/

variable {l}

theorem objectOf_div (l : Layout) (x : ℕ) : l.objectOf x / l.stripeCount = x / l.period := by
  have hcount : 0 < l.stripeCount := Nat.pos_of_mul_pos_left l.pos
  have hsize : l.stripeUnit * (l.objectSize / l.stripeUnit) = l.objectSize := Nat.mul_div_cancel' l.dvd
  have hset : l.objectOf x / l.stripeCount = x / l.stripeUnit / l.stripeCount / (l.objectSize / l.stripeUnit) := by
    unfold Layout.objectOf
    dsimp only
    rw [mul_comm, Nat.mul_add_div hcount, Nat.div_eq_of_lt (Nat.mod_lt _ hcount), add_zero]
  have hperiod : l.stripeUnit * (l.stripeCount * (l.objectSize / l.stripeUnit)) = l.period :=
    calc l.stripeUnit * (l.stripeCount * (l.objectSize / l.stripeUnit))
        = l.stripeUnit * (l.objectSize / l.stripeUnit) * l.stripeCount := by ring
      _ = l.objectSize * l.stripeCount := by rw [hsize]
  rw [hset, Nat.div_div_eq_div_mul, Nat.div_div_eq_div_mul, hperiod]

/-- **An object that holds a byte below a period boundary** holds no byte above it. -/
theorem objectOf_lt {b x y : ℕ} (hb : l.period ∣ b) (hx : x < b) (h : l.objectOf y = l.objectOf x) : y < b := by
  have hp : 0 < l.period := l.pos
  have hdiv : y / l.period = x / l.period := by rw [← objectOf_div, ← objectOf_div, h]
  obtain ⟨k, rfl⟩ := hb
  rw [mul_comm] at hx ⊢
  rw [← Nat.div_lt_iff_lt_mul hp] at hx ⊢
  omega

/-! ### The invariant -/

/-- The removal in progress: at most one, up to `trimming_pos`. -/
def Busy (s : State) : Prop :=
  (s.trims = [] ∧ s.trimmedPos = s.trimmingPos) ∨ (s.trims = [s.trimmingPos] ∧ s.trimmedPos < s.trimmingPos)

variable (l) in
structure Inv (s : State) : Prop where
  ok : s.ok = true
  aligned : l.period ∣ s.trimmingPos
  alignedTrimmed : l.period ∣ s.trimmedPos
  expire : s.expirePos ≤ s.writePos
  trimming : s.trimmingPos ≤ s.expirePos
  busy : Busy s
  committed : s.lastCommitted = ⟨0, 0, 0, 0⟩ ∧ (∀ h ∈ s.heads, s.trimmingPos ≤ h.expirePos) ∨
    s.trimmingPos ≤ s.lastCommitted.expirePos
  last : s.lastCommitted.expirePos ≤ s.expirePos
  heads : ∀ h ∈ s.heads, h.expirePos ≤ s.expirePos
  headsTrimmed : ∀ h ∈ s.heads ++ s.durable, h.trimmedPos ≤ h.expirePos ∧ l.period ∣ h.trimmedPos
  removed : ∀ r ∈ s.removed, l.period ∣ r.2 ∧ ∃ h ∈ s.durable, r.2 ≤ h.expirePos
  durable : s.lastCommitted = ⟨0, 0, 0, 0⟩ ∨ s.lastCommitted ∈ s.durable

variable {s s' : State}

theorem Busy.le (h : Busy s) : s.trimmedPos ≤ s.trimmingPos := by
  rcases h with ⟨-, h⟩ | ⟨-, h⟩
  · exact h.le
  · exact h.le

/-- **`trim` fails no assertion**, and removes what a durable head lets go of. -/
theorem trim_inv (h : Inv l s) : Inv l (trim l s) := by
  unfold trim
  set e := s.lastCommitted.expirePos with he
  set upTo := e - e % l.period with hup
  have hle : upTo ≤ e := Nat.sub_le _ _
  have hdvd : l.period ∣ upTo := Nat.dvd_sub_mod e
  by_cases hdone : upTo = 0 ∨ upTo = s.trimmingPos
  · rw [if_pos hdone]
    exact h
  · rw [if_neg hdone]
    by_cases hbusy : s.trimmingPos > s.trimmedPos
    · rw [if_pos hbusy]
      exact h
    · rw [if_neg hbusy]
      have hlast := h.last
      have hexp := h.expire
      -- a head was committed, since its expire position is not 0
      have hne : s.lastCommitted ≠ ⟨0, 0, 0, 0⟩ := by
        intro h0
        have he0 : e = 0 := by rw [he, h0]
        omega
      have hcom : s.trimmingPos ≤ e := h.committed.resolve_left fun hc => hne hc.1
      have hge : s.trimmingPos ≤ upTo := by
        obtain ⟨k, hk⟩ := h.aligned
        have hq : k ≤ e / l.period := by
          rw [Nat.le_div_iff_mul_le (show 0 < l.period from l.pos)]
          calc k * l.period = s.trimmingPos := by rw [hk, mul_comm]
            _ ≤ e := hcom
        have hmul := Nat.mul_le_mul_left l.period hq
        have hdiv := Nat.div_add_mod e l.period
        omega
      have hgt : upTo > s.trimmingPos := by omega
      rw [if_pos ⟨by omega, hgt⟩]
      have hidle : s.trims = [] ∧ s.trimmedPos = s.trimmingPos := by
        rcases h.busy with hb | hb
        · exact hb
        · omega
      exact { h with
        aligned := hdvd
        trimming := by dsimp only; omega
        busy := .inr ⟨by simp [hidle.1], by dsimp only; omega⟩
        committed := .inr hle
        removed := fun r hr => by
          rcases mem_append.mp hr with hr | hr
          · exact h.removed r hr
          · rw [mem_singleton.mp hr]
            exact ⟨hdvd, _, h.durable.resolve_left hne, hle⟩ }

/-- **A head is committed**, not after one with a greater expire position. -/
theorem finishWriteHead_inv (h : Inv l s) {k : ℕ}
    (hok : ∀ w ∈ s.heads[k]?, s.lastCommitted.expirePos ≤ w.expirePos) (hs : finishWriteHead l k s = some s') :
    Inv l s' := by
  obtain ⟨w, hw, rfl⟩ := map_eq_some_iff.mp hs
  have hmem : w ∈ s.heads := mem_of_getElem? hw
  have hsub : ∀ x ∈ s.heads.eraseIdx k, x ∈ s.heads := fun x hx => mem_of_mem_eraseIdx hx
  refine trim_inv { h with
    committed := .inr ?_
    last := h.heads w hmem
    heads := fun x hx => h.heads x (hsub x hx)
    headsTrimmed := fun x hx => ?_
    removed := fun r hr => ?_
    durable := .inr mem_cons_self }
  · rcases h.committed with ⟨-, hall⟩ | hc
    · exact hall w hmem
    · exact hc.trans (hok w hw)
  · refine h.headsTrimmed x (mem_append.mpr ?_)
    rcases mem_append.mp hx with hx | hx
    · exact .inl (hsub x hx)
    · rcases mem_cons.mp hx with rfl | hx
      · exact .inl hmem
      · exact .inr hx
  · obtain ⟨hd, x, hx, hle⟩ := h.removed r hr
    exact ⟨hd, x, mem_cons_of_mem _ hx, hle⟩

theorem trimFinish_inv (h : Inv l s) {k : ℕ} (hs : trimFinish k s = some s') : Inv l s' := by
  obtain ⟨upTo, hk, rfl⟩ := map_eq_some_iff.mp hs
  have hmem : upTo ∈ s.trims := mem_of_getElem? hk
  rcases h.busy with ⟨hnil, -⟩ | ⟨hone, hlt⟩
  · rw [hnil] at hmem
    simp at hmem
  · rw [hone] at hmem
    have hup : upTo = s.trimmingPos := mem_singleton.mp hmem
    subst hup
    have hk0 : k = 0 := by
      rw [hone] at hk
      by_contra hc
      obtain ⟨j, rfl⟩ := Nat.exists_eq_succ_of_ne_zero hc
      simp at hk
    rw [if_pos ⟨le_rfl, hlt⟩]
    exact { h with
      alignedTrimmed := h.aligned
      busy := .inl ⟨by simp [hone, hk0], rfl⟩ }

theorem opened_inv {h : Header} {e : ℕ} {durable : List Header} {removed : List (ℕ × ℕ)}
    (hle : h.trimmedPos ≤ h.expirePos) (hd : l.period ∣ h.trimmedPos) (he : h.expirePos ≤ e)
    (hdur : ∀ x ∈ durable, x.trimmedPos ≤ x.expirePos ∧ l.period ∣ x.trimmedPos)
    (hrem : ∀ r ∈ removed, l.period ∣ r.2 ∧ ∃ x ∈ durable, r.2 ≤ x.expirePos) :
    Inv l (opened h e durable removed) where
  ok := rfl
  aligned := hd
  alignedTrimmed := hd
  expire := he
  trimming := hle
  busy := .inl ⟨rfl, rfl⟩
  committed := .inl ⟨rfl, by simp [opened]⟩
  last := Nat.zero_le _
  heads := by simp [opened]
  headsTrimmed := by simpa [opened] using hdur
  removed := hrem
  durable := .inl rfl

/-- **One step keeps the invariant.** -/
theorem step_inv {a : Act} (h : Inv l s) (hok : InOrder s a) (hs : step l s a = some s') : Inv l s' := by
  unfold step at hs
  rw [if_neg (by simp [h.ok])] at hs
  cases a with
  | append n =>
    cases hs
    exact { h with expire := h.expire.trans (Nat.le_add_right _ _) }
  | ack p =>
    obtain ⟨-, ⟨⟩⟩ := ite_none_right_eq_some.mp hs
    exact { h with }
  | read p =>
    obtain ⟨-, ⟨⟩⟩ := ite_none_right_eq_some.mp hs
    exact { h with }
  | cut =>
    obtain ⟨-, ⟨⟩⟩ := ite_none_right_eq_some.mp hs
    exact { h with expire := hok }
  | setExpirePos ep =>
    cases hs
    obtain ⟨hge, hle⟩ := hok
    exact { h with
      expire := hle
      trimming := h.trimming.trans hge
      last := h.last.trans hge
      heads := fun x hx => (h.heads x hx).trans hge }
  | writeHead =>
    cases hs
    have hnew : ∀ x ∈ (writeHead s).heads, x ∈ s.heads ∨ x = ⟨s.trimmedPos, s.expirePos, s.readPos, s.ackPos⟩ :=
      fun x hx => (mem_append.mp hx).imp id mem_singleton.mp
    have hle := h.busy.le
    have htr := h.trimming
    exact { h with
      committed := h.committed.imp (fun ⟨h0, hall⟩ => ⟨h0, fun x hx => by
        rcases hnew x hx with hx | rfl
        · exact hall x hx
        · exact h.trimming⟩) id
      heads := fun x hx => by
        rcases hnew x hx with hx | rfl
        · exact h.heads x hx
        · exact le_rfl
      headsTrimmed := fun x hx => by
        rcases mem_append.mp hx with hx | hx
        · rcases hnew x hx with hx | rfl
          · exact h.headsTrimmed x (mem_append_left _ hx)
          · exact ⟨hle.trans htr, h.alignedTrimmed⟩
        · exact h.headsTrimmed x (mem_append_right _ hx) }
  | finishWriteHead k => exact finishWriteHead_inv h hok hs
  | trim =>
    cases hs
    exact trim_inv h
  | trimFinish k => exact trimFinish_inv h hs
  | recover k e =>
    obtain ⟨x, hx, rfl⟩ := map_eq_some_iff.mp hs
    obtain ⟨h1, h2⟩ := h.headsTrimmed x (mem_of_getElem? hx)
    refine opened_inv h1 h2 (hok x hx) (fun y hy => ?_) fun r hr => ?_
    · rcases mem_cons.mp hy with rfl | hy
      · exact ⟨h1, h2⟩
      · exact h.headsTrimmed y (mem_append_right _ hy)
    · obtain ⟨hd, y, hy, hle⟩ := h.removed r hr
      exact ⟨hd, y, mem_cons_of_mem _ hy, hle⟩

theorem init_inv : Inv l (init l) := opened_inv le_rfl (dvd_refl _) le_rfl (by simp) (by simp)

/-- Objects of 8 bytes, two in a set. -/
def small : Layout := ⟨4, 2, 8, by decide, by decide⟩

end Trim
end Osdc
end Ceph
