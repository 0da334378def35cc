/-
# A cached object while a read is outstanding

`bh_read` sends a read for a missing buffer head (`ObjectCacher`) and marks it rx. Until the reply is
there, the head may be split and overwritten, what is overwritten is written back, and
other heads are read, merged and waited for. Of the range that is read, what is still rx lies
in the range, and so do its waiters; all else there has its bytes.
-/
import Ceph.Lib.Run
import Ceph.Osdc.ObjectCacher

namespace Ceph
namespace Osdc
namespace ObjectCacher

open List Option BufferHead
open Wire (Bytes)

/-! ### The code -/

/-- A head is changed in its place. -/
def putHead (bh : BufferHead) (ob : Object) : Object :=
  { ob with data := Keyed.modify BufferHead.start bh.start (fun _ => bh) ob.data }

/-- `waitfor_read[off].push_back(c)`. -/
def addWaiter (off c : ℕ) (ws : List (ℕ × List ℕ)) : List (ℕ × List ℕ) :=
  Keyed.insert Prod.fst (off, ((Keyed.find Prod.fst off ws).map Prod.snd).getD [] ++ [c]) ws

/-- What is done to the heads of an object. -/
inductive Act
  | miss (start length : ℕ)                 -- map_read, map_write: a new head in a gap
  | read (k : ℕ)                            -- bh_read
  | wait (k off c : ℕ)                      -- readx
  | split (k off : ℕ)                       -- map_write
  | write (k : ℕ) (bl : Bytes) (now : ℕ)    -- writex
  | send (k tid : ℕ)                        -- bh_write
  | ack (k : ℕ)                             -- bh_write_ack
  | merge (k : ℕ)                           -- writex, bh_read_finish: try_merge_bh
  | answer (k : ℕ) (bl : Bytes)             -- bh_read_finish, of another read
deriving DecidableEq

/-- An act while the bytes of a range are read. -/
def step (start length : ℕ) (ob : Object) : Act → Option Object
  | .miss s n => if 0 < n ∧ ∀ bh ∈ ob.data, bh.fin ≤ s ∨ s + n ≤ bh.start then bhAdd (BufferHead.new s n) ob else none
  | .read k => (ob.find k).bind fun bh => if bh.state = .missing then some (bhSetState bh .rx ob) else none
  | .wait k off c => (ob.find k).bind fun bh =>
    if bh.state = .rx ∧ bh.start ≤ off ∧ off < bh.fin then
      some (putHead { bh with waitforRead := addWaiter off c bh.waitforRead } ob)
    else none
  | .split k off => (ob.find k).bind fun bh => if bh.start < off ∧ off < bh.fin then split k off ob else none
  | .write k bl now => (ob.find k).bind fun bh =>
    if bl.length = bh.length then
      let bh := { bh with bl := bl, lastWrite := now }
      some (bhSetState bh .dirty (putHead bh ob))
    else none
  | .send k tid => (ob.find k).bind fun bh =>
    if bh.state = .dirty then
      let bh := { bh with lastWriteTid := tid }
      some (bhSetState bh .tx (putHead bh ob))
    else none
  | .ack k => (ob.find k).bind fun bh => if bh.state = .tx then some (bhSetState bh .clean ob) else none
  | .merge k => (ob.find k).bind fun bh => if bh.state = .clean ∨ bh.state = .dirty then tryMergeBh k ob else none
  | .answer k bl => (ob.find k).bind fun bh =>
    if bh.state = .rx ∧ bl.length = bh.length ∧ (bh.fin ≤ start ∨ start + length ≤ bh.start) then
      let bh := { bh with bl := bl, waitforRead := [] }
      some (bhSetState bh .clean (putHead bh ob))
    else none

/-! ### What holds until the reply -/

/-- The head of a read, which is missing before `bh_read`. -/
structure Begins (start length : ℕ) (ob : Object) (bh : BufferHead) : Prop where
  tidy : Tidy ob.data
  full : ∀ b ∈ ob.data, b.state ≠ .missing → b.state ≠ .rx → b.bl.length = b.length
  find : ob.find start = some bh
  missing : bh.state = .missing
  length_eq : bh.length = length
  none_waits : bh.waitforRead = []

/-- What is known of a head. -/
structure HeadOk (start length : ℕ) (bh : BufferHead) : Prop where
  full : bh.state ≠ .missing → bh.state ≠ .rx → bh.bl.length = bh.length
  here : bh.start < start + length → start < bh.fin → bh.state ≠ .missing
  inside : bh.state = .rx → bh.start < start + length → start < bh.fin → start ≤ bh.start ∧ bh.fin ≤ start + length
  waiters : bh.state = .rx → bh.start < start + length → start < bh.fin →
    ∀ w ∈ bh.waitforRead, start ≤ w.1 ∧ w.1 < start + length

/-- **What is known of all heads** while the read is outstanding. -/
structure Pending (start length : ℕ) (data : List BufferHead) : Prop where
  pos : 0 < length
  tidy : Tidy data
  ok : ∀ bh ∈ data, HeadOk start length bh
  covered : ∀ x, start ≤ x → x < start + length → ∃ bh ∈ data, bh.start ≤ x ∧ x < bh.fin

section pending

variable {pre post data data' : List BufferHead} {bh bh' : BufferHead} {stat : State → ℤ}
  {ob ob' : Object} {start length x : ℕ}
  {s : State}

theorem peek_isSome : (peek data x).isSome ↔ ∃ bh ∈ data, bh.start ≤ x ∧ x < bh.fin := by
  rw [peek, findSome?_isSome_iff]
  refine exists_congr fun bh => and_congr_right fun _ => ?_
  unfold BufferHead.peek
  split_ifs with h
  · exact iff_of_true rfl h
  · exact iff_of_false (fun hcon => by cases hcon) h

theorem putHead_cut (hs : Keyed.Sorted BufferHead.start (pre ++ bh :: post)) (hstart : bh'.start = bh.start) :
    putHead bh' ⟨pre ++ bh :: post, stat⟩ = ⟨pre ++ bh' :: post, stat⟩ := by
  rw [putHead, hstart, Keyed.modify_cut hs]

theorem bhSetState_cut (hs : Keyed.Sorted BufferHead.start (pre ++ bh :: post)) :
    bhSetState bh s ⟨pre ++ bh :: post, stat⟩ =
      ⟨pre ++ { bh with state := s } :: post, bhStatAdd { bh with state := s } (bhStatSub bh stat)⟩ := by
  rw [bhSetState, Keyed.modify_cut hs]

theorem tidy_replace (ht : Tidy (pre ++ bh :: post)) (hstart : bh'.start = bh.start) (hlen : bh'.length = bh.length)
    (hbytes : bh'.bl = [] ∨ bh'.bl.length = bh'.length) : Tidy (pre ++ bh' :: post) := by
  obtain ⟨hpre, hpost, ⟨hpos, -⟩, hbefore, hafter, hcross⟩ := tidy_cut.mp ht
  have hfin : bh'.fin = bh.fin := by rw [fin, hstart, hlen, fin]
  refine tidy_cut.mpr ⟨hpre, hpost, ⟨hlen ▸ hpos, hbytes⟩, hstart ▸ hbefore, ?_, hcross⟩
  rw [hfin]
  exact hafter

theorem set_put_cut (ht : Tidy (pre ++ bh :: post)) (hstart : bh'.start = bh.start) :
    bhSetState bh' s (putHead bh' ⟨pre ++ bh :: post, stat⟩) =
      ⟨pre ++ { bh' with state := s } :: post, bhStatAdd { bh' with state := s } (bhStatSub bh' stat)⟩ := by
  have hs := ht.sorted
  obtain ⟨hpre, hpost, hbefore, hafter, hcross⟩ := Keyed.sorted_cut.mp hs
  rw [putHead_cut hs hstart]
  refine bhSetState_cut (Keyed.sorted_cut.mpr ⟨hpre, hpost, ?_, ?_, hcross⟩)
  · rwa [hstart]
  · rwa [hstart]

/-- **A head is changed**, its extent stays. -/
theorem Pending.replace (h : Pending start length (pre ++ bh :: post)) (hstart : bh'.start = bh.start)
    (hlen : bh'.length = bh.length)
    (hbytes : bh'.bl = [] ∨ bh'.bl.length = bh'.length) (hok : HeadOk start length bh') :
    Pending start length (pre ++ bh' :: post) := by
  have hfin : bh'.fin = bh.fin := by rw [fin, hstart, hlen, fin]
  refine ⟨h.pos, tidy_replace h.tidy hstart hlen hbytes, ?_, fun x hlow hhigh => ?_⟩
  · exact Keyed.forall_mem_cut.mpr ⟨hok, (Keyed.forall_mem_cut.mp h.ok).2⟩
  · obtain ⟨b, hb, hin⟩ := h.covered x hlow hhigh
    rcases mem_append.mp hb with hb | hb
    · exact ⟨b, mem_append_left _ hb, hin⟩
    · rcases mem_cons.mp hb with rfl | hb
      · exact ⟨bh', by simp, by rwa [hstart, hfin]⟩
      · exact ⟨b, mem_append_right _ (mem_cons_of_mem _ hb), hin⟩

theorem Pending.covered_same (h : Pending start length data) (hsame : SameContent data data') (hlow : start ≤ x)
    (hhigh : x < start + length) : ∃ bh ∈ data', bh.start ≤ x ∧ x < bh.fin := by
  apply peek_isSome.mp
  rw [hsame.peek_eq]
  exact peek_isSome.mpr (h.covered x hlow hhigh)

theorem HeadOk.of_full (hfull : bh.bl.length = bh.length) (hmissing : bh.state ≠ .missing) (hrx : bh.state ≠ .rx) :
    HeadOk start length bh :=
  ⟨fun _ _ => hfull, fun _ _ => hmissing, fun h => absurd h hrx, fun h => absurd h hrx⟩

theorem HeadOk.full_at (h : HeadOk start length bh) (hs : bh.state = s) (hmissing : s ≠ .missing) (hrx : s ≠ .rx) :
    bh.bl.length = bh.length := by
  subst hs
  exact h.full hmissing hrx

theorem HeadOk.halves {off : ℕ} (h : HeadOk start length bh) (hoff : bh.start < off ∧ off < bh.fin) :
    HeadOk start length (bh.leftOf off) ∧ HeadOk start length (bh.rightOf off) := by
  have hl := fin_leftOf hoff
  have hr := fin_rightOf hoff
  have hfin : bh.fin = bh.start + bh.length := rfl
  constructor
  · refine ⟨fun hm hrx => ?_, fun hlow hhigh => ?_, fun hrx hlow hhigh => ?_, fun hrx hlow hhigh w hw => ?_⟩
    · have := h.full hm hrx
      change (bh.bl.take (off - bh.start)).length = off - bh.start
      rw [length_take]
      omega
    · exact h.here hlow (by omega)
    · obtain ⟨hge, hle⟩ := h.inside hrx hlow (by omega)
      exact ⟨hge, by omega⟩
    · exact h.waiters hrx hlow (by omega) w (mem_keptWaiters hw)
  · refine ⟨fun hm hrx => ?_, fun hlow hhigh => ?_, fun hrx hlow hhigh => ?_, fun hrx hlow hhigh w hw => ?_⟩
    · have := h.full hm hrx
      change ((bh.bl.drop (off - bh.start)).take (bh.length - (off - bh.start))).length = bh.length - (off - bh.start)
      rw [length_take, length_drop]
      omega
    · exact h.here (hoff.1.trans hlow) (by omega)
    · obtain ⟨hge, hle⟩ := h.inside hrx (hoff.1.trans hlow) (by omega)
      exact ⟨hge.trans hoff.1.le, by omega⟩
    · exact h.waiters hrx (hoff.1.trans hlow) (by omega) w (mem_movedWaiters hw)

theorem mem_addWaiter {off c : ℕ} {ws : List (ℕ × List ℕ)} {w : ℕ × List ℕ} (h : w ∈ addWaiter off c ws) :
    w.1 = off ∨ w ∈ ws := by
  rcases mem_append.mp h with h | h
  · exact .inr (mem_filter.mp h).1
  · rcases mem_cons.mp h with rfl | h
    · exact .inl rfl
    · exact .inr (mem_filter.mp h).1

theorem find_eq {k : ℕ} (h : ob.find k = some bh) : ∃ pre post, ob = ⟨pre ++ bh :: post, ob.stat⟩ ∧ bh.start = k := by
  obtain ⟨pre, post, hdata, hk⟩ := Keyed.find_isSome h
  exact ⟨pre, post, by rw [← hdata], hk⟩

theorem find_bind {k : ℕ} {f : BufferHead → Option Object} (h : (ob.find k).bind f = some ob') :
    ∃ bh pre post, ob = ⟨pre ++ bh :: post, ob.stat⟩ ∧ bh.start = k ∧ f bh = some ob' := by
  obtain ⟨bh, hfind, hf⟩ := bind_eq_some_iff.mp h
  obtain ⟨pre, post, hob, hk⟩ := find_eq hfind
  exact ⟨bh, pre, post, hob, hk, hf⟩

/-- A new head in a gap is not in the range. -/
theorem pending_miss {n : ℕ} (h : Pending start length ob.data) (hn : 0 < n)
    (hgap : ∀ bh ∈ ob.data, bh.fin ≤ x ∨ x + n ≤ bh.start)
    (hadd : bhAdd (new x n) ob = some ob') : Pending start length ob'.data := by
  obtain ⟨data, stat⟩ := ob
  obtain ⟨pre, post, hdata, hpre, hpost⟩ := exists_cut h.tidy x
  obtain rfl : data = pre ++ post := hdata
  have hafter : ∀ b ∈ post, x + n ≤ b.start := fun b hb =>
    (hgap b (mem_append_right _ hb)).resolve_left (hpost b hb).not_ge
  have hlow := starts_before h.tidy hpre
  have hhigh : ∀ b ∈ post, x < b.start := fun b hb => (Nat.lt_add_of_pos_right hn).trans_le (hafter b hb)
  rw [bhAdd_cut hlow hhigh] at hadd
  cases hadd
  obtain ⟨htpre, htpost, hcross⟩ := tidy_append.mp h.tidy
  refine ⟨h.pos, tidy_cut.mpr ⟨htpre, htpost, ⟨hn, .inl rfl⟩, hpre, hafter, hcross⟩, ?_, fun y hy hy' => ?_⟩
  · refine Keyed.forall_mem_cut.mpr ⟨⟨fun hm => absurd rfl hm, fun hstart hfin => ?_, nofun, nofun⟩, h.ok⟩
    -- a byte in both would be in another head
    change start < x + n at hfin
    obtain ⟨b, hb, hin⟩ := h.covered (max start x) (le_max_left _ _) (max_lt (Nat.lt_add_of_pos_right h.pos) hstart)
    have := hgap b hb
    omega
  · obtain ⟨b, hb, hin⟩ := h.covered y hy hy'
    refine ⟨b, ?_, hin⟩
    rcases mem_append.mp hb with hb | hb
    · exact mem_append_left _ hb
    · exact mem_append_right _ (mem_cons_of_mem _ hb)

/-- **What one act preserves.** -/
theorem pending_step {a : Act} (h : Pending start length ob.data) (hstep : step start length ob a = some ob') :
    Pending start length ob'.data := by
  cases a with
  | miss s n =>
    rw [step] at hstep
    split_ifs at hstep with hgap
    exact pending_miss h hgap.1 hgap.2 hstep
  | read k =>
    obtain ⟨bh, pre, post, hob, rfl, hif⟩ := find_bind hstep
    split_ifs at hif with hmissing
    cases hif
    rw [hob] at h ⊢
    rw [bhSetState_cut h.tidy.sorted]
    have hok := h.ok bh (by simp)
    have hout : bh.start < start + length → start < bh.fin → False := fun hlow hhigh => hok.here hlow hhigh hmissing
    refine h.replace rfl rfl (h.tidy.bytes bh (by simp)) ⟨fun _ hrx => absurd rfl hrx, nofun, fun _ hlow hhigh => ?_,
      fun _ hlow hhigh => ?_⟩
    · exact (hout hlow hhigh).elim
    · exact (hout hlow hhigh).elim
  | wait k off c =>
    obtain ⟨bh, pre, post, hob, rfl, hif⟩ := find_bind hstep
    split_ifs at hif with hin
    cases hif
    rw [hob] at h ⊢
    rw [putHead_cut h.tidy.sorted (by rfl)]
    have hok := h.ok bh (by simp)
    refine h.replace rfl rfl (h.tidy.bytes bh (by simp)) ⟨hok.full, hok.here, hok.inside, fun hrx hlow hhigh w hw => ?_⟩
    rcases mem_addWaiter hw with heq | hmem
    · obtain ⟨hge, hle⟩ := hok.inside hrx hlow hhigh
      omega
    · exact hok.waiters hrx hlow hhigh w hmem
  | split k off =>
    obtain ⟨bh, pre, post, hob, rfl, hif⟩ := find_bind hstep
    split_ifs at hif with hoff
    rw [hob] at h hif
    rw [split_cut h.tidy hoff] at hif
    cases hif
    obtain ⟨hl, hr⟩ := (h.ok bh (by simp)).halves hoff
    have hsame := sameContent_split h.tidy hoff
    refine ⟨h.pos, hsame.tidy, ?_, fun x => h.covered_same hsame⟩
    have hright := Keyed.forall_mem_cut.mpr ⟨hr, (Keyed.forall_mem_cut.mp h.ok).2⟩
    exact Keyed.forall_mem_cut.mpr ⟨hl, hright⟩
  | write k bl now =>
    obtain ⟨bh, pre, post, hob, rfl, hif⟩ := find_bind hstep
    split_ifs at hif with hlen
    cases hif
    rw [hob] at h ⊢
    rw [set_put_cut h.tidy (by rfl)]
    exact h.replace rfl rfl (.inr hlen) (.of_full hlen nofun nofun)
  | send k tid =>
    obtain ⟨bh, pre, post, hob, rfl, hif⟩ := find_bind hstep
    split_ifs at hif with hdirty
    cases hif
    rw [hob] at h ⊢
    rw [set_put_cut h.tidy (by rfl)]
    have hfull := (h.ok bh (by simp)).full_at hdirty nofun nofun
    exact h.replace rfl rfl (.inr hfull) (.of_full hfull nofun nofun)
  | ack k =>
    obtain ⟨bh, pre, post, hob, rfl, hif⟩ := find_bind hstep
    split_ifs at hif with htx
    cases hif
    rw [hob] at h ⊢
    rw [bhSetState_cut h.tidy.sorted]
    have hfull := (h.ok bh (by simp)).full_at htx nofun nofun
    exact h.replace rfl rfl (.inr hfull) (.of_full hfull nofun nofun)
  | merge k =>
    obtain ⟨bh, pre, post, hob, rfl, hif⟩ := find_bind hstep
    split_ifs at hif with hstate
    rw [hob] at h hif
    have hmissing : bh.state ≠ .missing := by rcases hstate with hs | hs <;> rw [hs] <;> nofun
    have hrx : bh.state ≠ .rx := by rcases hstate with hs | hs <;> rw [hs] <;> nofun
    obtain ⟨data', htry, hmerged⟩ := tryMergeBh_merged ob.stat h.tidy
      fun b hb heq => (h.ok b hb).full (heq ▸ hmissing) (heq ▸ hrx)
    rw [htry] at hif
    cases hif
    refine ⟨h.pos, hmerged.same.tidy, fun b hb => ?_, fun x => h.covered_same hmerged.same⟩
    rcases hmerged.origin b hb with hold | ⟨heq, hfull⟩
    · exact h.ok b hold
    · exact .of_full hfull (heq ▸ hmissing) (heq ▸ hrx)
  | answer k bl =>
    obtain ⟨bh, pre, post, hob, rfl, hif⟩ := find_bind hstep
    split_ifs at hif with hcond
    cases hif
    rw [hob] at h ⊢
    rw [set_put_cut h.tidy (by rfl)]
    exact h.replace rfl rfl (.inr hcond.2.1) (.of_full hcond.2.1 nofun nofun)

/-- When the read is sent. -/
theorem pending_begins (h : Begins start length ob bh) : Pending start length (bhSetState bh .rx ob).data := by
  obtain ⟨pre, post, hob, hstart⟩ := find_eq h.find
  have htidy := h.tidy
  have hfull := h.full
  have hlength := h.length_eq
  rw [hob] at htidy hfull ⊢
  rw [bhSetState_cut htidy.sorted]
  have hfin : bh.fin = bh.start + bh.length := rfl
  obtain ⟨-, -, -, hbefore, hafter, -⟩ := tidy_cut.mp htidy
  refine ⟨hlength ▸ htidy.pos bh (by simp), tidy_replace htidy rfl rfl (htidy.bytes bh (by simp)), ?_,
    fun x hlow hhigh => ?_⟩
  · refine Keyed.forall_mem_cut.mpr ⟨⟨fun _ hrx => absurd rfl hrx, nofun, fun _ _ _ => ⟨hstart.ge, ?_⟩,
      fun _ _ _ w hw => ?_⟩, fun b hb => ?_⟩
    · change bh.start + bh.length ≤ start + length
      omega
    · change w ∈ bh.waitforRead at hw
      rw [h.none_waits] at hw
      cases hw
    · -- the other heads are not in the range
      have hout : ¬ (b.start < start + length ∧ start < b.fin) := by
        rcases mem_append.mp hb with hb | hb
        · have := hbefore b hb
          omega
        · have := hafter b hb
          omega
      exact ⟨(Keyed.forall_mem_cut.mp hfull).2 b hb, fun h1 h2 => absurd ⟨h1, h2⟩ hout,
        fun _ h1 h2 => absurd ⟨h1, h2⟩ hout, fun _ h1 h2 => absurd ⟨h1, h2⟩ hout⟩
  · refine ⟨_, mem_append_right _ mem_cons_self, ?_⟩
    change bh.start ≤ x ∧ x < bh.start + bh.length
    omega

/-- **While the read is outstanding.** -/
theorem pending_reach (hb : Begins start length ob bh)
    (h : Run.Reach (step start length) Run.anyAct (bhSetState bh .rx ob) ob') :
    Pending start length ob'.data :=
  h.inv (fun ob => Pending start length ob.data) (pending_begins hb) fun _ _ _ hp _ hstep => pending_step hp hstep

end pending

end ObjectCacher
end Osdc
end Ceph
