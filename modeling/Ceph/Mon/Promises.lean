/-
# Recovery gathers promises

A leader counts LASTs in `num_last` without noting whose they are. As long as
it handles no answer to a collect it has since started over, each member of
its quorum has at most one COLLECT or LAST of the current number in flight or
counted; so when `num_last` reaches the size of the quorum, every member has
promised. An answer to the earlier collect breaks this.
-/
import Ceph.Mon.Numbers

namespace Ceph
namespace Paxos

open List Cluster Out

variable {n lease : ℕ} {s s' : Cluster} {i : ℕ} {m : Mon}

/-- A leader that collects, or has collected: what `num_last` counts. -/
structure Leading (s : Cluster) (i : ℕ) (m : Mon) : Prop where
  own : Own s i m.acceptedPn
  picked : m.acceptedPn = m.lastPn
  me : i ∈ m.quorum
  tally : ∀ a, a ≠ i → inFlight s .collect .last m.acceptedPn i a + m.lastsFrom.count a ≤
    if a ∈ m.quorum then 1 else 0
  counted : m.numLast = m.lastsFrom.length + 1
  others : i ∉ m.lastsFrom
  promised : ∀ a ∈ m.lastsFrom, Put s a m.acceptedPn
  done : m.state ≠ .recovering → m.numLast = m.quorum.card

/-- What holds of each running monitor. -/
structure Local (s : Cluster) (i : ℕ) (m : Mon) : Prop where
  recalls : Recalls s i m
  rank : m.role = .leader → i < 100
  leading : m.role = .leader → m.quorum.card ≠ 1 → Leading s i m

/-- The invariant. -/
structure Sound (s : Cluster) : Prop where
  numbers : Numbers s
  local_up : ∀ i, (s.node i).up = true → Local s i (s.node i).mon

theorem Leading.nodup (h : Leading s i m) : m.lastsFrom.Nodup := by
  refine nodup_iff_count_le_one.mpr fun a => ?_
  by_cases ha : a = i
  · subst ha
    rw [count_eq_zero_of_not_mem h.others]
    exact Nat.zero_le 1
  · have := h.tally a ha
    split_ifs at this <;> omega

variable {a : ℕ} {c : MMonPaxos} {es : List Effect}

theorem Leading.mem_quorum (h : Leading s i m) (ha : a ∈ m.lastsFrom) : a ∈ m.quorum := by
  by_contra hq
  have hne : a ≠ i := fun he => h.others (he ▸ ha)
  have ht := h.tally a hne
  have hc := count_pos_iff.mpr ha
  rw [if_neg hq] at ht
  omega

/-- **All of them.** With `num_last` at the size of the quorum, each member but
the leader is counted. -/
theorem Leading.mem_lastsFrom (h : Leading s i m) (hall : m.numLast = m.quorum.card)
    (ha : a ∈ m.quorum) (hne : a ≠ i) : a ∈ m.lastsFrom := by
  have hsub : m.lastsFrom.toFinset ⊆ m.quorum.erase i := by
    intro x hx
    have hx := List.mem_toFinset.mp hx
    exact Finset.mem_erase.mpr ⟨fun he => h.others (he ▸ hx), h.mem_quorum hx⟩
  have hcard : (m.quorum.erase i).card ≤ m.lastsFrom.toFinset.card := by
    rw [Finset.card_erase_of_mem h.me, toFinset_card_of_nodup h.nodup, ← hall, h.counted]
    omega
  have heq := Finset.eq_of_subset_of_card_le hsub hcard
  have hmem : a ∈ m.quorum.erase i := Finset.mem_erase.mpr ⟨hne, ha⟩
  rw [← heq] at hmem
  exact List.mem_toFinset.mp hmem

theorem Leading.no_last (h : Leading s i m) (hall : m.numLast = m.quorum.card)
    (hne : a ≠ i) (hc : c ∈ s.net a i) (hop : c.op = .last) : c.pn ≠ m.acceptedPn := by
  intro hpn
  have hpos : 0 < (s.net a i).countP (isOp .last m.acceptedPn) :=
    countP_pos_iff.mpr ⟨c, hc, by simp [isOp, hop, hpn]⟩
  have ht := h.tally a hne
  unfold inFlight at ht
  by_cases hq : a ∈ m.quorum
  · have hcnt := count_pos_iff.mpr (h.mem_lastsFrom hall hq hne)
    rw [if_pos hq] at ht
    omega
  · rw [if_neg hq] at ht
    omega

theorem Leading.recovering (h : Leading s i m) (hne : a ≠ i)
    (hc : c ∈ s.net a i) (hop : c.op = .last) (hpn : c.pn = m.acceptedPn) : m.state = .recovering := by
  by_contra hs
  exact h.no_last (h.done hs) hne hc hop hpn

/-! ### Other monitors' steps -/

/-- What another monitor's step does to the evidence about `i`. -/
theorem Leading.of_other (h : Leading s i m)
    (hlast : (s.node i).store.lastPn ≤ (s'.node i).store.lastPn)
    (hput : ∀ a p, Put s a p → Put s' a p)
    (hfl : ∀ a, inFlight s' .collect .last m.acceptedPn i a ≤ inFlight s .collect .last m.acceptedPn i a) :
    Leading s' i m := by
  refine ⟨h.own.mono hlast, h.picked, h.me, ?_, h.counted, h.others, ?_, h.done⟩
  · intro a ha
    have h1 := h.tally a ha
    have h2 := hfl a
    omega
  · exact fun a ha => hput a _ (h.promised a ha)

theorem Recalls.of_other (h : Recalls s i m)
    (hlast : (s'.node i).store.lastPn = (s.node i).store.lastPn)
    (hput : ∀ a p, Put s a p → Put s' a p) : Recalls s' i m := by
  refine ⟨h.lastPn.trans hlast.symm, ?_⟩
  rcases h.accepted with h0 | ho | hp
  · exact .inl h0
  · exact .inr (.inl (ho.mono hlast.ge))
  · exact .inr (.inr (hput i _ hp))

theorem Local.of_other (h : Local s i m)
    (hlast : (s'.node i).store.lastPn = (s.node i).store.lastPn)
    (hput : ∀ a p, Put s a p → Put s' a p)
    (hfl : ∀ p, p % 100 = i → ∀ a, inFlight s' .collect .last p i a ≤ inFlight s .collect .last p i a) :
    Local s' i m :=
  ⟨h.recalls.of_other hlast hput, h.rank,
    fun hl h1 => (h.leading hl h1).of_other hlast.ge hput (hfl _ (h.leading hl h1).own.1)⟩

/-! ### The monitor's own steps -/

/-- Effects that start no collect. -/
def Effect.NoCollect : Effect → Prop
  | .putLastPn _ => False
  | .send _ m => m.op ≠ .collect
  | _ => True

theorem Effect.Plain.noCollect {e : Effect} (h : e.Plain) : e.NoCollect := by
  cases e with
  | send j m => rcases h with h | h | h <;> simp [Effect.NoCollect, h]
  | putLastPn p => exact h.elim
  | _ => trivial

theorem noCollect_bcast {ds : List ℕ} {M : MMonPaxos} (h : M.op ≠ .collect) :
    ∀ e ∈ ds.map fun d => Effect.send d M, e.NoCollect := by
  intro e he
  obtain ⟨d, _, rfl⟩ := List.mem_map.mp he
  exact h

theorem noCollect_performAll (h : ∀ e ∈ es, e.NoCollect) :
    ((s.performAll i es).node i).store.lastPn = (s.node i).store.lastPn := by
  rw [performAll_store]
  generalize (s.node i).store = st
  induction es generalizing st with
  | nil => rfl
  | cons e es ih =>
    have hes := ih (fun e' he' => h e' (mem_cons_of_mem e he')) (st.perform e)
    have he : (st.perform e).lastPn = st.lastPn := by
      have hp := h e mem_cons_self
      cases e with
      | putLastPn p => exact hp.elim
      | _ => rfl
    exact hes.trans he

theorem Put.performAll {a p : ℕ} (h : Put s a p) (es : List Effect) : Put (s.performAll i es) a p :=
  (mem_performAll_log i s es).mpr (.inl h)

/-- The requests in flight after `i`'s own effects. -/
theorem inFlight_own (es : List Effect) (q r : Op) (p : ℕ) (ha : a ≠ i) :
    inFlight (s.performAll i es) q r p i a = inFlight s q r p i a + (sendsTo a es).countP (isOp q p) := by
  unfold inFlight
  rw [performAll_net, performAll_net, if_pos rfl, if_neg ha, countP_append]
  omega

theorem Leading.performAll (h : Leading s i m) (hes : ∀ e ∈ es, e.NoCollect) {m' : Mon}
    (hlast : m'.lastPn = m.lastPn) (hacc : m'.acceptedPn = m.acceptedPn) (hq : m'.quorum = m.quorum)
    (hnum : m'.numLast = m.numLast) (hfrom : m'.lastsFrom = m.lastsFrom)
    (hdone : m'.state ≠ .recovering → m'.numLast = m'.quorum.card) :
    Leading (s.performAll i es) i m' := by
  refine ⟨?_, ?_, hq ▸ h.me, ?_, ?_, hfrom ▸ h.others, ?_, hdone⟩
  · rw [hacc]
    exact h.own.mono (noCollect_performAll hes).ge
  · rw [hacc, hlast]
    exact h.picked
  · intro a ha
    have hzero : (sendsTo a es).countP (isOp .collect m.acceptedPn) = 0 := by
      rw [countP_eq_zero]
      intro M hM
      have hnc : M.op ≠ .collect := hes _ (mem_sendsTo.mp hM)
      simp [isOp, hnc]
    rw [hacc, hq, hfrom, inFlight_own es _ _ _ ha, hzero]
    exact h.tally a ha
  · rw [hnum, hfrom]
    exact h.counted
  · intro a ha
    rw [hacc]
    exact (h.promised a (hfrom ▸ ha)).performAll es

theorem Recalls.performAll (h : Recalls s i m) (hes : ∀ e ∈ es, e.NoCollect) {m' : Mon}
    (hlast : m'.lastPn = m.lastPn)
    (hacc : m'.acceptedPn = m.acceptedPn ∨ Put (s.performAll i es) i m'.acceptedPn) :
    Recalls (s.performAll i es) i m' := by
  have hlp := noCollect_performAll (s := s) (i := i) hes
  refine ⟨(hlast.trans h.lastPn).trans hlp.symm, ?_⟩
  rcases hacc with hacc | hput
  · rw [hacc]
    rcases h.accepted with h0 | ho | hp
    · exact .inl h0
    · exact .inr (.inl (ho.mono hlp.ge))
    · exact .inr (.inr (hp.performAll es))
  · exact .inr (.inr hput)

theorem Local.performAll (h : Local s i m) (hes : ∀ e ∈ es, e.NoCollect) {m' : Mon}
    (hlast : m'.lastPn = m.lastPn)
    (hacc : m'.acceptedPn = m.acceptedPn ∨ Put (s.performAll i es) i m'.acceptedPn)
    (hlead : m'.role = .leader → m.role = .leader ∧ m'.quorum = m.quorum ∧
      (m.quorum.card ≠ 1 → m'.acceptedPn = m.acceptedPn ∧ m'.numLast = m.numLast ∧
        m'.lastsFrom = m.lastsFrom ∧ (m'.state ≠ .recovering → m.state ≠ .recovering))) :
    Local (s.performAll i es) i m' := by
  refine ⟨h.recalls.performAll hes hlast hacc, fun hl => h.rank (hlead hl).1, fun hl h1 => ?_⟩
  obtain ⟨hl', hq, hrest⟩ := hlead hl
  have hL := h.leading hl' (hq ▸ h1)
  obtain ⟨hacc', hnum, hfrom, hst⟩ := hrest (hq ▸ h1)
  refine hL.performAll hes hlast hacc' hq hnum hfrom fun hs => ?_
  rw [hnum, hq]
  exact hL.done (hst hs)

theorem Local.received (h : Local s i m) (src : ℕ) : Local (s.received src i) i m := by
  refine h.of_other rfl (fun _ _ hp => hp) fun p _ a => ?_
  exact inFlight_mono (received_sublist src i a) (received_sublist src a i)

theorem inFlight_fresh (hN : Numbers s) {p a : ℕ} {q r : Op} (hqr : Paired q r)
    (hmod : p % 100 = i) (hlt : (s.node i).store.lastPn < p) : inFlight s q r p i a = 0 := by
  have hnot : ¬ Own s i p := fun ho => absurd ho.2.1 (not_le.mpr hlt)
  unfold inFlight
  rw [Nat.add_eq_zero_iff, countP_eq_zero, countP_eq_zero]
  constructor
  · intro m hm hop
    simp only [isOp, decide_eq_true_eq] at hop
    obtain ⟨hop, rfl⟩ := hop
    rcases hqr with ⟨rfl, _⟩ | ⟨rfl, _⟩
    · exact hnot (hN.collect_own hm hop).2
    · exact hnot (hN.begin_own hm hop).2
  · intro m hm hop
    simp only [isOp, decide_eq_true_eq] at hop
    obtain ⟨hop, rfl⟩ := hop
    rcases hqr with ⟨_, rfl⟩ | ⟨_, rfl⟩
    · have ho := (hN.last_own hm hop).2.1
      rw [hmod] at ho
      exact hnot ho
    · exact hnot (hN.accept_own hm hop).2

/-- **A new collect.** -/
theorem local_collect (hN : Numbers s) {st : Store} (oldpn : ℕ) (hl : m.role = .leader) (hi : i < 100)
    (hlast : m.lastPn = (s.node i).store.lastPn) (hme : m.quorum.card ≠ 1 → i ∈ m.quorum) :
    Local (s.performAll i (collect n i st oldpn m).effs) i (collect n i st oldpn m).st := by
  obtain ⟨m', hc, h⟩ := collect_spec n i st m oldpn hl
  set p := pickedPn i oldpn m with hp
  have hmod : p % 100 = i := pickedPn_mod i hi oldpn m
  have hlt : (s.node i).store.lastPn < p := hlast ▸ (lt_pickedPn i oldpn m).1
  rw [h]
  set t := s.performAll i (emit m' (.putLastPn p :: (others n i m.quorum).map
    fun d => .send d (collectMsg m p))).effs with ht
  have hstore : (t.node i).store.lastPn = p := by
    rw [ht, performAll_store]
    exact congrArg Store.lastPn (Store.performAll_bcast _ _ _)
  have hown : Own t i m'.acceptedPn := by
    rw [hc.acceptedPn]
    exact ⟨hmod, hstore.ge, hundred_le_pickedPn i oldpn m⟩
  refine ⟨⟨hc.lastPn.trans hstore.symm, .inr (.inl hown)⟩, fun _ => hi, fun _ h1 => ?_⟩
  refine ⟨hown, hc.acceptedPn.trans hc.lastPn.symm, ?_, ?_, ?_, ?_, ?_, ?_⟩
  · rw [emit_st, hc.quorum] at h1 ⊢
    exact hme h1
  · intro a ha
    rw [emit_st, hc.acceptedPn, hc.lastsFrom, hc.quorum, ht, inFlight_own _ _ _ _ ha,
      inFlight_fresh hN (.inl ⟨rfl, rfl⟩) hmod hlt, emit_effs, sendsTo_putLastPn,
      sendsTo_bcast (nodup_others n i _)]
    by_cases hq : a ∈ m.quorum
    · rw [if_pos hq]
      split_ifs <;> simp [countP_cons]
      split_ifs <;> omega
    · have : a ∉ others n i m.quorum := fun hmem => hq (mem_others.mp hmem).2.1
      rw [if_neg hq, if_neg this]
      simp
  · rw [emit_st, hc.numLast, hc.lastsFrom]
    rfl
  · rw [emit_st, hc.lastsFrom]
    exact not_mem_nil
  · rw [emit_st, hc.lastsFrom]
    exact nofun
  · rw [emit_st]
    exact fun hs => absurd hc.state hs

theorem noCollect_begin (v : Blob) (m : Mon) : ∀ e ∈ (begin n i v m).effs, e.NoCollect := by
  rcases begin_cases n i m v with ⟨m', h⟩ | ⟨_, _, m', es, h, _, _, _, _, _, _, M, rfl, hM⟩ |
    ⟨_, _, _, _, _, h⟩
  · rw [h]; exact nofun
  · rw [h]
    intro e he
    simp only [emit_effs, mem_cons, mem_append] at he
    rcases he with rfl | rfl | he | he
    · trivial
    · trivial
    · exact noCollect_bcast (by simp [hM]) e he
    · exact (plain_wakeAll e he).noCollect
  · rw [h]
    intro e he
    rcases mem_cons.mp he with rfl | he
    · trivial
    · exact noCollect_bcast (by simp [beginMsg]) e he

/-- `begin` keeps the count. -/
theorem local_begin {v : Blob} (hL : Local s i m) (hrec : m.quorum.card ≠ 1 → m.numLast = m.quorum.card)
    (hok : (begin n i v m).ok = true) :
    Local (s.performAll i (begin n i v m).effs) i (begin n i v m).st := by
  have hnc := noCollect_begin (n := n) (i := i) v m
  rcases begin_cases n i m v with ⟨m', h⟩ | ⟨h1, hl, m', es, h, hr, hq, hlp, hap, _⟩ |
    ⟨h1, hl, _, _, _, h⟩
  · rw [h] at hok
    cases hok
  · rw [h] at hnc ⊢
    refine ⟨hL.recalls.performAll hnc hlp (.inl hap), fun _ => hL.rank hl, fun _ hne => ?_⟩
    rw [emit_st, hq] at hne
    exact absurd h1 hne
  · rw [h] at hnc ⊢
    refine ⟨hL.recalls.performAll hnc rfl (.inl rfl), fun _ => hL.rank hl, fun _ _ => ?_⟩
    exact (hL.leading hl h1).performAll hnc rfl rfl rfl rfl rfl fun _ => hrec h1

/-- **A LAST of the current number is counted.** -/
theorem leading_countLast (hN : Numbers s) (hL : Leading s i m) {src : ℕ}
    {ms : List MMonPaxos} (hnet : s.net src i = c :: ms) (hop : c.op = .last) (hpn : c.pn = m.acceptedPn) :
    Leading (s.received src i) i (countLast src c (withLearned c m)) := by
  have hcm : c ∈ s.net src i := hnet ▸ mem_cons_self
  obtain ⟨hne, _, hput⟩ := hN.last_own hcm hop
  obtain ⟨hq, ha, hlp, hr, _, _, hst, hfrom, hnum⟩ := countLast_kept src c (withLearned c m)
  have hrec := hL.recovering hne hcm hop hpn
  refine ⟨?_, ?_, ?_, ?_, ?_, ?_, ?_, ?_⟩
  · rw [ha]; exact hL.own
  · rw [ha, hlp]; exact hL.picked
  · rw [hq]; exact hL.me
  · intro a hai
    have ht := hL.tally a hai
    rw [ha, hq, hfrom]
    show inFlight (s.received src i) .collect .last m.acceptedPn i a + (src :: m.lastsFrom).count a ≤
      if a ∈ m.quorum then 1 else 0
    by_cases hsrc : a = src
    · subst hsrc
      have hhead : (s.net a i).countP (isOp .last m.acceptedPn) =
          ms.countP (isOp .last m.acceptedPn) + 1 := by
        rw [hnet, countP_cons, if_pos (by simp [isOp, hop, hpn])]
      have hsame : (s.received a i).net i a = s.net i a := received_net_ne fun h => hai h.2
      unfold inFlight at ht ⊢
      rw [received_net_self hnet, hsame, count_cons_self]
      omega
    · rw [count_cons_of_ne (Ne.symm hsrc)]
      have hle : inFlight (s.received src i) .collect .last m.acceptedPn i a ≤
          inFlight s .collect .last m.acceptedPn i a :=
        inFlight_mono (received_sublist src i a) (received_sublist src a i)
      omega
  · rw [hnum, hfrom, length_cons]
    have := hL.counted
    show m.numLast + 1 = m.lastsFrom.length + 1 + 1
    omega
  · rw [hfrom]
    intro hmem
    rcases mem_cons.mp hmem with h | h
    · exact hne h.symm
    · exact hL.others h
  · intro a hmem
    rw [hfrom] at hmem
    rw [ha]
    rcases mem_cons.mp hmem with rfl | h
    · have hmod : c.pn % 100 = i := by rw [hpn]; exact hL.own.1
      have hp := hput hmod
      rw [hpn] at hp
      exact hp
    · exact hL.promised a h
  · intro hs
    rw [hst] at hs
    exact absurd hrec hs

theorem local_finishLasts (now : ℕ) (hL : Local s i m) (hl : m.role = .leader)
    (hok : (finishLasts n i lease now m).ok = true) :
    Local (s.performAll i (finishLasts n i lease now m).effs) i (finishLasts n i lease now m).st := by
  rcases finishLasts_cases n i lease m now with ⟨_, h⟩ | ⟨hall, _, _, h⟩ | ⟨hall, _, hq, hsame, hcalm⟩
  · rw [h]
    exact hL
  · rw [h] at hok ⊢
    have hL' : Local s i { m with state := .active } := by
      refine ⟨⟨hL.recalls.lastPn, hL.recalls.accepted⟩, hL.rank, fun _ h1 => ?_⟩
      have h := hL.leading hl h1
      exact ⟨h.own, h.picked, h.me, h.tally, h.counted, h.others, h.promised, fun _ => hall⟩
    exact local_begin hL' (fun _ => hall) hok
  · have hnc : ∀ e ∈ (finishLasts n i lease now m).effs, e.NoCollect :=
      fun e he => (hq e he).plain.noCollect
    refine ⟨hL.recalls.performAll hnc hcalm.lastPn (.inl hcalm.acceptedPn), fun _ => hL.rank hl, ?_⟩
    intro _ h1
    have hquo : m.quorum = (finishLasts n i lease now m).st.quorum := hsame.quorum
    have hnum : m.numLast = (finishLasts n i lease now m).st.numLast := hsame.numLast
    have hfrom : m.lastsFrom = (finishLasts n i lease now m).st.lastsFrom := hsame.lastsFrom
    refine (hL.leading hl (by rw [hquo]; exact h1)).performAll hnc hcalm.lastPn hcalm.acceptedPn
      hquo.symm hnum.symm hfrom.symm fun _ => ?_
    rw [← hnum, ← hquo]
    exact hall

theorem local_handleLast (hN : Numbers s) (hL : Local s i m) {st : Store} {src now : ℕ}
    {ms : List MMonPaxos} (hnet : s.net src i = c :: ms) (hop : c.op = .last) (hl : m.role = .leader)
    (hfresh : m.acceptedPn ≤ c.pn) (hok : (handleLast n i lease st src c now m).ok = true) :
    Local ((s.received src i).performAll i (handleLast n i lease st src c now m).effs) i
      (handleLast n i lease st src c now m).st := by
  have hplain := plain_shared_learned st src c m
  have hnc : ∀ e ∈ shared st src c m ++ learned c m, e.NoCollect := fun e he => (hplain e he).noCollect
  have hlp := noCollect_performAll (s := s.received src i) (i := i) hnc
  have hL₁ := hL.received src
  rcases handleLast_cases n i lease st m src c now hl with ⟨_, h⟩ | ⟨hle, h⟩
  · rw [h, emit_andThen, performAll_append]
    refine local_collect ((hN.received src).performAll (fits_plain hplain)) _ hl (hL.rank hl) ?_ ?_
    · exact hL₁.recalls.lastPn.trans hlp.symm
    · exact fun h1 => (hL.leading hl h1).me
  · rw [h, emit_andThen] at hok ⊢
    rw [performAll_append]
    obtain ⟨hq, ha, hlpn, hr, _⟩ := countLast_kept src c (withLearned c m)
    have hpn : c.pn = m.acceptedPn := le_antisymm hle hfresh
    refine local_finishLasts now ⟨?_, fun _ => hL.rank hl, ?_⟩ (hr.trans hl) hok
    · exact hL₁.recalls.performAll hnc hlpn (.inl ha)
    · intro _ h1
      rw [hq] at h1
      have hlead := leading_countLast hN (hL.leading hl h1) hnet hop hpn
      exact hlead.performAll hnc rfl rfl rfl rfl rfl hlead.done

/-- **A monitor's own step.** -/
theorem local_move {s1 : Cluster} {ev : Event} {o : Handled} (hN : Numbers s)
    (hL : Local s i (s.node i).mon) (hm : Move n lease s i ev s1 o) (hc : FreshLasts s ev)
    (hin : i < n) (hok : o.ok = true) : Local (s1.performAll i o.effs) i o.st := by
  cases hm with
  | quiet hs hq hcalm =>
    have hnc : ∀ e ∈ o.effs, e.NoCollect := fun e he => (hq e he).plain.noCollect
    have hL₁ : Local s1 i (s.node i).mon := by
      rcases hs with rfl | ⟨src, rfl⟩
      · exact hL
      · exact hL.received src
    refine hL₁.performAll hnc hcalm.lastPn (.inl hcalm.acceptedPn) fun hl => ?_
    have hsame := hcalm.lead hl
    exact ⟨hsame.role.trans hl, hsame.quorum.symm, fun _ => ⟨hcalm.acceptedPn, hsame.numLast.symm,
      hsame.lastsFrom.symm, fun hs => by rw [hsame.state]; exact hs⟩⟩
  | alone e q hq h1 =>
    refine ⟨⟨hL.recalls.lastPn, hL.recalls.accepted⟩, fun _ => ?_, fun _ hne => absurd h1 hne⟩
    have := hq.2.2
    omega
  | win e q hq h1 => exact local_collect hN 0 rfl (hc h1) hL.recalls.lastPn fun _ => hq.1
  | propose v _ hl hst =>
    have hL' : Local s i (cancelEvents (s.node i).mon) := by
      refine ⟨⟨hL.recalls.lastPn, hL.recalls.accepted⟩, hL.rank, fun hl h1 => ?_⟩
      have h := hL.leading hl h1
      exact ⟨h.own, h.picked, h.me, h.tally, h.counted, h.others, h.promised, h.done⟩
    refine local_begin hL' (fun h1 => (hL.leading hl h1).done ?_) hok
    rw [hst]
    decide
  | collect src now c ms hnet hop _ hp =>
    have hR := (hL.received src).recalls
    have hne : Role.peon ≠ .leader := by decide
    rcases handleCollect_cases (s.node i).store (s.node i).mon src c hp with h | ⟨_, h⟩ | ⟨_, h⟩
    · rw [h] at hok
      cases hok
    · rw [h]
      refine ⟨hR.performAll ?_ rfl (.inr ?_), fun hl => absurd (hp.symm.trans hl) hne,
        fun hl => absurd (hp.symm.trans hl) hne⟩
      · intro e he
        simp only [emit_effs, mem_cons, not_mem_nil, or_false] at he
        rcases he with rfl | rfl
        · trivial
        · simp [Effect.NoCollect, lastReply]
      · exact (mem_performAll_log i _ _).mpr (.inr ⟨rfl, mem_cons_self⟩)
    · rw [h]
      refine ⟨hR.performAll ?_ rfl (.inl rfl), fun hl => absurd (hp.symm.trans hl) hne,
        fun hl => absurd (hp.symm.trans hl) hne⟩
      intro e he
      simp only [emit_effs, mem_singleton] at he
      subst he
      simp [Effect.NoCollect, lastReply]
  | last src now c ms hnet hop he hl =>
    refine local_handleLast hN hL hnet hop hl ?_ hok
    exact hc c (by rw [hnet]; rfl) hop hl he
  | begin src now c ms hnet hop _ _ =>
    rcases handleBegin_cases (s.node i).mon src c with ⟨h, h'⟩ | ⟨hpn, _, h⟩
    · rw [h, h']
      exact hL.received src
    · rw [h]
      refine (hL.received src).performAll ?_ rfl (.inl rfl) fun hl => ?_
      · intro e he
        simp only [emit_effs, mem_cons, not_mem_nil, or_false] at he
        rcases he with rfl | rfl <;> simp [Effect.NoCollect]
      · -- a leader's number is its own, so no other monitor's BEGIN carries it
        refine ⟨hl, rfl, fun h1 => ?_⟩
        have hcm : c ∈ s.net src i := hnet ▸ mem_cons_self
        obtain ⟨hne, hown⟩ := hN.begin_own hcm hop
        have hmine := (hL.leading hl h1).own.1
        rw [← hpn, hown.1] at hmine
        exact absurd hmine.symm hne
  | accept src now c ms hnet hop _ _ =>
    have hnc : ∀ e ∈ (handleAccept n i lease src c now (s.node i).mon).effs, e.NoCollect :=
      fun e he => (plain_handleAccept src now c _ e he).noCollect
    obtain ⟨hk, hst⟩ := handleAccept_kept n i lease (s.node i).mon src c now
    refine (hL.received src).performAll hnc hk.lastPn (.inl hk.acceptedPn) fun hl => ?_
    refine ⟨hk.role.symm.trans hl, hk.quorum, fun _ => ⟨hk.acceptedPn, hk.numLast, hk.lastsFrom, ?_⟩⟩
    intro hs
    rcases hst with hst | hst
    · rw [← hst]; exact hs
    · rw [hst]; decide
  | commit src now c ms hnet hop _ hp =>
    have hnc : ∀ e ∈ (handleCommit c (s.node i).mon).effs, e.NoCollect :=
      fun e he => (plain_handleCommit c hp e he).noCollect
    have hne : Role.peon ≠ .leader := by decide
    obtain ⟨ws, _, _, hst, _⟩ := handleCommit_spec (s.node i).mon c hp
    rw [hst]
    exact (hL.received src).performAll hnc rfl (.inl rfl) fun hl => absurd (hp.symm.trans hl) hne

/-! ### Runs -/

/-- The condition on the actions of a run. -/
abbrev NoStaleLast : Cluster → Act → Prop := OnEvents FreshLasts

theorem sound_fresh : Sound fresh := by
  refine ⟨⟨?_, ?_, ?_, ?_, ?_, ?_, ?_, ?_⟩, ?_⟩ <;> simp [fresh, Links.empty, Put, Store.mkfs]

/-- **Every step keeps it.** -/
theorem promises_step {a : Act} (h : Sound s) (hc : NoStaleLast s a) (hs : step n lease s a = some s') :
    Sound s' := by
  rcases step_cases hs with ⟨ev, i, s1, o, es, m, up, ha, ⟨hin, hup⟩, hm, hes, hfull, rfl⟩ |
    ⟨i, rfl, _, hdown, rfl⟩ | ⟨i, j, k, rfl, rfl⟩
  · have hev : FreshLasts s ev := by
      rcases ha with rfl | ⟨k, rfl⟩
      · exact hc
      · exact hc
    have hL := h.local_up i hup
    obtain ⟨hN₁, hfits⟩ := fits_move h.numbers hL.recalls hL.rank
      (fun hl h1 => (hL.leading hl h1).own) hm hev
    have hN := hN₁.performAll (hfits.of_prefix hes)
    set t := s1.performAll i es with ht
    have hstore : ∀ j, ((t.become i m up).node j).store = (t.node j).store := by
      intro j
      by_cases hj : j = i
      · subst hj; rw [become_node]
      · rw [become_node_ne i t hj]
    refine ⟨hN.shrink (fun j => by rw [hstore]; exact ⟨rfl, rfl⟩) rfl fun _ _ => .refl _, ?_⟩
    intro j hj
    by_cases hji : j = i
    · subst hji
      rw [become_node] at hj ⊢
      obtain ⟨rfl, rfl, hok⟩ := hfull hj
      have hloc := local_move h.numbers hL hm hev hin hok
      refine hloc.of_other (by rw [hstore]) (fun _ _ hp => hp) fun _ _ _ => le_rfl
    · have hnode : (t.become i m up).node j = s.node j := by
        rw [become_node_ne i t hji, ht, performAll_node_ne i s1 es hji, hm.same.1]
      rw [hnode] at hj ⊢
      refine (h.local_up j hj).of_other (by rw [hnode]) ?_ ?_
      · intro a p hp
        have hp1 : Put s1 a p := by unfold Put; rw [hm.same.2]; exact hp
        exact hp1.performAll es
      · exact fun p hp a => inFlight_le (.inl ⟨rfl, rfl⟩) h.numbers hL.recalls hm hes hji hp a
  · -- a restart: the numbers are those of the store
    have hstore : ∀ j, ((s.restart i).node j).store.lastPn = (s.node j).store.lastPn ∧
        ((s.restart i).node j).store.acceptedPn = (s.node j).store.acceptedPn := by
      intro j
      by_cases hj : j = i
      · subst hj; rw [restart_node]; exact ⟨rfl, rfl⟩
      · rw [restart_node_ne i s hj]; exact ⟨rfl, rfl⟩
    refine ⟨h.numbers.shrink hstore rfl fun _ _ => .refl _, fun j hj => ?_⟩
    by_cases hji : j = i
    · subst hji
      have hmon : ((s.restart j).node j).mon = init (s.node j).store := by rw [restart_node]; rfl
      rw [hmon]
      refine ⟨⟨(hstore j).1.symm, ?_⟩, fun hl => (by cases hl), fun hl => (by cases hl)⟩
      rcases h.numbers.stored j with h0 | hp
      · exact .inl h0
      · exact .inr (.inr hp)
    · have hnode := restart_node_ne i s hji
      rw [hnode] at hj ⊢
      exact (h.local_up j hj).of_other (hstore j).1 (fun _ _ hp => hp) fun _ _ _ => le_rfl
  · have hsub := s.net.take_sublist i j k
    refine ⟨h.numbers.shrink (fun _ => ⟨rfl, rfl⟩) rfl hsub, fun a ha => ?_⟩
    exact (h.local_up a ha).of_other rfl (fun _ _ hp => hp) fun p _ b =>
      inFlight_mono (hsub a b) (hsub b a)

theorem sound_of_reach (h : Run.Reach (step n lease) NoStaleLast fresh s) : Sound s :=
  h.inv Sound sound_fresh fun _ _ _ => promises_step

/-- **Recovery gathers promises.** In a run without stale LASTs, a leader that is
past recovery has counted each other member of its quorum exactly once, and
each of these has accepted the leader's `accepted_pn`. -/
theorem recovery_gathers_promises (n lease : ℕ) {s : Cluster}
    (h : Run.Reach (step n lease) NoStaleLast fresh s) {i : ℕ} (hup : (s.node i).up = true)
    (hl : (s.node i).mon.role = .leader) (h1 : (s.node i).mon.quorum.card ≠ 1)
    (hst : (s.node i).mon.state ≠ .recovering) :
    (s.node i).mon.lastsFrom.Nodup ∧
      (s.node i).mon.numLast = (s.node i).mon.quorum.card ∧
      (∀ a, a ∈ (s.node i).mon.quorum ↔ a = i ∨ a ∈ (s.node i).mon.lastsFrom) ∧
      ∀ a ∈ (s.node i).mon.lastsFrom, (a, .putAcceptedPn (s.node i).mon.acceptedPn) ∈ s.log := by
  have hL := ((sound_of_reach h).local_up i hup).leading hl h1
  have hall := hL.done hst
  refine ⟨hL.nodup, hall, fun a => ⟨fun ha => ?_, ?_⟩, hL.promised⟩
  · by_cases hai : a = i
    · exact .inl hai
    · exact .inr (hL.mem_lastsFrom hall ha hai)
  · rintro (rfl | ha)
    · exact hL.me
    · exact hL.mem_quorum ha

instance : ∀ (s : Cluster) (ev : Event), Decidable (FreshLasts s ev)
  | _, .win _ _ _ => inferInstanceAs (Decidable (_ → _))
  | _, .deliver _ _ _ => inferInstanceAs (Decidable (∀ _ ∈ _, _ → _ → _ → _))
  | _, .lose _ _ _ | _, .propose _ _ | _, .callElection _ | _, .leaseRenew _ _ => isTrue trivial

instance : ∀ (s : Cluster) (a : Act), Decidable (NoStaleLast s a)
  | s, .run ev => inferInstanceAs (Decidable (FreshLasts s ev))
  | s, .cut ev _ => inferInstanceAs (Decidable (FreshLasts s ev))
  | _, .restart _ => isTrue trivial
  | _, .drop _ _ _ => isTrue trivial

/-- Monitor 0 wins with all three, and collects. -/
def plainRecovery : List Act :=
  [.restart 0, .restart 1, .restart 2,
    .run (.win 0 2 {0, 1, 2}), .run (.lose 1 2 0), .run (.lose 2 2 0),
    .run (.deliver 0 1 0), .run (.deliver 0 2 0), .run (.deliver 1 0 0), .run (.deliver 2 0 0)]

/-- The condition leaves a plain recovery alone, and it ends. -/
theorem recovery_gathers_promises_plain : ∃ s, Run.Reach (step 3 5) NoStaleLast fresh s ∧
    (s.node 0).mon.state = .active ∧ (s.node 0).mon.lastsFrom.Nodup ∧
    ∀ a, a ∈ (s.node 0).mon.quorum ↔ a = 0 ∨ a ∈ (s.node 0).mon.lastsFrom := by
  have hrun : (Run.exec (step 3 5) NoStaleLast plainRecovery fresh).map (fun s =>
      decide ((s.node 0).up = true ∧ (s.node 0).mon.role = .leader ∧ (s.node 0).mon.quorum.card ≠ 1 ∧
        (s.node 0).mon.state = .active)) = some true := by
    decide +kernel
  obtain ⟨s, hs, hd⟩ := Option.map_eq_some_iff.mp hrun
  obtain ⟨hup, hl, h1, hst⟩ := of_decide_eq_true hd
  have hr := Run.reach_of_exec hs
  have hne : (s.node 0).mon.state ≠ .recovering := by
    rw [hst]
    decide
  obtain ⟨hnd, _, hall, _⟩ := recovery_gathers_promises 3 5 hr hup hl h1 hne
  exact ⟨s, hr, hst, hnd, hall⟩

/-- Monitor 2 has picked a higher number before, so 0 must collect again; the
answer of 1 to the first collect is then counted as one to the second. -/
def staleLast : List Act :=
  [.restart 0, .restart 1, .restart 2,
    .run (.win 2 2 {1, 2}), .run (.win 0 4 {0, 1, 2}), .run (.lose 1 4 0), .run (.lose 2 4 0),
    .run (.deliver 0 1 0), .run (.deliver 0 2 0), .run (.deliver 2 0 0), .run (.deliver 1 0 0),
    .run (.deliver 0 1 0), .run (.deliver 1 0 0)]

/-- Without the condition a leader can become active on two LASTs of one peon,
with another member of its quorum never asked. -/
theorem promise_counted_twice : ∃ s, Run.Reach (step 3 5) Run.anyAct fresh s ∧
    (s.node 0).up = true ∧ (s.node 0).mon.role = .leader ∧ (s.node 0).mon.state = .active ∧
    (s.node 0).mon.numLast = (s.node 0).mon.quorum.card ∧ ¬ (s.node 0).mon.lastsFrom.Nodup ∧
    2 ∈ (s.node 0).mon.quorum ∧ (2, .putAcceptedPn (s.node 0).mon.acceptedPn) ∉ s.log := by
  have hrun : (Run.exec (step 3 5) Run.anyAct staleLast fresh).map (fun s =>
      decide ((s.node 0).up = true ∧ (s.node 0).mon.role = .leader ∧ (s.node 0).mon.state = .active ∧
        (s.node 0).mon.numLast = (s.node 0).mon.quorum.card ∧ ¬ (s.node 0).mon.lastsFrom.Nodup ∧
        2 ∈ (s.node 0).mon.quorum ∧ (2, .putAcceptedPn (s.node 0).mon.acceptedPn) ∉ s.log)) =
      some true := by
    decide +kernel
  obtain ⟨s, hs, hd⟩ := Option.map_eq_some_iff.mp hrun
  exact ⟨s, Run.reach_of_exec hs, of_decide_eq_true hd⟩

end Paxos
end Ceph
