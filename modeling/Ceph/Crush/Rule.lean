/-
# Following a rule down a hierarchy

A rule whose choose steps go down one level each keeps its items pairwise
distinct: the buckets of one level have no items in common. Forced items are
written first, and each is in the bucket that was forced before it, so the first
item of all is the one forced.

What is drawn from a bucket is given here as `kids`; the steps come to an end if
every draw yields an item and the items of no step are more than the arrays
hold.
-/
import Ceph.Crush.Choose
import Ceph.Crush.Parents

namespace Ceph
namespace Crush

open List
open Option hiding le_min

variable {h : Hashes} {m : Map} {x : ℤ} {kids : ℤ → List ℤ}

/-- What is drawn from a bucket is one of its items, and no item is in two buckets. -/
structure Yields (h : Hashes) (m : Map) (x : ℤ) (kids : ℤ → List ℤ) : Prop where
  drawn : ∀ (i : ℤ) (b : Bucket), m.bucket i = some b → ∀ (r : ℕ) (item : ℤ), bucketChoose h b x r = some item → item ∈ kids i
  disjoint : ∀ i j item : ℤ, item ∈ kids i → item ∈ kids j → i = j

/-- The buckets below `i` are of the types that the steps ask for, down to items as in `P`. -/
def Levelled (m : Map) (kids : ℤ → List ℤ) (P : ℤ → Prop) : List Step → ℤ → Prop
  | [], i => P i
  | s :: steps, i => ∀ item ∈ kids i, itemType m item = some s.arg2 ∧ Levelled m kids P steps item

/-- The forced items lead down from `i`. -/
def Path (kids : ℤ → List ℤ) : ℤ → List ℤ → Prop
  | _, [] => True
  | i, f :: force => f ∈ kids i ∧ Path kids f force

theorem Yields.draws (hy : Yields h m x kids) {i type : ℤ} {b : Bucket} (hb : m.bucket i = some b)
    (ht : ∀ item ∈ kids i, itemType m item = some type) : Draws h m b x type := by
  intro r item child hdraw hchild
  have htype := ht item (hy.drawn i b hb r item hdraw)
  rw [itemType_bucket hchild, some_inj] at htype
  exact htype

theorem Yields.choose (hy : Yields h m x kids) {i type : ℤ} {b : Bucket} (hb : m.bucket i = some b)
    (ht : ∀ item ∈ kids i, itemType m item = some type) {numrep : ℕ} {firstn : Bool} {out out' : List ℤ}
    (hc : crushChoose h m b x numrep type out firstn = some out') :
    ∃ items, out' = out ++ items ∧ items.Nodup ∧ (∀ item ∈ items, item ∉ out ∧ item ∈ kids i) ∧
      items.length ≤ numrep - out.length := by
  obtain ⟨items, rfl, hch⟩ := crushChoose_chosen (hy.draws hb ht) hc
  obtain ⟨items', heq, hlen, hdrawn⟩ := chooseLoop_drawn hc
  rw [← append_cancel_left heq] at hlen hdrawn
  refine ⟨items, rfl, hch.nodup, fun item hmem => ⟨hch.fresh item hmem, ?_⟩, hlen⟩
  obtain ⟨r, hr⟩ := hdrawn item hmem
  exact hy.drawn i b hb r item hr

/-! ### One step -/

section step

variable {numrep : ℕ} {type : ℤ} {firstn : Bool}

theorem chooseEach_cons_free {i : ℤ} {w force o : List ℤ} (hfree : force = [] ∨ o ≠ []) :
    chooseEach h m x numrep type firstn (i :: w) force o =
      (m.bucket i).bind fun b => (crushChoose h m b x numrep type [] firstn).bind fun out =>
        if maxSet < (o ++ out).length then none else chooseEach h m x numrep type firstn w force (o ++ out) := by
  cases o with
  | nil =>
    rw [hfree.resolve_right (fun hne => hne rfl), chooseEach]
    nofun
  | cons a o =>
    rw [chooseEach]
    nofun

/-- The buckets of one level give items that are pairwise distinct. -/
theorem chooseEach_free (hy : Yields h m x kids) : ∀ {w force o : List ℤ} {p : List ℤ × List ℤ}, (force = [] ∨ o ≠ []) →
    w.Nodup → o.Nodup → (∀ item ∈ o, ∀ i ∈ w, item ∉ kids i) →
    (∀ i ∈ w, ∀ item ∈ kids i, itemType m item = some type) → chooseEach h m x numrep type firstn w force o = some p →
      p.2 = force ∧ ∃ new, p.1 = o ++ new ∧ (o ++ new).Nodup ∧ ∀ item ∈ new, ∃ i ∈ w, item ∈ kids i
  | [], force, o, p, _, _, ho, _, _, hc => by
    cases hc
    refine ⟨rfl, [], (append_nil o).symm, ?_, nofun⟩
    rwa [append_nil]
  | i :: w, force, o, p, hfree, hw, ho, hfresh, ht, hc => by
    rw [chooseEach_cons_free hfree] at hc
    obtain ⟨b, hb, hc⟩ := bind_eq_some_iff.mp hc
    obtain ⟨out, hout, hc⟩ := bind_eq_some_iff.mp hc
    obtain ⟨items, hitems, hnodup, hkids, -⟩ := hy.choose hb (ht i mem_cons_self) hout
    rw [hitems, nil_append] at hc
    split_ifs at hc
    obtain ⟨hi, hw⟩ := nodup_cons.mp hw
    have ho' : (o ++ items).Nodup := ho.append hnodup fun item hmem hmem' =>
      hfresh item hmem i mem_cons_self (hkids item hmem').2
    have hfresh' : ∀ item ∈ o ++ items, ∀ j ∈ w, item ∉ kids j := by
      intro item hmem j hj hk
      rcases mem_append.mp hmem with hmem | hmem
      · exact hfresh item hmem j (mem_cons_of_mem i hj) hk
      · exact hi (hy.disjoint j i item hk (hkids item hmem).2 ▸ hj)
    have hfree' : force = [] ∨ o ++ items ≠ [] := hfree.imp_right fun hne => append_ne_nil_of_left_ne_nil hne _
    obtain ⟨hforce, new, hnew, hdistinct, hfrom⟩ := chooseEach_free hy hfree' hw ho' hfresh'
      (fun j hj => ht j (mem_cons_of_mem i hj)) hc
    refine ⟨hforce, items ++ new, by rw [hnew, append_assoc], by rwa [← append_assoc], fun item hmem => ?_⟩
    rcases mem_append.mp hmem with hmem | hmem
    · exact ⟨i, mem_cons_self, (hkids item hmem).2⟩
    · obtain ⟨j, hj, hk⟩ := hfrom item hmem
      exact ⟨j, mem_cons_of_mem i hj, hk⟩

/-- **A step keeps the items distinct, and the forced one is the first.** -/
theorem chooseEach_spec (hy : Yields h m x kids) {w force : List ℤ} {p : List ℤ × List ℤ} (hw : w.Nodup)
    (ht : ∀ i ∈ w, ∀ item ∈ kids i, itemType m item = some type)
    (hforce : force = [] ∨ ∃ i, w.head? = some i ∧ Path kids i force)
    (hc : chooseEach h m x numrep type firstn w force [] = some p) :
    p.1.Nodup ∧ (∀ item ∈ p.1, ∃ i ∈ w, item ∈ kids i) ∧ p.2 = force.tail ∧ (force ≠ [] → p.1.head? = force.head?) := by
  cases force with
  | nil =>
    obtain ⟨hnil, new, hnew, hdistinct, hfrom⟩ := chooseEach_free hy (.inl rfl) hw nodup_nil nofun ht hc
    rw [hnew]
    exact ⟨hdistinct, hfrom, hnil, fun hne => absurd rfl hne⟩
  | cons f force =>
    obtain ⟨i, hi, hf, -⟩ := hforce.resolve_left nofun
    obtain ⟨w, rfl⟩ : ∃ w', w = i :: w' := head?_eq_some_iff.mp hi
    obtain ⟨b, hb, hc⟩ := bind_eq_some_iff.mp hc
    obtain ⟨out, hout, hc⟩ := bind_eq_some_iff.mp hc
    obtain ⟨items, rfl, hnodup, hkids, -⟩ := hy.choose hb (ht i mem_cons_self) hout
    split_ifs at hc
    obtain ⟨hi, hw⟩ := nodup_cons.mp hw
    have ho : ([f] ++ items).Nodup := nodup_cons.mpr ⟨fun hmem => (hkids f hmem).1 (mem_singleton_self f), hnodup⟩
    have hin : ∀ item ∈ [f] ++ items, item ∈ kids i := by
      intro item hmem
      rcases mem_append.mp hmem with hmem | hmem
      · exact mem_singleton.mp hmem ▸ hf
      · exact (hkids item hmem).2
    have hfresh : ∀ item ∈ [f] ++ items, ∀ j ∈ w, item ∉ kids j := fun item hmem j hj hk =>
      hi (hy.disjoint j i item hk (hin item hmem) ▸ hj)
    obtain ⟨hrest, new, hnew, hdistinct, hfrom⟩ := chooseEach_free hy (.inr (cons_ne_nil f items)) hw ho hfresh
      (fun j hj => ht j (mem_cons_of_mem i hj)) hc
    rw [hnew]
    refine ⟨hdistinct, fun item hmem => ?_, hrest, fun _ => rfl⟩
    rcases mem_append.mp hmem with hmem | hmem
    · exact ⟨i, mem_cons_self, hin item hmem⟩
    · obtain ⟨j, hj, hk⟩ := hfrom item hmem
      exact ⟨j, mem_cons_of_mem i hj, hk⟩

theorem chooseEach_cons {i : ℤ} {w force o : List ℤ}
    (hforce : o = [] → force = [] ∨ ∃ j, (i :: w).head? = some j ∧ Path kids j force) :
    ∃ out force', chooseEach h m x numrep type firstn (i :: w) force o =
        ((m.bucket i).bind fun b => (crushChoose h m b x numrep type out firstn).bind fun out =>
          if maxSet < (o ++ out).length then none else chooseEach h m x numrep type firstn w force' (o ++ out)) ∧
      out.length ≤ 1 ∧ out.Nodup ∧ (∀ item ∈ out, item ∈ kids i) ∧ (o ++ out = [] → force' = []) := by
  by_cases hfree : force = [] ∨ o ≠ []
  · refine ⟨[], force, chooseEach_cons_free hfree, Nat.zero_le 1, nodup_nil, nofun, fun hnil => ?_⟩
    rw [append_nil] at hnil
    exact hfree.resolve_right fun hne => hne hnil
  · obtain ⟨hne, ho⟩ := not_or.mp hfree
    obtain rfl := not_not.mp ho
    obtain ⟨j, hj, hpath⟩ := (hforce rfl).resolve_left hne
    cases hj
    cases force with
    | nil => exact absurd rfl hne
    | cons f force =>
      refine ⟨[f], force, by rw [chooseEach], le_rfl, nodup_singleton f, ?_, nofun⟩
      exact forall_mem_singleton.mpr hpath.1

/-- The draws from each bucket come to an end, and the items have room. -/
theorem chooseEach_returns (hy : Yields h m x kids) {cap : ℕ} : ∀ {w force o : List ℤ},
    (∀ i ∈ w, ∃ b, m.bucket i = some b ∧ Sound h m b x type) → (∀ i ∈ w, ∀ item ∈ kids i, itemType m item = some type) →
    (∀ i ∈ w, (kids i).length ≤ cap) → (o = [] → force = [] ∨ ∃ i, w.head? = some i ∧ Path kids i force) →
    o.length + w.length * min (max numrep 1) cap ≤ maxSet →
      ∃ p, chooseEach h m x numrep type firstn w force o = some p ∧ p.1.length ≤ o.length + w.length * min (max numrep 1) cap
  | [], force, o, _, _, _, _, _ => ⟨(o, force), rfl, by simp⟩
  | i :: w, force, o, hs, ht, hcap, hforce, hroom => by
    obtain ⟨b, hb, hsound⟩ := hs i mem_cons_self
    obtain ⟨out, force', heq, hone, hout, hkids, hnil⟩ := chooseEach_cons hforce
    obtain ⟨out', hc⟩ := crushChoose_returns hsound numrep firstn out
    obtain ⟨items, rfl, hnodup, hfrom, hlen⟩ := hy.choose hb (ht i mem_cons_self) hc
    have hsub : (out ++ items).length ≤ (kids i).length := by
      refine (subperm_of_subset (hout.append hnodup fun item hmem hmem' => (hfrom item hmem').1 hmem) ?_).length_le
      intro item hmem
      rcases mem_append.mp hmem with hmem | hmem
      · exact hkids item hmem
      · exact (hfrom item hmem).2
    have hmin : (out ++ items).length ≤ min (max numrep 1) cap := by
      refine le_min ?_ (hsub.trans (hcap i mem_cons_self))
      rw [length_append]
      omega
    have hsum : (o ++ (out ++ items)).length + w.length * min (max numrep 1) cap ≤
        o.length + (i :: w).length * min (max numrep 1) cap := by
      rw [length_append, length_cons, Nat.succ_mul]
      omega
    have hforce' : o ++ (out ++ items) = [] → force' = [] ∨ ∃ j, w.head? = some j ∧ Path kids j force' := by
      intro h0
      rw [← append_assoc] at h0
      exact .inl (hnil (append_eq_nil_iff.mp h0).1)
    obtain ⟨p, hp, hle⟩ := chooseEach_returns hy (fun j hj => hs j (mem_cons_of_mem i hj))
      (fun j hj => ht j (mem_cons_of_mem i hj)) (fun j hj => hcap j (mem_cons_of_mem i hj)) hforce' (hsum.trans hroom)
    refine ⟨p, ?_, hle.trans hsum⟩
    have hnot : ¬ maxSet < (o ++ (out ++ items)).length := by omega
    rw [heq, hb, bind_some, hc, bind_some, if_neg hnot, hp]

end step

/-! ### All choose steps -/

/-- The choose steps of a rule. -/
def Chooses (steps : List Step) : Prop := ∀ s ∈ steps, s.op = .chooseFirstn ∨ s.op = .chooseIndep

/-- The items of each step have room: `n` buckets give at most as many as asked for each, and as `cap` of their
items there are. -/
def Room (cap : ℤ → ℕ) : ℕ → List Step → Prop
  | _, [] => True
  | n, s :: steps => n * min (max s.arg1.toNat 1) (cap s.arg2) ≤ maxSet ∧
      Room cap (n * min (max s.arg1.toNat 1) (cap s.arg2)) steps

theorem Room.mono {cap : ℤ → ℕ} : ∀ {steps : List Step} {n n' : ℕ}, Room cap n steps → n' ≤ n → Room cap n' steps
  | [], _, _, _, _ => trivial
  | _ :: _, _, _, hroom, hle =>
    ⟨(Nat.mul_le_mul_right _ hle).trans hroom.1, hroom.2.mono (Nat.mul_le_mul_right _ hle)⟩

variable {resultMax : ℕ} {P : ℤ → Prop}

theorem ruleStep_choose {k : Work} {s : Step} (hop : s.op = .chooseFirstn ∨ s.op = .chooseIndep)
    (hw : k.w ≠ []) : ruleStep h m x resultMax k s =
      (chooseEach h m x s.arg1.toNat s.arg2 (s.op = .chooseFirstn) k.w k.force []).map fun o =>
        { k with w := o.1, force := o.2 } := by
  rcases hop with hop | hop <;> simp only [ruleStep, hop, if_neg hw]

/-- Where a rule is before the steps that are left. -/
structure Ready (m : Map) (kids : ℤ → List ℤ) (P : ℤ → Prop) (steps : List Step) (k : Work) : Prop where
  nodup : k.w.Nodup
  level : ∀ i ∈ k.w, Levelled m kids P steps i
  force : k.force = [] ∨ ∃ i, k.w.head? = some i ∧ Path kids i k.force

/-- **A choose step goes down one level.** -/
theorem ruleStep_ready (hy : Yields h m x kids) {s : Step} {steps : List Step} {k k' : Work}
    (hop : s.op = .chooseFirstn ∨ s.op = .chooseIndep) (hr : Ready m kids P (s :: steps) k)
    (hstep : ruleStep h m x resultMax k s = some k') :
    Ready m kids P steps k' ∧ k'.force = k.force.tail ∧ k'.result = k.result ∧
      (k.force ≠ [] → k'.w.head? = k.force.head?) := by
  have hw : k.w ≠ [] := by
    intro h0
    rcases hop with hop | hop <;> simp [ruleStep, hop, h0] at hstep
  rw [ruleStep_choose hop hw] at hstep
  obtain ⟨o, ho, rfl⟩ := map_eq_some_iff.mp hstep
  have ht : ∀ i ∈ k.w, ∀ item ∈ kids i, itemType m item = some s.arg2 := fun i hi item hmem =>
    (hr.level i hi item hmem).1
  obtain ⟨hnodup, hfrom, hforce, hhead⟩ := chooseEach_spec hy hr.nodup ht hr.force ho
  refine ⟨⟨hnodup, fun item hmem => ?_, ?_⟩, hforce, rfl, hhead⟩
  · obtain ⟨i, hi, hk⟩ := hfrom item hmem
    exact (hr.level i hi item hk).2
  · -- the forced item that was written leads on to the next one
    rw [hforce]
    cases hf : k.force with
    | nil => exact .inl rfl
    | cons f force =>
      obtain ⟨i, -, hpath⟩ := hr.force.resolve_left (hf ▸ cons_ne_nil f force)
      rw [hf] at hpath
      refine .inr ⟨f, ?_, hpath.2⟩
      rw [hhead (hf ▸ cons_ne_nil f force), hf, head?_cons]

theorem chooseSteps_spec (hy : Yields h m x kids) : ∀ {steps : List Step} {k k' : Work},
    Chooses steps → Ready m kids P steps k → ruleSteps h m x resultMax steps k = some k' →
      Ready m kids P [] k' ∧ k'.result = k.result ∧
        (k.force.length = steps.length → (k.w.head?.toList ++ k.force).getLast? = k'.w.head?)
  | [], k, k', _, hr, hrun => by
    cases hrun
    refine ⟨hr, rfl, fun hlen => ?_⟩
    rw [length_eq_zero_iff.mp hlen, append_nil]
    cases k.w <;> rfl
  | s :: steps, k, k', hops, hr, hrun => by
    obtain ⟨k'', hstep, hrun⟩ := bind_eq_some_iff.mp hrun
    obtain ⟨hr', hforce, hresult, hhead⟩ := ruleStep_ready hy (hops s mem_cons_self) hr hstep
    obtain ⟨hdone, hresult', hlast⟩ := chooseSteps_spec hy (fun t ht => hops t (mem_cons_of_mem s ht)) hr' hrun
    refine ⟨hdone, hresult'.trans hresult, fun hlen => ?_⟩
    cases hf : k.force with
    | nil => nomatch hf ▸ hlen
    | cons f force =>
      have hlen' : k''.force.length = steps.length := by
        rw [hforce, length_tail, hlen, length_cons, Nat.add_sub_cancel]
      rw [← hlast hlen', hhead (hf ▸ cons_ne_nil f force), hforce, hf, getLast?_append, getLast?_cons,
        some_or]
      simp [getLast?_cons]

/-- The buckets that the steps come to can be drawn from, each having at most `cap` items. -/
def Drawable (h : Hashes) (m : Map) (x : ℤ) (kids : ℤ → List ℤ) (cap : ℤ → ℕ) : List Step → ℤ → Prop
  | [], _ => True
  | s :: steps, i => (∃ b, m.bucket i = some b ∧ Sound h m b x s.arg2) ∧ (kids i).length ≤ cap s.arg2 ∧
      ∀ item ∈ kids i, Drawable h m x kids cap steps item

/-- The steps come to an end if an item is forced in each. -/
theorem chooseSteps_returns (hy : Yields h m x kids) {cap : ℤ → ℕ} :
    ∀ {steps : List Step} {k : Work}, Chooses steps → Ready m kids P steps k → k.force.length = steps.length → k.w ≠ [] →
      (∀ i ∈ k.w, Drawable h m x kids cap steps i) → Room cap k.w.length steps →
        ∃ k', ruleSteps h m x resultMax steps k = some k'
  | [], k, _, _, _, _, _, _ => ⟨k, rfl⟩
  | s :: steps, k, hops, hr, hlen, hw, hd, hroom => by
    have ht : ∀ i ∈ k.w, ∀ item ∈ kids i, itemType m item = some s.arg2 := fun i hi item hmem =>
      (hr.level i hi item hmem).1
    have hsmall : ([] : List ℤ).length + k.w.length * min (max s.arg1.toNat 1) (cap s.arg2) ≤ maxSet := by
      rw [length_nil, zero_add]
      exact hroom.1
    have hret : ∃ p, chooseEach h m x s.arg1.toNat s.arg2 (s.op = .chooseFirstn) k.w k.force [] = some p ∧
        p.1.length ≤ ([] : List ℤ).length + k.w.length * min (max s.arg1.toNat 1) (cap s.arg2) :=
      chooseEach_returns hy (fun i hi => (hd i hi).1) ht (fun i hi => (hd i hi).2.1) (fun _ => hr.force) hsmall
    obtain ⟨p, hp, hle⟩ := hret
    have hstep : ruleStep h m x resultMax k s = some { k with w := p.1, force := p.2 } := by
      rw [ruleStep_choose (hops s mem_cons_self) hw, hp, map_some]
    obtain ⟨hr', hforce, -, hhead⟩ := ruleStep_ready hy (hops s mem_cons_self) hr hstep
    have hne : k.force ≠ [] := fun h0 => by
      rw [h0] at hlen
      nomatch hlen
    have hlen' : k.force.tail.length = steps.length := by
      rw [length_tail, hlen, length_cons, Nat.add_sub_cancel]
    have hw' : p.1 ≠ [] := by
      intro h0
      have hnone := hhead hne
      rw [h0, head?_nil, eq_comm, head?_eq_none_iff] at hnone
      exact hne hnone
    have hd' : ∀ i ∈ p.1, Drawable h m x kids cap steps i := by
      intro item hmem
      obtain ⟨-, hfrom, -⟩ := chooseEach_spec hy hr.nodup ht hr.force hp
      obtain ⟨i, hi, hk⟩ := hfrom item hmem
      exact (hd i hi).2.2 item hk
    rw [length_nil, zero_add] at hle
    obtain ⟨k', hk'⟩ := chooseSteps_returns hy (fun t ht => hops t (mem_cons_of_mem s ht)) hr'
      ((congrArg length hforce).trans hlen') hw' hd' (hroom.2.mono hle)
    exact ⟨k', by rw [ruleSteps, hstep, bind_some, hk']⟩

/-! ### Forcing a device -/

/-- What is above an item, one after the other, up to what is in no bucket. -/
def Up (m : Map) : List ℤ → Prop
  | [] => False
  | [root] => m.entry root = 0
  | item :: above :: items => m.entry item = above ∧ above ≠ 0 ∧ Up m (above :: items)

/-- **The stack of forced items is the way down to the device.** -/
theorem forceStack_up : ∀ (items : List ℤ) (item : ℤ) (fuel : ℕ) (stack : List ℤ), Up m (item :: items) →
    items.length < fuel → forceStack m fuel item stack = some ((item :: items).reverse ++ stack)
  | _, _, 0, _, _, hf => absurd hf (Nat.not_lt_zero _)
  | [], item, fuel + 1, stack, hup, _ => by
    have hzero : m.entry item = 0 := hup
    unfold Map.entry entry at hzero
    unfold forceStack
    rw [if_pos hzero]
    rfl
  | above :: items, item, fuel + 1, stack, hup, hf => by
    obtain ⟨habove, hne, hup⟩ := hup
    unfold Map.entry entry at habove
    unfold forceStack
    rw [habove, if_neg hne, forceStack_up items above fuel (item :: stack) hup (Nat.lt_of_succ_lt_succ hf)]
    simp

theorem ruleSteps_append : ∀ (steps steps' : List Step) (k : Work),
    ruleSteps h m x resultMax (steps ++ steps') k =
      (ruleSteps h m x resultMax steps k).bind (ruleSteps h m x resultMax steps')
  | [], _, _ => rfl
  | s :: steps, steps', k => by
    rw [cons_append, ruleSteps, ruleSteps, Option.bind_assoc]
    congr 1
    funext k'
    exact ruleSteps_append steps steps' k'

theorem crushDoRule_forced {rule : List Step} {ruleno resultMax : ℕ} {d : ℤ} {stack : List ℤ}
    (hrule : (m.rules[ruleno]?).join = some rule) (hd : 0 ≤ d ∧ d < m.maxDevices) (hparent : m.entry d ≠ 0)
    (hin : isOut h m d x = some false) (hstack : forceStack m maxDepth d [] = some stack) :
    crushDoRule h m ruleno x resultMax d =
      (ruleSteps h m x resultMax rule ⟨[], stack, []⟩).map fun k => .items k.result := by
  have hentry : m.deviceParents.getD d.toNat 0 ≠ 0 := by
    unfold Map.entry entry at hparent
    rwa [if_pos hd.1] at hparent
  unfold crushDoRule
  rw [hrule, bind_some]
  rw [if_pos hd, if_neg hentry, hin, bind_some, if_neg Bool.false_ne_true, hstack, bind_some]

theorem crushDoRule_free {rule : List Step} {ruleno resultMax : ℕ} {d : ℤ}
    (hrule : (m.rules[ruleno]?).join = some rule) (hd : ¬ (0 ≤ d ∧ d < m.maxDevices)) :
    crushDoRule h m ruleno x resultMax d =
      (ruleSteps h m x resultMax rule ⟨[], [], []⟩).map fun k => .items k.result := by
  unfold crushDoRule
  rw [hrule, bind_some]
  rw [if_neg hd]

end Crush
end Ceph
