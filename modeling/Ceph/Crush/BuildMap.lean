/-
# The map the monitor makes

`OSDMonitor::build_crush_map` puts up to eleven devices in one uniform bucket,
and more of them in as many failure domains as there are to be replicas, below a
list bucket. It adds a rule for each number of replicas and each width of a
raid group.

The map is good for placing when no domain is left empty, no rule asks for
devices where there are domains, and no rule asks for more items than the arrays
of `crush_do_rule` hold.
-/
import Ceph.Crush.Forcefeed

namespace Ceph
namespace Crush

open List
open Option hiding min_eq_left min_eq_right

/-- `j` devices from `o` on. -/
def devices (o j : ℕ) : List ℤ := (List.range j).map fun k => ((o + k : ℕ) : ℤ)

/-- The loop over the failure domains, from device `o` on: each domain's number and weight. -/
def addDomains (h : Hashes) (numOsd nper : ℕ) : ℕ → ℕ → Map → Option (Map × List (ℤ × ℕ))
  | 0, _, m => some (m, [])
  | i + 1, o, m =>
    let j := min nper (numOsd - o)
    (makeUniformBucket h 1 (devices o j) 0x10000).bind fun domain =>
      let added := addBucket m domain
      (addDomains h numOsd nper i (o + j) added.1).map fun p => (p.1, (added.2, j * 0x10000) :: p.2)

/-- A rule that chooses domains, and a device of each. -/
def domainRule (root : ℤ) (op : Op) (width : ℤ) : List Step :=
  [⟨.take, root, 0⟩, ⟨op, width, 1⟩, ⟨op, 1, 0⟩, ⟨.emit, 0, 0⟩]

/-- A rule that chooses devices. -/
def deviceRule (root : ℤ) (op : Op) (width : ℤ) : List Step := [⟨.take, root, 0⟩, ⟨op, width, 0⟩, ⟨.emit, 0, 0⟩]

/-- A loop that adds the rules of `count` widths from `width` on. -/
def addRules (number : ℤ → ℤ) (rule : ℤ → List Step) : ℕ → ℤ → Map → Map
  | 0, _, m => m
  | count + 1, width, m => addRules number rule count (width + 1) (crushAddRule m (number width) (rule width))

/-- The rules for replication and for raid groups. -/
def addPlacement (maxRep : ℕ) (minRaid maxRaid : ℤ) (rep raid : ℤ → List Step) (m : Map) : Map :=
  addRules (10 + ·) raid (maxRaid - minRaid + 1).toNat minRaid (addRules id rep maxRep 1 m)

/-- `set_offload`. -/
def setOffload (o : ℕ) (m : Map) (i : ℕ) : Option Map :=
  if i < m.maxDevices then some { m with deviceOffload := m.deviceOffload.map (·.set i o) } else none

/-- `OSDMonitor::build_crush_map`. -/
def buildCrushMap (h : Hashes) (numOsd maxRep : ℕ) (minRaid maxRaid : ℤ) : Option Map :=
  let crush :=
    if 12 ≤ numOsd then
      let ndom := maxRep
      if ndom = 0 then none
      else
        let nper := (numOsd - 1) / ndom + 1
        (addDomains h numOsd nper ndom 0 crushCreate).map fun p =>
          let root := addBucket p.1 (makeListBucket 2 p.2)
          addPlacement ndom minRaid maxRaid (domainRule root.2 .chooseFirstn)
            (fun i => if i ≤ ndom then domainRule root.2 .chooseIndep i else deviceRule root.2 .chooseIndep i) root.1
    else
      (makeUniformBucket h 1 (devices 0 numOsd) 0x10000).map fun b =>
        let root := addBucket crushCreate b
        addPlacement maxRep minRaid maxRaid (deviceRule root.2 .chooseFirstn) (deviceRule root.2 .chooseIndep) root.1
  crush.bind fun m => (List.range numOsd).foldlM (setOffload 0) (finalize m)

/-- The map is made, has each device once, and its rules place on devices alone, no two the same. -/
def Usable (h : Hashes) (numOsd maxRep : ℕ) (minRaid maxRaid : ℤ) : Prop :=
  ∃ m, buildCrushMap h numOsd maxRep minRaid maxRaid = some m ∧
    (∀ d < numOsd, (m.buckets.reduceOption.flatMap (·.items)).count (d : ℤ) = 1) ∧
    ∀ (ruleno : ℕ) (rule : List Step), (m.rules[ruleno]?).join = some rule → ∀ (x : ℤ) (resultMax : ℕ),
      ∃ result, crushDoRule h m ruleno x resultMax (-1) = some (.items result) ∧ result.Nodup ∧
        ∀ d ∈ result, 0 ≤ d ∧ d < numOsd

/-- Some rule asks for `width` items first: one for raid groups, or one for replication whose number no raid
rule has taken. -/
def Installs (maxRep : ℕ) (minRaid maxRaid : ℤ) (width : ℤ) : Prop :=
  (1 ≤ width ∧ width ≤ maxRep ∧ ¬ (minRaid ≤ width - 10 ∧ width - 10 ≤ maxRaid)) ∨ (minRaid ≤ width ∧ width ≤ maxRaid)

/-- **When the map is good for placing.** No domain is empty, their weights do not vanish in 32 bits, each raid
group fits the domains, and no rule asks for more than ten items where there are as many. -/
def Fine (numOsd maxRep : ℕ) (minRaid maxRaid : ℤ) : Prop :=
  if 12 ≤ numOsd then
    (maxRep - 1) * ((numOsd - 1) / maxRep + 1) < numOsd ∧
      ¬ (65536 ∣ (numOsd - 1) / maxRep + 1 ∧ 65536 ∣ numOsd) ∧
      (∀ width, minRaid ≤ width → width ≤ maxRaid → 1 ≤ width ∧ width ≤ maxRep) ∧
      ∀ width, Installs maxRep minRaid maxRaid width → width ≤ 10
  else numOsd = 11 → ∀ width, Installs maxRep minRaid maxRaid width → width ≤ 10

/-! ### The rules -/

/-- The rule of a number. -/
def ruleAt (m : Map) (j : ℕ) : Option (List Step) := (m.rules[j]?).join

theorem ruleAt_addRule (m : Map) (no j : ℕ) (rule : List Step) :
    ruleAt (addRule m no rule) j = if j = no then some rule else ruleAt m j := by
  have hlen : no < (m.rules ++ replicate (no + 1 - m.rules.length) none).length := by
    rw [length_append, length_replicate]
    omega
  unfold ruleAt addRule
  by_cases hj : j = no
  · rw [if_pos hj, hj, getElem?_set_self hlen]
    rfl
  · rw [if_neg hj, getElem?_set_ne (Ne.symm hj)]
    by_cases hlt : j < m.rules.length
    · rw [getElem?_append_left hlt]
    · rw [getElem?_append_right (not_lt.mp hlt), getElem?_replicate, getElem?_eq_none (not_lt.mp hlt)]
      split_ifs <;> rfl

theorem ruleAt_free (m : Map) : ruleAt m (m.rules.findIdx (· = none)) = none := by
  unfold ruleAt
  by_cases hlt : m.rules.findIdx (· = none) < m.rules.length
  · have hnone := findIdx_getElem (w := hlt)
    rw [getElem?_eq_getElem hlt]
    simpa using hnone
  · rw [getElem?_eq_none (not_lt.mp hlt)]
    rfl

section addRules

variable {number : ℤ → ℤ} {rule : ℤ → List Step} {c : ℤ}

theorem ruleAt_crushAddRule {m : Map} {ruleno : ℤ} {r : List Step} {j : ℕ} {s : List Step} (hs : ruleAt m j = some s)
    (hj : (j : ℤ) ≠ ruleno) : ruleAt (crushAddRule m ruleno r) j = some s := by
  rw [crushAddRule, ruleAt_addRule, if_neg, hs]
  rintro rfl
  split_ifs at hs hj with hneg
  · rw [ruleAt_free] at hs
    nomatch hs
  · exact hj (Int.toNat_of_nonneg (not_lt.mp hneg))

theorem ruleAt_added (m : Map) (ruleno : ℤ) (r : List Step) :
    ∃ j, ruleAt (crushAddRule m ruleno r) j = some r ∧ (0 ≤ ruleno → j = ruleno.toNat) ∧
      ∀ i s, ruleAt (crushAddRule m ruleno r) i = some s → i ≠ j → ruleAt m i = some s := by
  refine ⟨if ruleno < 0 then m.rules.findIdx (· = none) else ruleno.toNat, ?_, fun hpos => if_neg (not_lt.mpr hpos),
    fun i s hs hi => ?_⟩
  · rw [crushAddRule, ruleAt_addRule, if_pos rfl]
  · rwa [crushAddRule, ruleAt_addRule, if_neg hi] at hs

theorem ruleAt_kept (hc : ∀ w, number w = c + w) : ∀ (count : ℕ) (w : ℤ) (m : Map) (j : ℕ) (s : List Step),
    ruleAt m j = some s → ¬ (w ≤ j - c ∧ j - c < w + count) → ruleAt (addRules number rule count w m) j = some s
  | 0, _, _, _, _, hs, _ => hs
  | count + 1, w, m, j, s, hs, hout => by
    push_cast at hout
    refine ruleAt_kept hc count (w + 1) _ j s (ruleAt_crushAddRule hs ?_) (by omega)
    rw [hc]
    omega

theorem ruleAt_number (hc : ∀ w, number w = c + w) : ∀ (count : ℕ) (w : ℤ) (m : Map) (v : ℤ), w ≤ v → v < w + count →
    0 ≤ c + v → ruleAt (addRules number rule count w m) (c + v).toNat = some (rule v)
  | 0, _, _, _, _, _, _ => by omega
  | count + 1, w, m, v, hw, hv, hpos => by
    rw [addRules]
    push_cast at hv
    by_cases heq : v = w
    · subst heq
      obtain ⟨j, hj, hno, -⟩ := ruleAt_added m (number v) (rule v)
      rw [hc] at hno
      rw [← hno hpos]
      refine ruleAt_kept hc count (v + 1) _ j _ hj ?_
      have hj' := hno hpos
      omega
    · exact ruleAt_number hc count (w + 1) _ v (by omega) (by omega) hpos

theorem ruleAt_last : ∀ (count : ℕ) (w : ℤ) (m : Map), ∃ j, ruleAt (addRules number rule (count + 1) w m) j = some (rule (w + count))
  | 0, w, m => by
    obtain ⟨j, hj, -⟩ := ruleAt_added m (number w) (rule w)
    exact ⟨j, by simpa [addRules] using hj⟩
  | count + 1, w, m => by
    obtain ⟨j, hj⟩ := ruleAt_last count (w + 1) (crushAddRule m (number w) (rule w))
    refine ⟨j, ?_⟩
    rw [addRules, hj]
    congr 1
    push_cast
    congr 1
    omega

theorem ruleAt_cases (hc : ∀ w, number w = c + w) : ∀ (count : ℕ) (w : ℤ) (m : Map) (j : ℕ) (s : List Step),
    ruleAt (addRules number rule count w m) j = some s →
      (ruleAt m j = some s ∧ ¬ (w ≤ j - c ∧ j - c < w + count)) ∨
        ∃ v, w ≤ v ∧ v < w + count ∧ s = rule v ∧ (0 ≤ c + v → j = (c + v).toNat)
  | 0, _, _, _, _, hs => .inl ⟨hs, by omega⟩
  | count + 1, w, m, j, s, hs => by
    push_cast
    rcases ruleAt_cases hc count (w + 1) _ j s hs with ⟨hold, hout⟩ | ⟨v, hlow, hhigh, rfl, hj⟩
    · obtain ⟨i, hi, hno, hothers⟩ := ruleAt_added m (number w) (rule w)
      by_cases hji : j = i
      · subst hji
        cases hi.symm.trans hold
        exact .inr ⟨w, le_rfl, by omega, rfl, fun hpos => by rw [hno (by rw [hc]; exact hpos), hc]⟩
      · refine .inl ⟨hothers j s hold hji, ?_⟩
        rw [hc] at hno
        rintro ⟨h1, h2⟩
        by_cases hw : (j : ℤ) - c = w
        · exact hji (by rw [hno (by omega)]; omega)
        · exact hout ⟨by omega, by omega⟩
    · exact .inr ⟨v, by omega, by omega, rfl, hj⟩

end addRules

/-! ### The buckets -/

theorem addRules_eq (number : ℤ → ℤ) (rule : ℤ → List Step) : ∀ (count : ℕ) (w : ℤ) (m : Map),
    ∃ rules, addRules number rule count w m = { m with rules }
  | 0, _, m => ⟨m.rules, rfl⟩
  | count + 1, w, m => by
    obtain ⟨rules, heq⟩ := addRules_eq number rule count (w + 1) (crushAddRule m (number w) (rule w))
    exact ⟨rules, by rw [addRules, heq]; rfl⟩

theorem addPlacement_eq (maxRep : ℕ) (minRaid maxRaid : ℤ) (rep raid : ℤ → List Step) (m : Map) :
    ∃ rules, addPlacement maxRep minRaid maxRaid rep raid m = { m with rules } := by
  obtain ⟨rules, heq⟩ := addRules_eq id rep maxRep 1 m
  obtain ⟨rules', heq'⟩ := addRules_eq (10 + ·) raid (maxRaid - minRaid + 1).toNat minRaid (addRules id rep maxRep 1 m)
  exact ⟨rules', by rw [addPlacement, heq', heq]⟩

variable {m : Map}

theorem markIn_eq (hoff : m.deviceOffload = some (replicate m.maxDevices 0)) : ∀ is : List ℕ,
    (∀ i ∈ is, i < m.maxDevices) → is.foldlM (setOffload 0) m = some m
  | [], _ => rfl
  | i :: is, hlt => by
    have hset : setOffload 0 m i = some m := by
      rw [setOffload, if_pos (hlt i mem_cons_self), hoff, map_some, set_replicate_self, ← hoff]
    rw [foldlM_cons, hset]
    exact markIn_eq hoff is fun j hj => hlt j (mem_cons_of_mem i hj)

variable {m0 : Map} {h : Hashes} {rs : List Recipe}

theorem finished_rules (hm : assemble h rs = some m0) (rules : List (Option (List Step))) :
    Finished h rs (finalize { m0 with rules }) ∧ (finalize { m0 with rules }).rules = rules ∧
      (finalize { m0 with rules }).deviceOffload = some (replicate (finalize { m0 with rules }).maxDevices 0) ∧
      (finalize { m0 with rules }).buckets = m0.buckets := by
  obtain ⟨bs, ha⟩ := assembled hm
  have hoff : (finalize { m0 with rules }).deviceOffload =
      some (replicate (finalize { m0 with rules }).maxDevices 0) := by
    simp only [finalize, calcParents, ha.deviceOffload, getD_none]
  exact ⟨⟨⟨m0, hm, rfl, rfl, rfl, rfl⟩, _, hoff, by rw [length_replicate]⟩, rfl, hoff, rfl⟩

theorem addBucket_id (hm : assemble h rs = some m) (b : Bucket) :
    (addBucket m b).2 = -1 - (rs.length : ℤ) := by
  obtain ⟨bs, ha⟩ := assembled hm
  obtain ⟨k, hk⟩ := ha.buckets
  rw [addBucket]
  rw [hk, findIdx_buckets, ha.length]

variable {b : Bucket} {r : Recipe}

theorem assemble_concat (hm : assemble h rs = some m)
    (hb : r.make h = some b) : assemble h (rs ++ [r]) = some (addBucket m b).1 := by
  rw [assemble] at hm ⊢
  rw [foldlM_append, hm]
  simp [addMade, hb]

/-- The failure domains, as they are to be made. -/
def domains (numOsd nper : ℕ) : ℕ → ℕ → List Recipe
  | 0, _ => []
  | i + 1, o => .uniform 1 (devices o (min nper (numOsd - o))) 0x10000 :: domains numOsd nper i (o + min nper (numOsd - o))

/-- Their numbers and weights, the first one's number being that of the `k`-th bucket. -/
def domainEntries (numOsd nper : ℕ) : ℕ → ℕ → ℕ → List (ℤ × ℕ)
  | 0, _, _ => []
  | i + 1, o, k => (-1 - (k : ℤ), min nper (numOsd - o) * 0x10000) ::
      domainEntries numOsd nper i (o + min nper (numOsd - o)) (k + 1)

variable {numOsd nper : ℕ} {minRaid maxRaid : ℤ}

/-- **The domains are buckets one after the other**, if none is empty. -/
theorem addDomains_assemble : ∀ {i o : ℕ} {rs : List Recipe} {m : Map}, assemble h rs = some m →
    (∀ r ∈ domains numOsd nper i o, r.items ≠ []) → ∃ m', addDomains h numOsd nper i o m =
      some (m', domainEntries numOsd nper i o rs.length) ∧ assemble h (rs ++ domains numOsd nper i o) = some m'
  | 0, o, rs, m, hm, _ => ⟨m, rfl, by rwa [domains, append_nil]⟩
  | i + 1, o, rs, m, hm, hne => by
    obtain ⟨b, hb⟩ : ∃ b, makeUniformBucket h 1 (devices o (min nper (numOsd - o))) 0x10000 = some b := by
      obtain ⟨primes, hb, -⟩ := makeUniformBucket_some h 1 0x10000 (hne _ mem_cons_self)
      exact ⟨_, hb⟩
    have hmake : Recipe.make h (.uniform 1 (devices o (min nper (numOsd - o))) 0x10000) = some b := hb
    have hm' := assemble_concat hm hmake
    obtain ⟨m', hadd, hall⟩ := addDomains_assemble hm' fun r hr => hne r (mem_cons_of_mem _ hr)
    rw [length_append, length_singleton] at hadd
    refine ⟨m', ?_, ?_⟩
    · rw [addDomains]
      simp only [hb, bind_some, hadd, map_some, addBucket_id hm, domainEntries]
    · rw [domains, ← hall, append_assoc]
      rfl

theorem addDomains_none : ∀ {i o : ℕ} {m : Map},
    (∃ r ∈ domains numOsd nper i o, r.items = []) → addDomains h numOsd nper i o m = none
  | 0, _, _, he => by
    obtain ⟨r, hr, -⟩ := he
    nomatch hr
  | i + 1, o, m, he => by
    obtain ⟨r, hr, hempty⟩ := he
    rw [addDomains]
    rcases mem_cons.mp hr with rfl | hr
    · have hnil : devices o (min nper (numOsd - o)) = [] := hempty
      rw [hnil]
      rfl
    · cases hb : makeUniformBucket h 1 (devices o (min nper (numOsd - o))) 0x10000 with
      | none => rfl
      | some b =>
        dsimp only [bind_some]
        rw [addDomains_none ⟨r, hr, hempty⟩, map_none]

/-! ### Each device in one bucket -/

theorem length_devices (o j : ℕ) : (devices o j).length = j := by
  rw [devices, length_map, length_range]

theorem mem_devices {o j : ℕ} {d : ℤ} : d ∈ devices o j ↔ (o : ℤ) ≤ d ∧ d < o + j := by
  simp only [devices, List.mem_map, mem_range]
  constructor
  · rintro ⟨k, hk, rfl⟩
    omega
  · rintro ⟨hlow, hhigh⟩
    exact ⟨(d - o).toNat, by omega, by omega⟩

theorem nodup_devices (o j : ℕ) : (devices o j).Nodup := by
  refine nodup_range.map fun a b hab => ?_
  omega

theorem devices_append (o j k : ℕ) : devices o j ++ devices (o + j) k = devices o (j + k) := by
  simp only [devices, range_add, map_append, List.map_map]
  congr 1
  refine map_congr_left fun a _ => ?_
  simp [add_assoc]

theorem flatMap_domains (numOsd nper : ℕ) : ∀ i o : ℕ,
    (domains numOsd nper i o).flatMap Recipe.items = devices o (min (i * nper) (numOsd - o))
  | 0, o => by simp [domains, devices]
  | i + 1, o => by
    rw [domains, flatMap_cons, flatMap_domains numOsd nper i, Recipe.items, devices_append]
    congr 1
    rw [Nat.succ_mul]
    omega

theorem domains_nonempty (numOsd : ℕ) {nper : ℕ} (hper : 0 < nper) : ∀ i o : ℕ,
    (∀ r ∈ domains numOsd nper i o, r.items ≠ []) ↔ i = 0 ∨ o + (i - 1) * nper < numOsd
  | 0, o => iff_of_true nofun (.inl rfl)
  | i + 1, o => by
    have hhead : (Recipe.uniform 1 (devices o (min nper (numOsd - o))) 0x10000).items ≠ [] ↔ o < numOsd := by
      rw [Recipe.items, ne_eq, ← length_eq_zero_iff, length_devices]
      omega
    rw [domains, forall_mem_cons, hhead, domains_nonempty numOsd hper i]
    cases i with
    | zero => simp
    | succ i =>
      simp only [Nat.add_sub_cancel, Nat.succ_ne_zero, false_or]
      rw [Nat.succ_mul]
      omega

theorem domainEntries_fst (numOsd nper : ℕ) : ∀ i o k : ℕ,
    (domainEntries numOsd nper i o k).map Prod.fst = (range i).map fun j => -1 - ((k + j : ℕ) : ℤ)
  | 0, _, _ => rfl
  | i + 1, o, k => by
    rw [domainEntries, map_cons, domainEntries_fst numOsd nper i, range_succ_eq_map, map_cons, List.map_map]
    congr 1
    refine map_congr_left fun j _ => ?_
    simp only [Function.comp_apply]
    push_cast
    ring

/-! ### Maps without tree buckets -/

theorem listLoop_mem (h : Hashes) (x r id item : ℤ) : ∀ (items : List ℤ) (ws sums : List ℕ),
    listLoop h x r id items ws sums = some item → item ∈ items
  | it :: items, w :: ws, sum :: sums, heq => by
    rw [listLoop] at heq
    split_ifs at heq
    · cases heq
      exact mem_cons_self
    · exact mem_cons_of_mem it (listLoop_mem h x r id item items ws sums heq)
  | [], _, _, heq => by
    rw [listLoop] at heq
    · cases heq
    · intros
      contradiction
  | _ :: _, [], _, heq => by
    rw [listLoop] at heq
    · cases heq
    · intros
      contradiction
  | _ :: _, _ :: _, [], heq => by
    rw [listLoop] at heq
    · cases heq
    · intros
      contradiction

theorem bucketChoose_mem {x r item : ℤ} (hdraw : bucketChoose h b x r = some item) :
    item ∈ b.items := by
  unfold bucketChoose at hdraw
  cases halg : b.alg with
  | uniform primes itemWeight =>
    rw [halg] at hdraw
    obtain ⟨-, hdraw⟩ := ite_none_left_eq_some.mp hdraw
    obtain ⟨p, -, hitem⟩ := bind_eq_some_iff.mp hdraw
    exact mem_of_getElem? hitem
  | list ws sums =>
    rw [halg] at hdraw
    exact listLoop_mem h x r b.id item _ _ _ hdraw
  | tree ws =>
    rw [halg] at hdraw
    obtain ⟨n, -, hitem⟩ := bind_eq_some_iff.mp hdraw
    exact mem_of_getElem? hitem
  | straw straws =>
    rw [halg] at hdraw
    exact (strawLoop_mem h x r _ _ _ item hdraw).resolve_right nofun

theorem make_plain (hb : r.make h = some b) (hplain : r.isTree = false) : b.items = r.items := by
  cases r with
  | uniform type items itemWeight =>
    obtain ⟨-, hb⟩ := ite_none_left_eq_some.mp hb
    obtain ⟨primes, -, rfl⟩ := map_eq_some_iff.mp hb
    rfl
  | list type entries =>
    cases hb
    rfl
  | tree type entries => nomatch hplain
  | straw type entries straws =>
    obtain ⟨-, ⟨⟩⟩ := ite_none_left_eq_some.mp hb
    rfl

section plain

variable {h : Hashes} {rs : List Recipe} {m : Map} {x : ℤ}

theorem yields_plain (hf : Finished h rs m) (hone : OneHolder rs) (hplain : ∀ r ∈ rs, r.isTree = false) :
    Yields h m x (kidsOf rs) := by
  refine ⟨fun i b hb r item hdraw => ?_, fun i j item hi hj => ?_⟩
  · obtain ⟨k, recipe, b', rfl, hr, hmake, rfl⟩ := hf.recipe hb
    have hmem := bucketChoose_mem hdraw
    rw [kidsOf_eq hr, ← make_plain hmake (hplain recipe (mem_of_getElem? hr))]
    exact hmem
  · obtain ⟨k, r, rfl, hr, hmem⟩ := mem_kidsOf hi
    obtain ⟨k', r', rfl, hr', hmem'⟩ := mem_kidsOf hj
    rw [← holder_some hone hr hmem, holder_some hone hr' hmem']

theorem items_plain {m0 : Map} (hm : assemble h rs = some m0) (hplain : ∀ r ∈ rs, r.isTree = false) :
    m0.buckets.reduceOption.flatMap (·.items) = rs.flatMap Recipe.items := by
  obtain ⟨bs, ha⟩ := assembled hm
  have hmap : bs.map (·.items) = rs.map Recipe.items := by
    refine ext_getElem? fun i => ?_
    rw [getElem?_map, getElem?_map]
    cases hr : rs[i]? with
    | none =>
      have hlen := getElem?_eq_none_iff.mp hr
      rw [getElem?_eq_none (by rwa [ha.length])]
      rfl
    | some r =>
      obtain ⟨b, hmake, hb⟩ := ha.made i r hr
      rw [hb, map_some, map_some, ← make_plain hmake (hplain r (mem_of_getElem? hr))]
  rw [ha.reduceOption, flatMap_def, flatMap_def, hmap]

theorem isOut_in (hf : Finished h rs m) (hoff : m.deviceOffload = some (replicate m.maxDevices 0)) {i d : ℤ}
    (hmem : d ∈ kidsOf rs i) (hd : 0 ≤ d) : isOut h m d x = some false := by
  obtain ⟨k, r, -, hr, hmem⟩ := mem_kidsOf hmem
  obtain ⟨hlt, -⟩ := hf.offloaded (x := x) hr hd hmem
  rw [isOut, if_neg (not_lt.mpr hd), hoff, bind_some, getElem?_replicate, if_pos (by omega)]
  rfl

theorem crushDoRule_level (hy : Yields h m x (kidsOf rs)) {P : ℤ → Prop} {ruleno resultMax : ℕ} {root : ℤ}
    {chooses : List Step} {k : Work}
    (hrule : (m.rules[ruleno]?).join = some (⟨.take, root, 0⟩ :: (chooses ++ [⟨.emit, 0, 0⟩]))) (hops : Chooses chooses)
    (hlev : Levelled m (kidsOf rs) P chooses root) (hrun : ruleSteps h m x resultMax chooses ⟨[root], [], []⟩ = some k) :
    ∃ result, crushDoRule h m ruleno x resultMax (-1) = some (.items result) ∧ result.Nodup ∧ ∀ d ∈ result, P d := by
  have hready : Ready m (kidsOf rs) P chooses ⟨[root], [], []⟩ :=
    ⟨nodup_singleton root, forall_mem_singleton.mpr hlev, .inl rfl⟩
  obtain ⟨hdone, hempty, -⟩ := chooseSteps_spec hy hops hready hrun
  refine ⟨k.w.take resultMax, ?_, hdone.nodup.sublist (take_sublist _ _), fun d hd =>
    hdone.level d (mem_of_mem_take hd)⟩
  have htake : ruleStep h m x resultMax ⟨[], [], []⟩ ⟨.take, root, 0⟩ = some ⟨[root], [], []⟩ := rfl
  rw [crushDoRule_free hrule (by omega), ruleSteps, htake, bind_some, ruleSteps_append, hrun, bind_some,
    ruleSteps_emit rfl hempty]
  rfl

end plain

/-! ### The weights of the domains -/

theorem listLoop_returns (h : Hashes) (x r id : ℤ) {e : ℤ × ℕ} {post : List (ℤ × ℕ)} (hpos : 0 < u32 e.2)
    (hrest : u32 (post.map fun e => u32 e.2).sum = 0) : ∀ pre : List (ℤ × ℕ), ∃ item,
      listLoop h x r id ((pre ++ e :: post).map Prod.fst) ((pre ++ e :: post).map fun e => u32 e.2)
        (sumWeights ((pre ++ e :: post).map fun e => u32 e.2)) = some item
  | [] => by
    have hsum : u32 (u32 e.2 + 0) = u32 e.2 := by simp [u32]
    simp only [nil_append, map_cons, sumWeights, listLoop, sumWeights_headD, hrest, hsum]
    exact ⟨e.1, if_pos (scaled_lt _ hpos)⟩
  | a :: pre => by
    obtain ⟨item, hitem⟩ := listLoop_returns h x r id hpos hrest pre
    simp only [cons_append, map_cons, sumWeights, listLoop]
    split_ifs
    · exact ⟨a.1, rfl⟩
    · exact ⟨item, hitem⟩

theorem listLoop_none (h : Hashes) (x r id : ℤ) : ∀ entries : List (ℤ × ℕ), (∀ e ∈ entries, u32 e.2 = 0) →
    listLoop h x r id (entries.map Prod.fst) (entries.map fun e => u32 e.2) (sumWeights (entries.map fun e => u32 e.2)) = none
  | [], _ => by
    rw [map_nil, listLoop]
    intros
    contradiction
  | e :: entries, hzero => by
    simp only [map_cons, sumWeights, listLoop, hzero e mem_cons_self, not_lt_zero, if_false]
    exact listLoop_none h x r id entries fun e' he' => hzero e' (mem_cons_of_mem e he')

theorem u32_devices (j : ℕ) : u32 (j * 0x10000) = 0 ↔ 65536 ∣ j := by
  unfold u32
  omega

/-- Some domain has all the weight that there is from it on. -/
theorem domainEntries_weigh : ∀ (i o k : ℕ), o + i * nper < numOsd → numOsd ≤ o + (i + 1) * nper →
    (i = 0 → ¬ 65536 ∣ numOsd - o) → ¬ (65536 ∣ nper ∧ 65536 ∣ numOsd - o) →
      ∃ pre e post, domainEntries numOsd nper (i + 1) o k = pre ++ e :: post ∧ 0 < u32 e.2 ∧
        u32 (post.map fun e => u32 e.2).sum = 0
  | 0, o, k, hlow, hhigh, hone, _ => by
    have hmin : min nper (numOsd - o) = numOsd - o := by omega
    refine ⟨[], (-1 - (k : ℤ), (numOsd - o) * 0x10000), [], by rw [domainEntries, hmin]; rfl, ?_, rfl⟩
    exact pos_of_ne_zero (mt (u32_devices _).mp (hone rfl))
  | i + 1, o, k, hlow, hhigh, _, hw => by
    rw [Nat.succ_mul] at hlow
    rw [Nat.succ_mul] at hhigh
    have hmin : min nper (numOsd - o) = nper := by omega
    have hsum : numOsd - o = nper + (numOsd - (o + nper)) := by omega
    rw [domainEntries, hmin]
    by_cases hlast : i = 0 ∧ 65536 ∣ numOsd - (o + nper)
    · -- the last domain's weight vanishes, and the one before it does not
      obtain ⟨rfl, hdvd⟩ := hlast
      have hper : ¬ 65536 ∣ nper := fun hd => hw ⟨hd, by rw [hsum]; exact dvd_add hd hdvd⟩
      refine ⟨[], (-1 - (k : ℤ), nper * 0x10000), domainEntries numOsd nper 1 (o + nper) (k + 1), rfl, ?_, ?_⟩
      · exact pos_of_ne_zero (mt (u32_devices _).mp hper)
      · have hmin' : min nper (numOsd - (o + nper)) = numOsd - (o + nper) := by omega
        simp only [domainEntries, hmin', map_cons, map_nil, sum_cons, sum_nil,
          (u32_devices _).mpr hdvd]
        rfl
    · obtain ⟨pre, e, post, heq, hpos, hrest⟩ := domainEntries_weigh i (o + nper) (k + 1) (by omega) (by omega)
        (fun h0 hd => hlast ⟨h0, hd⟩) fun hd => hw ⟨hd.1, by rw [hsum]; exact dvd_add hd.1 hd.2⟩
      exact ⟨_ :: pre, e, post, by rw [heq, cons_append], hpos, hrest⟩

theorem domainEntries_zero (hper : 65536 ∣ nper) : ∀ i o k : ℕ, 65536 ∣ numOsd - o →
    ∀ e ∈ domainEntries numOsd nper i o k, u32 e.2 = 0
  | 0, _, _, _ => nofun
  | i + 1, o, k, hn => by
    have hmin : 65536 ∣ min nper (numOsd - o) := by
      rcases le_total nper (numOsd - o) with hle | hle
      · rwa [min_eq_left hle]
      · rwa [min_eq_right hle]
    refine forall_mem_cons.mpr ⟨(u32_devices _).mpr hmin, domainEntries_zero hper i _ _ ?_⟩
    rw [← Nat.sub_sub]
    exact Nat.dvd_sub hn hmin

/-! ### The map that is made -/

/-- What the rules work on. -/
structure Placing (h : Hashes) (rs : List Recipe) (m : Map) : Prop where
  finished : Finished h rs m
  offload : m.deviceOffload = some (List.replicate m.maxDevices 0)
  plain : ∀ r ∈ rs, r.isTree = false
  one : OneHolder rs

theorem placing (numOsd maxRep : ℕ) (minRaid maxRaid : ℤ)
    (rep raid : ℤ → List Step) (hm : assemble h rs = some m0) (hplain : ∀ r ∈ rs, r.isTree = false)
    (hnodup : (rs.flatMap Recipe.items).Nodup) (hall : ∀ d < numOsd, (d : ℤ) ∈ rs.flatMap Recipe.items) :
    ∃ m, (range numOsd).foldlM (setOffload 0) (finalize (addPlacement maxRep minRaid maxRaid rep raid m0)) = some m ∧
      Placing h rs m ∧ (∀ d < numOsd, (m.buckets.reduceOption.flatMap (·.items)).count (d : ℤ) = 1) ∧
      ∀ j, (m.rules[j]?).join = ruleAt (addPlacement maxRep minRaid maxRaid rep raid m0) j := by
  obtain ⟨rules, hrules⟩ := addPlacement_eq maxRep minRaid maxRaid rep raid m0
  obtain ⟨hf, hr, hoff, hbuckets⟩ := finished_rules hm rules
  have hone : OneHolder rs := (nodup_flatMap.mp hnodup).2
  have hdevices : ∀ i ∈ range numOsd, i < (finalize { m0 with rules }).maxDevices := by
    intro i hi
    obtain ⟨r, hrs, hmem⟩ := mem_flatMap.mp (hall i (mem_range.mp hi))
    obtain ⟨k, hk⟩ := mem_iff_getElem?.mp hrs
    have hlt := (hf.offloaded (x := 0) hk (Int.natCast_nonneg i) hmem).1
    omega
  refine ⟨_, by rw [hrules]; exact markIn_eq hoff _ hdevices, ⟨hf, hoff, hplain, hone⟩, fun d hd => ?_, fun j => ?_⟩
  · rw [hbuckets, items_plain hm hplain]
    exact count_eq_one_of_mem hnodup (hall d hd)
  · rw [hr, hrules]
    rfl

variable {maxRep : ℕ}

theorem installed {rep raid : ℤ → List Step} (hempty : m0.rules = [])
    {j : ℕ} {rule : List Step} (hrule : ruleAt (addPlacement maxRep minRaid maxRaid rep raid m0) j = some rule) :
    (∃ w : ℤ, 1 ≤ w ∧ w ≤ maxRep ∧ ¬ (minRaid ≤ w - 10 ∧ w - 10 ≤ maxRaid) ∧ rule = rep w) ∨
      ∃ w, minRaid ≤ w ∧ w ≤ maxRaid ∧ rule = raid w := by
  rcases ruleAt_cases (c := 10) (fun _ => rfl) _ _ _ _ _ hrule with ⟨hold, hout⟩ | ⟨v, hlow, hhigh, rfl, -⟩
  · rcases ruleAt_cases (c := 0) (fun w => (zero_add w).symm) _ _ _ _ _ hold with ⟨hnone, -⟩ | ⟨v, hlow, hhigh, rfl, hj⟩
    · rw [ruleAt, hempty] at hnone
      nomatch hnone
    · have hj' := hj (by omega)
      exact .inl ⟨v, by omega, by omega, by omega, rfl⟩
  · exact .inr ⟨v, hlow, by omega, rfl⟩

variable {w : ℤ}

theorem installed_rep (rep raid : ℤ → List Step) (m0 : Map) (hlow : 1 ≤ w)
    (hhigh : w ≤ maxRep) (hfree : ¬ (minRaid ≤ w - 10 ∧ w - 10 ≤ maxRaid)) :
    ∃ j, ruleAt (addPlacement maxRep minRaid maxRaid rep raid m0) j = some (rep w) := by
  refine ⟨(0 + w).toNat, ruleAt_kept (c := 10) (fun _ => rfl) _ _ _ _ _ ?_ (by omega)⟩
  exact ruleAt_number (c := 0) (fun w => (zero_add w).symm) _ _ _ w hlow (by omega) (by omega)

theorem installed_raid (maxRep : ℕ) (rep raid : ℤ → List Step) (m0 : Map)
    (hlow : minRaid ≤ w) (hhigh : w ≤ maxRaid) (hno : -10 ≤ w) :
    ∃ j, ruleAt (addPlacement maxRep minRaid maxRaid rep raid m0) j = some (raid w) :=
  ⟨_, ruleAt_number (c := 10) (fun _ => rfl) _ _ _ w hlow (by omega) (by omega)⟩

theorem installed_last (maxRep : ℕ) (rep raid : ℤ → List Step) (m0 : Map) (hle : minRaid ≤ maxRaid) :
    ∃ j, ruleAt (addPlacement maxRep minRaid maxRaid rep raid m0) j = some (raid maxRaid) := by
  obtain ⟨k, hk⟩ : ∃ k : ℕ, (maxRaid - minRaid + 1).toNat = k + 1 := ⟨(maxRaid - minRaid).toNat, by omega⟩
  have hlast : ∃ j, ruleAt (addRules (10 + ·) raid (k + 1) minRaid (addRules id rep maxRep 1 m0)) j =
      some (raid (minRaid + k)) := ruleAt_last k minRaid _
  obtain ⟨j, hj⟩ := hlast
  rw [show minRaid + (k : ℤ) = maxRaid by omega] at hj
  exact ⟨j, by rwa [addPlacement, hk]⟩

end Crush
end Ceph
