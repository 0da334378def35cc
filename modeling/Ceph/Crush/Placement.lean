/-
# Placing with the map the monitor makes

A rule that chooses devices from the one bucket of a small map, and a rule that
chooses domains from the root and a device of each, place on devices that are
pairwise distinct. With a domain left empty, with weights that vanish, with a
raid group wider than the domains or one of no width, the map is of no use.
-/
import Ceph.Crush.BuildMap

namespace Ceph
namespace Crush

open List
open Option hiding min_eq_right min_le_left

/-! ### Placing with a rule -/

section placing

variable {h : Hashes} {rs : List Recipe} {m : Map} {x : ℤ} {numOsd : ℕ}

/-- The bucket is there, and every draw from it yields an item. -/
def Draws1 (h : Hashes) (m : Map) (x i : ℤ) : Prop :=
  ∃ b, m.bucket i = some b ∧ ∀ r : ℕ, ∃ item, bucketChoose h b x r = some item

/-- The items of a bucket are devices of the cluster. -/
def OfDevices (rs : List Recipe) (numOsd : ℕ) (i : ℤ) : Prop := ∀ d ∈ kidsOf rs i, 0 ≤ d ∧ d < (numOsd : ℤ)

theorem itemType_device {d : ℤ} (hd : 0 ≤ d) : itemType m d = some 0 := by
  rw [itemType, if_neg (not_lt.mpr hd)]

theorem Placing.sound_devices (hp : Placing h rs m) {i : ℤ} (hdraws : Draws1 h m x i) (hdev : OfDevices rs numOsd i) :
    ∃ b, m.bucket i = some b ∧ Sound h m b x 0 := by
  obtain ⟨b, hb, hall⟩ := hdraws
  refine ⟨b, hb, fun r => ?_⟩
  obtain ⟨item, hitem⟩ := hall r
  have hmem := (yields_plain hp.finished hp.one hp.plain).drawn i b hb r item hitem
  have hpos := (hdev item hmem).1
  exact ⟨item, 0, hitem, itemType_device hpos, fun hne => absurd rfl hne, fun _ =>
    ⟨false, isOut_in hp.finished hp.offload hmem hpos⟩⟩

variable {op : Op}

/-- **A rule that chooses devices from a bucket of devices.** -/
theorem place_devices (hp : Placing h rs m) {root width : ℤ} {ruleno resultMax : ℕ}
    (hop : op = .chooseFirstn ∨ op = .chooseIndep) (hdraws : Draws1 h m x root) (hdev : OfDevices rs numOsd root)
    (hroom : min (max width.toNat 1) (kidsOf rs root).length ≤ maxSet)
    (hrule : (m.rules[ruleno]?).join = some (deviceRule root op width)) :
    ∃ result, crushDoRule h m ruleno x resultMax (-1) = some (.items result) ∧ result.Nodup ∧
      ∀ d ∈ result, 0 ≤ d ∧ d < (numOsd : ℤ) := by
  have hy := yields_plain (x := x) hp.finished hp.one hp.plain
  have ht : ∀ d ∈ kidsOf rs root, itemType m d = some 0 := fun d hd => itemType_device (hdev d hd).1
  have hret : ∃ p, chooseEach h m x width.toNat 0 (op = .chooseFirstn) [root] [] [] = some p ∧
      p.1.length ≤ ([] : List ℤ).length + [root].length * min (max width.toNat 1) (kidsOf rs root).length :=
    chooseEach_returns hy (forall_mem_singleton.mpr (hp.sound_devices hdraws hdev)) (forall_mem_singleton.mpr ht)
      (forall_mem_singleton.mpr le_rfl) (fun _ => .inl rfl) (by simpa using hroom)
  obtain ⟨p, hp', -⟩ := hret
  have hops : Chooses [⟨op, width, 0⟩] := forall_mem_singleton.mpr hop
  have hrun : ruleSteps h m x resultMax [⟨op, width, 0⟩] ⟨[root], [], []⟩ = some ⟨p.1, p.2, []⟩ := by
    rw [ruleSteps, ruleStep_choose hop (cons_ne_nil root []), hp']
    rfl
  have hrule' : (m.rules[ruleno]?).join = some (⟨.take, root, 0⟩ :: ([⟨op, width, 0⟩] ++ [⟨.emit, 0, 0⟩])) := hrule
  exact crushDoRule_level hy hrule' hops (fun d hd => ⟨ht d hd, hdev d hd⟩) hrun

/-- **A rule that chooses domains from the root, and a device of each.** -/
theorem place_domains (hp : Placing h rs m) {root width : ℤ} {ruleno resultMax : ℕ}
    (hop : op = .chooseFirstn ∨ op = .chooseIndep) (hdraws : Draws1 h m x root)
    (hdom : ∀ i ∈ kidsOf rs root, itemType m i = some 1 ∧ Draws1 h m x i ∧ OfDevices rs numOsd i)
    (hwidth : 1 ≤ width) (hroom : min (max width.toNat 1) (kidsOf rs root).length ≤ maxSet)
    (hrule : (m.rules[ruleno]?).join = some (domainRule root op width)) :
    ∃ result, crushDoRule h m ruleno x resultMax (-1) = some (.items result) ∧ result.Nodup ∧
      ∀ d ∈ result, 0 ≤ d ∧ d < (numOsd : ℤ) := by
  have hy := yields_plain (x := x) hp.finished hp.one hp.plain
  obtain ⟨b, hb, hall⟩ := hdraws
  have hsound : Sound h m b x 1 := by
    intro r
    obtain ⟨item, hitem⟩ := hall r
    exact ⟨item, 1, hitem, (hdom item (hy.drawn root b hb r item hitem)).1, fun hne => absurd rfl hne, nofun⟩
  have hret : ∃ p, chooseEach h m x width.toNat 1 (op = .chooseFirstn) [root] [] [] = some p ∧
      p.1.length ≤ ([] : List ℤ).length + [root].length * min (max width.toNat 1) (kidsOf rs root).length :=
    chooseEach_returns hy (forall_mem_singleton.mpr ⟨b, hb, hsound⟩)
      (forall_mem_singleton.mpr fun i hi => (hdom i hi).1) (forall_mem_singleton.mpr le_rfl) (fun _ => .inl rfl)
      (by simpa using hroom)
  obtain ⟨p, hp1, hlen⟩ := hret
  obtain ⟨hnodup, hfrom, hforce, -⟩ := chooseEach_spec hy (nodup_singleton root)
    (forall_mem_singleton.mpr fun i hi => (hdom i hi).1) (.inl rfl) hp1
  have hin : ∀ i ∈ p.1, i ∈ kidsOf rs root := by
    intro i hi
    obtain ⟨j, hj, hk⟩ := hfrom i hi
    rwa [mem_singleton.mp hj] at hk
  -- a domain is chosen at the least
  have hne : p.1 ≠ [] := by
    obtain ⟨item, hitem⟩ := hall 0
    obtain ⟨places, hplaces⟩ : ∃ places, width.toNat = places + 1 := ⟨width.toNat - 1, by omega⟩
    obtain ⟨items, hitems⟩ := crushChoose_first hsound hitem (hdom item (hy.drawn root b hb 0 item hitem)).1 one_ne_zero
      places (op = .chooseFirstn)
    rw [chooseEach_cons_free (.inl rfl), hb, bind_some, hplaces, hitems, bind_some] at hp1
    split_ifs at hp1
    cases hp1
    exact cons_ne_nil item items
  obtain ⟨cap, hcap⟩ : ∃ cap, ∀ i ∈ p.1, (kidsOf rs i).length ≤ cap :=
    ⟨(p.1.map fun i => (kidsOf rs i).length).foldr max 0, fun i hi =>
      le_max_of_le' 0 (mem_map_of_mem hi) le_rfl⟩
  have hone : p.1.length * min (max 1 1) cap ≤ maxSet := by
    have hmin : min (max 1 1) cap ≤ 1 := (min_le_left _ _).trans (max_self 1).le
    rw [length_nil, zero_add, length_singleton, one_mul] at hlen
    calc p.1.length * min (max 1 1) cap ≤ p.1.length * 1 := Nat.mul_le_mul_left _ hmin
      _ = p.1.length := mul_one _
      _ ≤ maxSet := hlen.trans hroom
  have hret2 : ∃ q, chooseEach h m x 1 0 (op = .chooseFirstn) p.1 [] [] = some q ∧
      q.1.length ≤ ([] : List ℤ).length + p.1.length * min (max 1 1) cap :=
    chooseEach_returns hy (fun i hi => hp.sound_devices (hdom i (hin i hi)).2.1 (hdom i (hin i hi)).2.2)
      (fun i hi d hd => itemType_device ((hdom i (hin i hi)).2.2 d hd).1) hcap (fun _ => .inl rfl) (by simpa using hone)
  obtain ⟨q, hq, -⟩ := hret2
  have hops : Chooses [⟨op, width, 1⟩, ⟨op, 1, 0⟩] := by
    simpa [Chooses] using hop
  have hrun : ruleSteps h m x resultMax [⟨op, width, 1⟩, ⟨op, 1, 0⟩] ⟨[root], [], []⟩ = some ⟨q.1, q.2, []⟩ := by
    have hforce' : p.2 = [] := hforce
    have hfirst : ruleStep h m x resultMax ⟨[root], [], []⟩ ⟨op, width, 1⟩ = some ⟨p.1, [], []⟩ := by
      rw [ruleStep_choose hop (cons_ne_nil root []), hp1, map_some, hforce']
    have hsecond : ruleStep h m x resultMax ⟨p.1, [], []⟩ ⟨op, 1, 0⟩ = some ⟨q.1, q.2, []⟩ := by
      rw [ruleStep_choose hop hne]
      exact congrArg (Option.map _) hq
    rw [ruleSteps, hfirst, bind_some, ruleSteps, hsecond]
    rfl
  have hrule' : (m.rules[ruleno]?).join =
      some (⟨.take, root, 0⟩ :: ([⟨op, width, 1⟩, ⟨op, 1, 0⟩] ++ [⟨.emit, 0, 0⟩])) := hrule
  refine crushDoRule_level hy hrule' hops (fun i hi => ⟨(hdom i hi).1, fun d hd => ?_⟩) hrun
  have hd' := (hdom i hi).2.2 d hd
  exact ⟨itemType_device hd'.1, hd'⟩

end placing

/-! ### Up to eleven devices -/

section small

variable {h : Hashes} {numOsd maxRep : ℕ} {minRaid maxRaid : ℤ}

/-- The one bucket. -/
def smallRecipes (numOsd : ℕ) : List Recipe := [.uniform 1 (devices 0 numOsd) 0x10000]

theorem small_made (h : Hashes) (maxRep : ℕ) (minRaid maxRaid : ℤ) (hpos : 1 ≤ numOsd) (hsmall : numOsd < 12) : ∃ m0 m,
    buildCrushMap h numOsd maxRep minRaid maxRaid = some m ∧ Placing h (smallRecipes numOsd) m ∧
      (∀ d < numOsd, (m.buckets.reduceOption.flatMap (·.items)).count (d : ℤ) = 1) ∧ m0.rules = [] ∧
      ∀ j, (m.rules[j]?).join =
        ruleAt (addPlacement maxRep minRaid maxRaid (deviceRule (-1) .chooseFirstn) (deviceRule (-1) .chooseIndep) m0) j := by
  have hne : devices 0 numOsd ≠ [] := fun h0 => by
    have hlen := congrArg length h0
    rw [length_devices, length_nil] at hlen
    omega
  obtain ⟨b, hb⟩ : ∃ b, makeUniformBucket h 1 (devices 0 numOsd) 0x10000 = some b := by
    obtain ⟨primes, hb, -⟩ := makeUniformBucket_some h 1 0x10000 hne
    exact ⟨_, hb⟩
  have hmake : Recipe.make h (.uniform 1 (devices 0 numOsd) 0x10000) = some b := hb
  have hnil : assemble h [] = some crushCreate := rfl
  have hm : assemble h (smallRecipes numOsd) = some (addBucket crushCreate b).1 := assemble_concat hnil hmake
  have hflat : (smallRecipes numOsd).flatMap Recipe.items = devices 0 numOsd := flatMap_singleton _ _
  obtain ⟨m, hmark, hplacing, hcount, hrules⟩ := placing numOsd maxRep minRaid maxRaid
    (deviceRule (-1) .chooseFirstn) (deviceRule (-1) .chooseIndep) hm
    (forall_mem_singleton.mpr rfl) (hflat ▸ nodup_devices 0 numOsd)
    (fun d hd => hflat ▸ mem_devices.mpr ⟨by omega, by omega⟩)
  refine ⟨(addBucket crushCreate b).1, m, ?_, hplacing, hcount, rfl, hrules⟩
  unfold buildCrushMap
  rw [if_neg (by omega), hb, map_some, bind_some, ← hmark]
  rfl

theorem small_rules {m0 m : Map} (hempty : m0.rules = []) (hrules : ∀ j, (m.rules[j]?).join =
      ruleAt (addPlacement maxRep minRaid maxRaid (deviceRule (-1) .chooseFirstn) (deviceRule (-1) .chooseIndep) m0) j)
    {j : ℕ} {rule : List Step} (hrule : (m.rules[j]?).join = some rule) :
    ∃ width op, Installs maxRep minRaid maxRaid width ∧ (op = .chooseFirstn ∨ op = .chooseIndep) ∧
      rule = deviceRule (-1) op width := by
  rw [hrules] at hrule
  rcases installed hempty hrule with ⟨w, hlow, hhigh, hfree, rfl⟩ | ⟨w, hlow, hhigh, rfl⟩
  · exact ⟨w, _, .inl ⟨hlow, hhigh, hfree⟩, .inl rfl, rfl⟩
  · exact ⟨w, _, .inr ⟨hlow, hhigh⟩, .inr rfl, rfl⟩

theorem small_kids (numOsd : ℕ) : kidsOf (smallRecipes numOsd) (-1) = devices 0 numOsd := rfl

theorem small_draws {m : Map} {x : ℤ} (hp : Placing h (smallRecipes numOsd) m) : Draws1 h m x (-1) := by
  obtain ⟨b, hmake, hb⟩ := hp.finished.bucket (k := 0) rfl
  refine ⟨_, hb, fun r => ?_⟩
  obtain ⟨item, -, hitem⟩ := make_chooses (r := .uniform 1 (devices 0 numOsd) 0x10000) hmake trivial (-1) x r
  exact ⟨item, hitem⟩

theorem small_usable (hpos : 1 ≤ numOsd) (hsmall : numOsd < 12)
    (hfine : numOsd = 11 → ∀ width, Installs maxRep minRaid maxRaid width → width ≤ 10) :
    Usable h numOsd maxRep minRaid maxRaid := by
  obtain ⟨m0, m, hbuild, hp, hcount, hempty, hrules⟩ := small_made h maxRep minRaid maxRaid hpos hsmall
  refine ⟨m, hbuild, hcount, fun ruleno rule hrule x resultMax => ?_⟩
  obtain ⟨width, op, hin, hop, rfl⟩ := small_rules hempty hrules hrule
  refine place_devices hp hop (small_draws hp) (fun d hd => ?_) ?_ hrule
  · rw [small_kids, mem_devices] at hd
    omega
  · rw [small_kids, length_devices, maxSet]
    by_cases h11 : numOsd = 11
    · have hle := hfine h11 width hin
      omega
    · omega

end small

/-! ### More devices -/

section large

variable {h : Hashes} {numOsd maxRep : ℕ} {minRaid maxRaid : ℤ}

/-- The domains, and the root over them. -/
def largeRecipes (numOsd maxRep : ℕ) : List Recipe :=
  domains numOsd ((numOsd - 1) / maxRep + 1) maxRep 0 ++
    [.list 2 (domainEntries numOsd ((numOsd - 1) / maxRep + 1) maxRep 0 0)]

theorem length_domains (numOsd nper : ℕ) : ∀ i o : ℕ, (domains numOsd nper i o).length = i
  | 0, _ => rfl
  | i + 1, o => by rw [domains, length_cons, length_domains numOsd nper i]

theorem domains_uniform {numOsd nper : ℕ} : ∀ {i o : ℕ}, ∀ r ∈ domains numOsd nper i o,
    ∃ items, r = .uniform 1 items 0x10000
  | 0, _ => nofun
  | _ + 1, _ => forall_mem_cons.mpr ⟨⟨_, rfl⟩, domains_uniform⟩

theorem devices_le (hrep : 1 ≤ maxRep) (hpos : 1 ≤ numOsd) : numOsd ≤ maxRep * ((numOsd - 1) / maxRep + 1) := by
  have hlt := Nat.lt_mul_div_succ (numOsd - 1) hrep
  omega

theorem flatMap_large (hrep : 1 ≤ maxRep) (hpos : 1 ≤ numOsd) : (largeRecipes numOsd maxRep).flatMap Recipe.items =
    devices 0 numOsd ++ (range maxRep).map fun j => -1 - ((0 + j : ℕ) : ℤ) := by
  have hle := devices_le hrep hpos
  rw [largeRecipes, flatMap_append, flatMap_domains, flatMap_singleton, Recipe.items, domainEntries_fst,
    Nat.sub_zero, min_eq_right hle]

theorem nodup_large (hrep : 1 ≤ maxRep) (hpos : 1 ≤ numOsd) : ((largeRecipes numOsd maxRep).flatMap Recipe.items).Nodup := by
  rw [flatMap_large hrep hpos]
  refine (nodup_devices 0 numOsd).append (nodup_range.map fun a b hab => ?_) fun d hd hd' => ?_
  · omega
  · obtain ⟨j, -, rfl⟩ := List.mem_map.mp hd'
    rw [mem_devices] at hd
    omega

variable {m0 : Map}

theorem root_number (hm : assemble h (domains numOsd ((numOsd - 1) / maxRep + 1) maxRep 0) = some m0) (b : Bucket) :
    (addBucket m0 b).2 = -1 - (maxRep : ℤ) := by
  rw [addBucket_id hm, length_domains]

/-- The rules of a map with domains. -/
def largeRep (maxRep : ℕ) : ℤ → List Step := domainRule (-1 - (maxRep : ℤ)) .chooseFirstn

def largeRaid (maxRep : ℕ) (i : ℤ) : List Step :=
  if i ≤ maxRep then domainRule (-1 - (maxRep : ℤ)) .chooseIndep i else deviceRule (-1 - (maxRep : ℤ)) .chooseIndep i

theorem large_made (h : Hashes) (minRaid maxRaid : ℤ) (hlarge : 12 ≤ numOsd) (hrep : 1 ≤ maxRep)
    (hlast : (maxRep - 1) * ((numOsd - 1) / maxRep + 1) < numOsd) : ∃ m0 m,
    buildCrushMap h numOsd maxRep minRaid maxRaid = some m ∧ Placing h (largeRecipes numOsd maxRep) m ∧
      (∀ d < numOsd, (m.buckets.reduceOption.flatMap (·.items)).count (d : ℤ) = 1) ∧ m0.rules = [] ∧
      ∀ j, (m.rules[j]?).join =
        ruleAt (addPlacement maxRep minRaid maxRaid (largeRep maxRep) (largeRaid maxRep) m0) j := by
  have hpos : 1 ≤ numOsd := by omega
  have hne := (domains_nonempty numOsd (Nat.succ_pos ((numOsd - 1) / maxRep)) maxRep 0).mpr
    (.inr ((zero_add _).trans_lt hlast))
  have hnil : assemble h [] = some crushCreate := rfl
  obtain ⟨m1, hadd, hm1⟩ := addDomains_assemble hnil hne
  have hmake : Recipe.make h (.list 2 (domainEntries numOsd ((numOsd - 1) / maxRep + 1) maxRep 0 0)) =
      some (makeListBucket 2 (domainEntries numOsd ((numOsd - 1) / maxRep + 1) maxRep 0 0)) := rfl
  have hm := assemble_concat hm1 hmake
  have hplain : ∀ r ∈ largeRecipes numOsd maxRep, r.isTree = false := by
    intro r hr
    rcases mem_append.mp hr with hr | hr
    · obtain ⟨items, rfl⟩ := domains_uniform r hr
      rfl
    · rw [mem_singleton.mp hr]
      rfl
  have hall : ∀ d < numOsd, (d : ℤ) ∈ (largeRecipes numOsd maxRep).flatMap Recipe.items := by
    intro d hd
    rw [flatMap_large hrep hpos]
    exact mem_append_left _ (mem_devices.mpr ⟨by omega, by omega⟩)
  obtain ⟨m, hmark, hplacing, hcount, hrules⟩ := placing numOsd maxRep minRaid maxRaid (largeRep maxRep) (largeRaid maxRep) hm
    hplain (nodup_large hrep hpos) hall
  obtain ⟨bs, ha⟩ := assembled hm
  refine ⟨_, m, ?_, hplacing, hcount, ha.rules, hrules⟩
  unfold buildCrushMap
  rw [if_pos hlarge]
  dsimp only
  rw [if_neg (by omega), hadd, map_some, bind_some, ← hmark]
  rw [root_number hm1]
  rfl

variable {m : Map}

theorem large_rules (hempty : m0.rules = []) (hrules : ∀ j, (m.rules[j]?).join =
      ruleAt (addPlacement maxRep minRaid maxRaid (largeRep maxRep) (largeRaid maxRep) m0) j)
    (hwidths : ∀ width, minRaid ≤ width → width ≤ maxRaid → 1 ≤ width ∧ width ≤ maxRep)
    {j : ℕ} {rule : List Step} (hrule : (m.rules[j]?).join = some rule) :
    ∃ width op, Installs maxRep minRaid maxRaid width ∧ 1 ≤ width ∧ (op = .chooseFirstn ∨ op = .chooseIndep) ∧
      rule = domainRule (-1 - (maxRep : ℤ)) op width := by
  rw [hrules] at hrule
  rcases installed hempty hrule with ⟨w, hlow, hhigh, hfree, rfl⟩ | ⟨w, hlow, hhigh, rfl⟩
  · exact ⟨w, _, .inl ⟨hlow, hhigh, hfree⟩, hlow, .inl rfl, rfl⟩
  · obtain ⟨hone, hle⟩ := hwidths w hlow hhigh
    exact ⟨w, _, .inr ⟨hlow, hhigh⟩, hone, .inr rfl, if_pos hle⟩

theorem root_recipe (numOsd maxRep : ℕ) : (largeRecipes numOsd maxRep)[maxRep]? =
    some (.list 2 (domainEntries numOsd ((numOsd - 1) / maxRep + 1) maxRep 0 0)) := by
  have hlen := length_domains numOsd ((numOsd - 1) / maxRep + 1) maxRep 0
  rw [largeRecipes, getElem?_append_right (by omega), hlen, Nat.sub_self]
  rfl

theorem root_kids (numOsd maxRep : ℕ) :
    kidsOf (largeRecipes numOsd maxRep) (-1 - (maxRep : ℤ)) = (range maxRep).map fun j => -1 - ((0 + j : ℕ) : ℤ) := by
  rw [kidsOf_eq (root_recipe numOsd maxRep), Recipe.items, domainEntries_fst]

/-- What is below the root is a domain, and its items are devices. -/
theorem domain_ready {x i : ℤ} (hrep : 1 ≤ maxRep) (hpos : 1 ≤ numOsd) (hp : Placing h (largeRecipes numOsd maxRep) m)
    (hi : i ∈ kidsOf (largeRecipes numOsd maxRep) (-1 - (maxRep : ℤ))) :
    itemType m i = some 1 ∧ Draws1 h m x i ∧ OfDevices (largeRecipes numOsd maxRep) numOsd i := by
  rw [root_kids] at hi
  obtain ⟨j, hj, rfl⟩ := List.mem_map.mp hi
  rw [zero_add]
  have hlt := mem_range.mp hj
  -- the domain as it was made
  have hlen := length_domains numOsd ((numOsd - 1) / maxRep + 1) maxRep 0
  obtain ⟨r, hr⟩ : ∃ r : Recipe, (domains numOsd ((numOsd - 1) / maxRep + 1) maxRep 0)[j]? = some r :=
    ⟨_, getElem?_eq_getElem (by omega)⟩
  have hr' : (largeRecipes numOsd maxRep)[j]? = some r := by
    rw [largeRecipes, getElem?_append_left (by omega), hr]
  have hmem := mem_of_getElem? hr
  obtain ⟨items, rfl⟩ := domains_uniform r hmem
  obtain ⟨b, hmake, hb⟩ := hp.finished.bucket hr'
  have htype : b.type = 1 := by
    obtain ⟨-, hmake⟩ := ite_none_left_eq_some.mp hmake
    obtain ⟨primes, -, rfl⟩ := map_eq_some_iff.mp hmake
    rfl
  refine ⟨?_, ⟨_, hb, fun r => ?_⟩, fun d hd => ?_⟩
  · rw [itemType_bucket hb, htype]
    rfl
  · obtain ⟨item, -, hitem⟩ := make_chooses hmake trivial (-1 - (j : ℤ)) x r
    exact ⟨item, hitem⟩
  · rw [kidsOf_eq hr'] at hd
    have hall : d ∈ (domains numOsd ((numOsd - 1) / maxRep + 1) maxRep 0).flatMap Recipe.items :=
      mem_flatMap.mpr ⟨_, hmem, hd⟩
    rw [flatMap_domains, Nat.sub_zero, min_eq_right (devices_le hrep hpos), mem_devices] at hall
    omega

theorem root_bucket (hp : Placing h (largeRecipes numOsd maxRep) m) :
    ∃ b, m.bucket (-1 - (maxRep : ℤ)) = some b ∧ ∀ x r : ℤ, bucketChoose h b x r =
      listLoop h x r (-1 - (maxRep : ℤ)) ((domainEntries numOsd ((numOsd - 1) / maxRep + 1) maxRep 0 0).map Prod.fst)
        ((domainEntries numOsd ((numOsd - 1) / maxRep + 1) maxRep 0 0).map fun e => u32 e.2)
        (sumWeights ((domainEntries numOsd ((numOsd - 1) / maxRep + 1) maxRep 0 0).map fun e => u32 e.2)) := by
  obtain ⟨b, hmake, hb⟩ := hp.finished.bucket (root_recipe numOsd maxRep)
  cases hmake
  exact ⟨_, hb, fun _ _ => rfl⟩

theorem root_draws {x : ℤ} (hrep : 1 ≤ maxRep) (hpos : 1 ≤ numOsd) (hp : Placing h (largeRecipes numOsd maxRep) m)
    (hlast : (maxRep - 1) * ((numOsd - 1) / maxRep + 1) < numOsd)
    (hweight : ¬ (65536 ∣ (numOsd - 1) / maxRep + 1 ∧ 65536 ∣ numOsd)) : Draws1 h m x (-1 - (maxRep : ℤ)) := by
  obtain ⟨b, hb, hdraw⟩ := root_bucket hp
  refine ⟨b, hb, fun r => ?_⟩
  rw [hdraw]
  obtain ⟨k, rfl⟩ : ∃ k, maxRep = k + 1 := ⟨maxRep - 1, by omega⟩
  rw [Nat.add_sub_cancel] at hlast
  have hle := devices_le hrep hpos
  have hone : k = 0 → ¬ 65536 ∣ numOsd - 0 := by
    rintro rfl hdvd
    refine hweight ⟨?_, hdvd⟩
    rw [Nat.zero_add, Nat.div_one, Nat.sub_add_cancel hpos]
    exact hdvd
  have hlow : 0 + k * ((numOsd - 1) / (k + 1) + 1) < numOsd := by omega
  have hhigh : numOsd ≤ 0 + (k + 1) * ((numOsd - 1) / (k + 1) + 1) := by omega
  obtain ⟨pre, e, post, heq, hw, hrest⟩ := domainEntries_weigh k 0 0 hlow hhigh hone hweight
  rw [heq]
  exact listLoop_returns h x r _ hw hrest pre

/-- **With more devices the map is usable**, if no rule asks for more domains than there are. -/
theorem large_usable (hlarge : 12 ≤ numOsd) (hrep : 1 ≤ maxRep)
    (hlast : (maxRep - 1) * ((numOsd - 1) / maxRep + 1) < numOsd)
    (hweight : ¬ (65536 ∣ (numOsd - 1) / maxRep + 1 ∧ 65536 ∣ numOsd))
    (hwidths : ∀ width, minRaid ≤ width → width ≤ maxRaid → 1 ≤ width ∧ width ≤ maxRep)
    (hten : ∀ width, Installs maxRep minRaid maxRaid width → width ≤ 10) : Usable h numOsd maxRep minRaid maxRaid := by
  have hpos : 1 ≤ numOsd := by omega
  obtain ⟨m0, m, hbuild, hp, hcount, hempty, hrules⟩ := large_made h minRaid maxRaid hlarge hrep hlast
  refine ⟨m, hbuild, hcount, fun ruleno rule hrule x resultMax => ?_⟩
  obtain ⟨width, op, hin, hone, hop, rfl⟩ := large_rules hempty hrules hwidths hrule
  have hle := hten width hin
  refine place_domains hp hop (root_draws hrep hpos hp hlast hweight) (fun i hi => domain_ready hrep hpos hp hi) hone ?_ hrule
  rw [maxSet]
  omega


end large

/-! ### Where the map is of no use -/

section useless

variable {h : Hashes} {m : Map} {x : ℤ} {numOsd maxRep : ℕ} {minRaid maxRaid : ℤ}

variable {ruleno resultMax : ℕ} {b : Bucket}

variable {root : ℤ} {steps : List Step}

theorem crushDoRule_take (hrule : (m.rules[ruleno]?).join = some (⟨.take, root, 0⟩ :: steps)) :
    crushDoRule h m ruleno x resultMax (-1) =
      (ruleSteps h m x resultMax steps ⟨[root], [], []⟩).map fun k => .items k.result := by
  rw [crushDoRule_free hrule (by omega), ruleSteps]
  rfl

variable {type : ℤ}

theorem chooseEach_single {numrep : ℕ} {firstn : Bool} (hb : m.bucket root = some b) :
    chooseEach h m x numrep type firstn [root] [] [] =
      (crushChoose h m b x numrep type [] firstn).bind fun out => if maxSet < out.length then none else some (out, []) := by
  rw [chooseEach_cons_free (.inl rfl), hb, bind_some]
  rfl

variable {width : ℤ}

theorem crushDoRule_stuck {op : Op} (hop : op = .chooseFirstn ∨ op = .chooseIndep)
    (hrule : (m.rules[ruleno]?).join = some (⟨.take, root, 0⟩ :: ⟨op, width, type⟩ :: steps))
    (hnone : chooseEach h m x width.toNat type (op = .chooseFirstn) [root] [] [] = none) :
    crushDoRule h m ruleno x resultMax (-1) = none := by
  rw [crushDoRule_take hrule, ruleSteps, ruleStep_choose hop (cons_ne_nil root [])]
  rw [hnone]
  rfl

theorem domainRule_empty (hb : m.bucket root = some b)
    (hwidth : width ≤ 0) (hrule : (m.rules[ruleno]?).join = some (domainRule root .chooseIndep width)) :
    crushDoRule h m ruleno x resultMax (-1) = none := by
  have hzero : width.toNat = 0 := Int.toNat_eq_zero.mpr hwidth
  have hfirst : chooseEach h m x 0 1 (Op.chooseIndep = .chooseFirstn) [root] [] [] = some ([], []) := by
    rw [chooseEach_single hb]
    rfl
  rw [crushDoRule_take hrule, ruleSteps, ruleStep_choose (.inr rfl) (cons_ne_nil root [])]
  rw [hzero, hfirst]
  rfl

theorem deviceRule_domain {ruleno : ℕ} {result : List ℤ} (hb : m.bucket root = some b)
    (hwidth : 1 ≤ width)
    (hdraw : ∀ r : ℕ, ∃ item, bucketChoose h b x r = some item ∧ itemType m item = some 1 ∧ item < 0)
    (hrule : (m.rules[ruleno]?).join = some (deviceRule root .chooseIndep width))
    (hresult : crushDoRule h m ruleno x 1 (-1) = some (.items result)) : ∃ item ∈ result, item < 0 := by
  obtain ⟨places, hplaces⟩ : ∃ places, width.toNat = places + 1 := ⟨width.toNat - 1, by omega⟩
  have hsound : Sound h m b x 0 := by
    intro r
    obtain ⟨item, hitem, htype, hneg⟩ := hdraw r
    exact ⟨item, 1, hitem, htype, fun _ => hneg, fun h0 => absurd h0 one_ne_zero⟩
  obtain ⟨item, hitem, htype, hneg⟩ := hdraw 0
  obtain ⟨items, hitems⟩ := crushChoose_first hsound hitem htype one_ne_zero places (Op.chooseIndep = .chooseFirstn)
  rw [crushDoRule_take hrule, ruleSteps, ruleStep_choose (.inr rfl) (cons_ne_nil root [])] at hresult
  rw [hplaces, chooseEach_single hb, hitems, bind_some] at hresult
  split_ifs at hresult
  · cases hresult
  · cases hresult
    exact ⟨item, mem_cons_self, hneg⟩

theorem chooseLoop_fills (numrep : ℕ) (firstn : Bool) {n : ℕ} {f : ℕ → ℤ}
    (hdraw : ∀ r < n, bucketChoose h b x r = some (f r)) (htype : ∀ r < n, itemType m (f r) = some 0)
    (hin : ∀ r < n, isOut h m (f r) x = some false) (hinj : ∀ r < n, ∀ r' < r, f r' ≠ f r) (more : ℕ) :
    ∀ k rep : ℕ, rep + k = n → chooseLoop h m b x numrep 0 firstn (k + more) rep ((range rep).map f) =
      chooseLoop h m b x numrep 0 firstn more n ((range n).map f)
  | 0, rep, hn => by
    obtain rfl : rep = n := by omega
    rw [zero_add]
  | k + 1, rep, hn => by
    have hlt : rep < n := by omega
    have hfresh : ((range rep).map f).contains (f rep) = false := by
      rw [Bool.eq_false_iff, ne_eq, contains_iff_mem, List.mem_map]
      rintro ⟨r', hr', heq⟩
      exact hinj rep hlt r' (mem_range.mp hr') heq
    have htry : tryRep h m b x numrep 0 firstn rep ((range rep).map f) maxTrials 0 0 = some (some (f rep)) := by
      rw [maxTrials, tryRep, trial_first, hdraw rep hlt]
      simp only [bind_some, htype rep hlt, hin rep hlt, hfresh]
      rfl
    rw [Nat.succ_add, chooseLoop, htry, bind_some, ← chooseLoop_fills numrep firstn hdraw htype hin hinj more k (rep + 1) (by omega),
      range_succ, map_append]
    rfl

end useless

/-! ### Eleven devices -/

section eleven

variable {h : Hashes} {m : Map} {maxRep : ℕ} {minRaid maxRaid : ℤ}

theorem toNat_ofInt {n : ℕ} (hn : n < 2 ^ 32) : (UInt32.ofInt (n : ℤ)).toNat = n := by
  have hmod : ((n : ℤ) % 2 ^ 32).toNat = n := by omega
  rw [UInt32.ofInt, UInt32.toNat_ofNat', hmod, Nat.mod_eq_of_lt hn]

/-- The first draws for the places of the bucket, for seed 0: steps of one prime, round the bucket. -/
theorem eleven_draws (hp : Placing h (smallRecipes 11) m) : ∃ b o p, m.bucket (-1) = some b ∧ p.Prime ∧ 11 < p ∧
    ∀ r < 11, bucketChoose h b 0 (r : ℕ) = some (((o + (r + 1) * p) % 11 : ℕ) : ℤ) := by
  have hne : devices 0 11 ≠ [] := by decide
  obtain ⟨primes, hmade, hlen, hprimes⟩ := makeUniformBucket_some h 1 0x10000 hne
  obtain ⟨b, hmake, hb⟩ := hp.finished.bucket (k := 0) rfl
  cases hmade.symm.trans hmake
  rw [length_devices] at hlen hprimes
  -- the prime of the seed
  obtain ⟨k, hk⟩ : ∃ k, k = (h.hash32_2 (UInt32.ofInt (-1)) (UInt32.ofInt 0)).toNat % 11 := ⟨_, rfl⟩
  have hlt : k < primes.length := by omega
  obtain ⟨hprime, hgt, hle⟩ := hprimes primes[k] (getElem_mem hlt)
  have hp32 : u32 primes[k] = primes[k] := Nat.mod_eq_of_lt (by omega)
  have hget : (primes.map u32)[k]? = some primes[k] := by
    rw [getElem?_map, getElem?_eq_getElem hlt, map_some, hp32]
  obtain ⟨o, ho⟩ : ∃ o, o = low16 (h.hash32_2 (UInt32.ofInt 0) (UInt32.ofInt (-1))) := ⟨_, rfl⟩
  have hsmall : o < 2 ^ 16 := ho ▸ Nat.mod_lt _ (by decide)
  refine ⟨_, o, primes[k], hb, hprime, hgt, fun r hr => ?_⟩
  have hbound : o + (r + 1) * primes[k] < 2 ^ 32 := by
    have hmul : (r + 1) * primes[k] ≤ 11 * ((4 * 11 + 1) * (1 + 2 * 4 ^ 11)) := Nat.mul_le_mul (by omega) hle
    omega
  have hsum : (0 : ℤ) + o + ((r : ℤ) + 1) * primes[k] = ((o + (r + 1) * primes[k] : ℕ) : ℤ) := by
    push_cast
    ring
  have hitem : (devices 0 11)[(o + (r + 1) * primes[k]) % 11]? = some (((o + (r + 1) * primes[k]) % 11 : ℕ) : ℤ) := by
    rw [devices, getElem?_map, getElem?_range (Nat.mod_lt _ (by decide))]
    simp
  simp only [bucketChoose, uniformChoose, length_devices]
  rw [if_neg (by decide)]
  have hid : (-1 : ℤ) - ((0 : ℕ) : ℤ) = -1 := rfl
  rw [hid, ← hk, hget, bind_some, ← ho, hsum, toNat_ofInt hbound, hitem]

theorem eleven_distinct {o p : ℕ} (hp : p.Prime) (hgt : 11 < p) {r r' : ℕ} (hr : r < 11) (hlt : r' < r) :
    (o + (r' + 1) * p) % 11 ≠ (o + (r + 1) * p) % 11 := by
  intro heq
  have hmod : (r' + 1) * p ≡ (r + 1) * p [MOD 11] := Nat.ModEq.add_left_cancel' o heq
  have hcop : Nat.gcd 11 p = 1 := (Nat.coprime_primes (by decide) hp).mpr (by omega)
  have hsame : r' + 1 ≡ r + 1 [MOD 11] := Nat.ModEq.cancel_right_of_coprime hcop hmod
  unfold Nat.ModEq at hsame
  omega

/-- **More than ten of eleven devices are more than the arrays hold.** -/
theorem eleven_stuck (hp : Placing h (smallRecipes 11) m) {ruleno resultMax : ℕ} {width : ℤ} {op : Op}
    (hop : op = .chooseFirstn ∨ op = .chooseIndep) (hwide : 10 < width)
    (hrule : (m.rules[ruleno]?).join = some (deviceRule (-1) op width)) :
    crushDoRule h m ruleno 0 resultMax (-1) = none := by
  obtain ⟨b, o, p, hb, hprime, hgt, hdraw⟩ := eleven_draws hp
  obtain ⟨more, hmore⟩ : ∃ more, width.toNat = 11 + more := ⟨width.toNat - 11, by omega⟩
  have hkid : ∀ r < 11, (((o + (r + 1) * p) % 11 : ℕ) : ℤ) ∈ kidsOf (smallRecipes 11) (-1) := by
    intro r _
    rw [small_kids, mem_devices]
    omega
  have hfill := chooseLoop_fills width.toNat (op = .chooseFirstn) hdraw
    (fun r _ => itemType_device (Int.natCast_nonneg _))
    (fun r hr => isOut_in hp.finished hp.offload (hkid r hr) (Int.natCast_nonneg _))
    (fun r hr r' hlt heq => eleven_distinct hprime hgt hr hlt (Int.natCast_inj.mp heq)) more 11 0 rfl
  refine crushDoRule_stuck hop hrule ?_
  rw [chooseEach_single hb, crushChoose]
  rw [length_nil, Nat.sub_zero]
  have hstart : chooseLoop h m b 0 width.toNat 0 (op = .chooseFirstn) width.toNat 0 [] =
      chooseLoop h m b 0 width.toNat 0 (op = .chooseFirstn) more 11
        ((range 11).map fun r => (((o + (r + 1) * p) % 11 : ℕ) : ℤ)) := by
    rw [← hfill, ← hmore]
    rfl
  rw [hstart]
  refine bind_eq_none_iff.mpr fun out hout => if_pos ?_
  obtain ⟨items, rfl, -⟩ := chooseLoop_drawn hout
  rw [length_append, length_map, length_range, maxSet]
  omega

end eleven

/-! ### When the map is usable -/

section fine

variable {h : Hashes} {numOsd maxRep : ℕ} {minRaid maxRaid : ℤ}

variable {width : ℤ}

theorem small_installed {m0 m : Map} (hrules : ∀ j, (m.rules[j]?).join =
      ruleAt (addPlacement maxRep minRaid maxRaid (deviceRule (-1) .chooseFirstn) (deviceRule (-1) .chooseIndep) m0) j)
    (hin : Installs maxRep minRaid maxRaid width) (hno : -10 ≤ width) :
    ∃ (ruleno : ℕ) (op : Op), (op = .chooseFirstn ∨ op = .chooseIndep) ∧ (m.rules[ruleno]?).join = some (deviceRule (-1) op width) := by
  rcases hin with ⟨hlow, hhigh, hfree⟩ | ⟨hlow, hhigh⟩
  · obtain ⟨j, hj⟩ := installed_rep (deviceRule (-1) .chooseFirstn) (deviceRule (-1) .chooseIndep) m0 hlow hhigh hfree
    exact ⟨j, _, .inl rfl, (hrules j).trans hj⟩
  · obtain ⟨j, hj⟩ := installed_raid maxRep (deviceRule (-1) .chooseFirstn) (deviceRule (-1) .chooseIndep) m0 hlow
      hhigh hno
    exact ⟨j, _, .inr rfl, (hrules j).trans hj⟩

theorem small_fine (hsmall : numOsd < 12) (hu : Usable h numOsd maxRep minRaid maxRaid) :
    numOsd = 11 → ∀ width, Installs maxRep minRaid maxRaid width → width ≤ 10 := by
  rintro rfl width hin
  by_contra hwide
  obtain ⟨m0, m, hbuild, hp, -, -, hrules⟩ := small_made h maxRep minRaid maxRaid (by decide) hsmall
  obtain ⟨m', hbuild', -, hplace⟩ := hu
  cases hbuild.symm.trans hbuild'
  obtain ⟨j, op, hop, hj⟩ := small_installed hrules hin (by omega)
  obtain ⟨result, hresult, -⟩ := hplace j _ hj 0 0
  rw [eleven_stuck hp hop (by omega) hj] at hresult
  nomatch hresult

theorem large_last (hlarge : 12 ≤ numOsd) (hrep : 1 ≤ maxRep) (hu : Usable h numOsd maxRep minRaid maxRaid) :
    (maxRep - 1) * ((numOsd - 1) / maxRep + 1) < numOsd := by
  by_contra hfull
  obtain ⟨m, hbuild, -⟩ := hu
  have hempty : ∃ r ∈ domains numOsd ((numOsd - 1) / maxRep + 1) maxRep 0, r.items = [] := by
    by_contra hne
    push Not at hne
    rcases (domains_nonempty numOsd (Nat.succ_pos ((numOsd - 1) / maxRep)) maxRep 0).mp hne with h0 | hlt
    · omega
    · rw [zero_add, Nat.succ_eq_add_one] at hlt
      exact hfull hlt
  unfold buildCrushMap at hbuild
  rw [if_pos hlarge] at hbuild
  dsimp only at hbuild
  rw [if_neg (by omega), addDomains_none hempty] at hbuild
  nomatch hbuild

/-- What is known of a map with domains that is usable. -/
structure LargeMap (h : Hashes) (numOsd maxRep : ℕ) (minRaid maxRaid : ℤ) (m0 m : Map) : Prop where
  placing : Placing h (largeRecipes numOsd maxRep) m
  rules : ∀ j, (m.rules[j]?).join =
    ruleAt (addPlacement maxRep minRaid maxRaid (largeRep maxRep) (largeRaid maxRep) m0) j
  places : ∀ (ruleno : ℕ) (rule : List Step), (m.rules[ruleno]?).join = some rule → ∀ (x : ℤ) (resultMax : ℕ),
    ∃ result, crushDoRule h m ruleno x resultMax (-1) = some (.items result) ∧ ∀ d ∈ result, 0 ≤ d

theorem largeMap (hlarge : 12 ≤ numOsd) (hrep : 1 ≤ maxRep) (hu : Usable h numOsd maxRep minRaid maxRaid) :
    ∃ m0 m, LargeMap h numOsd maxRep minRaid maxRaid m0 m := by
  obtain ⟨m0, m, hbuild, hp, -, -, hrules⟩ := large_made h minRaid maxRaid hlarge hrep
    (large_last hlarge hrep hu)
  obtain ⟨m', hbuild', -, hplace⟩ := hu
  cases hbuild.symm.trans hbuild'
  refine ⟨m0, m, hp, hrules, fun ruleno rule hrule x resultMax => ?_⟩
  obtain ⟨result, hresult, -, hdev⟩ := hplace ruleno rule hrule x resultMax
  exact ⟨result, hresult, fun d hd => (hdev d hd).1⟩

theorem LargeMap.width_pos {m0 m : Map} (hm : LargeMap h numOsd maxRep minRaid maxRaid m0 m)
    (hlow : minRaid ≤ width) (hhigh : width ≤ maxRaid) : 1 ≤ width := by
  by_contra hneg
  obtain ⟨w, hw⟩ : ∃ w, w = min maxRaid 0 := ⟨_, rfl⟩
  obtain ⟨j, hj⟩ : ∃ j, ruleAt (addPlacement maxRep minRaid maxRaid (largeRep maxRep) (largeRaid maxRep) m0) j =
      some (largeRaid maxRep w) := by
    by_cases hno : -10 ≤ w
    · exact installed_raid maxRep _ _ m0 (by omega) (by omega) hno
    · obtain rfl : w = maxRaid := by omega
      exact installed_last maxRep _ _ m0 (hlow.trans hhigh)
  have hrule : (m.rules[j]?).join = some (domainRule (-1 - (maxRep : ℤ)) .chooseIndep w) := by
    rw [hm.rules, hj, largeRaid, if_pos (by omega)]
  obtain ⟨b, hb, -⟩ := root_bucket hm.placing
  obtain ⟨result, hresult, -⟩ := hm.places j _ hrule 0 0
  rw [domainRule_empty hb (by omega) hrule] at hresult
  nomatch hresult

theorem LargeMap.weight {m0 m : Map} (hrep : 1 ≤ maxRep) (hm : LargeMap h numOsd maxRep minRaid maxRaid m0 m) :
    ¬ (65536 ∣ (numOsd - 1) / maxRep + 1 ∧ 65536 ∣ numOsd) := by
  rintro ⟨hper, hn⟩
  have hfree : ¬ (minRaid ≤ (1 : ℤ) - 10 ∧ (1 : ℤ) - 10 ≤ maxRaid) := by
    rintro ⟨hlow, hhigh⟩
    exact absurd (hm.width_pos hlow hhigh) (by decide)
  obtain ⟨j, hj⟩ := installed_rep (largeRep maxRep) (largeRaid maxRep) m0 le_rfl (Nat.one_le_cast.mpr hrep) hfree
  have hrule : (m.rules[j]?).join = some (domainRule (-1 - (maxRep : ℤ)) .chooseFirstn 1) := (hm.rules j).trans hj
  obtain ⟨b, hb, hdraw⟩ := root_bucket hm.placing
  have hnone : bucketChoose h b 0 (0 : ℕ) = none := by
    rw [hdraw]
    exact listLoop_none h 0 _ _ _ (domainEntries_zero hper maxRep 0 0 hn)
  have hchoose : crushChoose h m b 0 1 1 [] true = none := by
    change chooseLoop h m b 0 1 1 true (0 + 1) 0 [] = none
    rw [chooseLoop, maxTrials, tryRep, trial_first, hnone]
    rfl
  have hstuck : crushDoRule h m j 0 0 (-1) = none := by
    refine crushDoRule_stuck (.inl rfl) hrule ?_
    rw [chooseEach_single hb]
    exact congrArg (Option.bind · _) hchoose
  obtain ⟨result, hresult, -⟩ := hm.places j _ hrule 0 0
  rw [hstuck] at hresult
  cases hresult

theorem LargeMap.width_le {m0 m : Map} (hrep : 1 ≤ maxRep) (hpos : 1 ≤ numOsd)
    (hlast : (maxRep - 1) * ((numOsd - 1) / maxRep + 1) < numOsd)
    (hm : LargeMap h numOsd maxRep minRaid maxRaid m0 m) (hlow : minRaid ≤ width) (hhigh : width ≤ maxRaid) :
    width ≤ maxRep := by
  by_contra hwide
  obtain ⟨j, hj⟩ := installed_raid maxRep (largeRep maxRep) (largeRaid maxRep) m0 hlow hhigh (by omega)
  have hrule : (m.rules[j]?).join = some (deviceRule (-1 - (maxRep : ℤ)) .chooseIndep width) := by
    rw [hm.rules, hj, largeRaid, if_neg hwide]
  obtain ⟨b, hb, hdraw⟩ := root_draws (x := 0) hrep hpos hm.placing hlast (hm.weight hrep)
  obtain ⟨result, hresult, hdev⟩ := hm.places j _ hrule 0 1
  have hdomain : ∀ r : ℕ, ∃ item, bucketChoose h b 0 r = some item ∧ itemType m item = some 1 ∧ item < 0 := by
    intro r
    obtain ⟨item, hitem⟩ := hdraw r
    have hmem := (yields_plain hm.placing.finished hm.placing.one hm.placing.plain).drawn _ b hb r item hitem
    refine ⟨item, hitem, (domain_ready (x := 0) hrep hpos hm.placing hmem).1, ?_⟩
    rw [root_kids] at hmem
    obtain ⟨k, -, rfl⟩ := List.mem_map.mp hmem
    omega
  obtain ⟨item, hmem, hneg⟩ := deviceRule_domain hb (by omega) hdomain hrule hresult
  exact absurd (hdev item hmem) (by omega)

theorem twelve_fine : Fine 12 4 3 4 := by
  refine ⟨by decide, by decide, fun width hlow hhigh => ?_, fun width hin => ?_⟩
  · omega
  · rcases hin with hrep | hraid <;> omega

end fine

end Crush
end Ceph
