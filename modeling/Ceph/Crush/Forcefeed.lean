/-
# A device that is to be first

A rule that takes the root and goes down one level with each choose step is led
to the device by the tables of parents, and returns it as the first item. That
takes that the tables are right for the device, that the way down to it fits the
stack, and the items of each step the arrays.
-/
import Ceph.Crush.Rule

namespace Ceph
namespace Crush

open List Option

/-- The items of each bucket of a map that is put together. -/
def kidsOf (rs : List Recipe) (i : ℤ) : List ℤ :=
  if i < 0 then ((rs[(-1 - i).toNat]?).map Recipe.items).getD [] else []

/-- A finished map, with its rules and offloads. -/
structure Finished (h : Hashes) (rs : List Recipe) (m : Map) : Prop where
  made : ∃ m0, assemble h rs = some m0 ∧ m.buckets = m0.buckets ∧ m.bucketParents = (finalize m0).bucketParents ∧
    m.deviceParents = (finalize m0).deviceParents ∧ m.maxDevices = (finalize m0).maxDevices
  offload : ∃ offload, m.deviceOffload = some offload ∧ m.maxDevices ≤ offload.length

variable {h : Hashes} {rs : List Recipe} {m : Map} {x : ℤ}

theorem mem_kidsOf {i item : ℤ} (hmem : item ∈ kidsOf rs i) :
    ∃ (k : ℕ) (r : Recipe), i = -1 - k ∧ rs[k]? = some r ∧ item ∈ r.items := by
  unfold kidsOf at hmem
  split_ifs at hmem with hneg
  · cases hr : rs[(-1 - i).toNat]? with
    | none => nomatch hr ▸ hmem
    | some r =>
      rw [hr] at hmem
      exact ⟨(-1 - i).toNat, r, by omega, hr, hmem⟩
  · nomatch hmem

variable {r : Recipe} {b : Bucket}

theorem Finished.bucket (hf : Finished h rs m) {k : ℕ} (hr : rs[k]? = some r) :
    ∃ b : Bucket, r.make h = some b ∧ m.bucket (-1 - (k : ℤ)) = some { b with id := -1 - k } := by
  obtain ⟨m0, hm, hbuckets, -⟩ := hf.made
  obtain ⟨bs, ha⟩ := assembled hm
  obtain ⟨b, hmake, hb⟩ := ha.made k r hr
  obtain ⟨n, hn⟩ := ha.buckets
  refine ⟨b, hmake, ?_⟩
  have hlt := (List.getElem?_eq_some_iff.mp hb).1
  rw [Map.bucket, if_pos (by omega), hbuckets, hn, show (-1 - (-1 - (k : ℤ))).toNat = k by omega,
    getElem?_append_left (by rwa [length_map]), getElem?_map, hb]
  rfl

theorem getElem?_join {bs : List Bucket} {n k : ℕ}
    (hb : ((bs.map some ++ replicate n none)[k]?).join = some b) : bs[k]? = some b := by
  by_cases hk : k < bs.length
  · rw [getElem?_append_left (by rwa [length_map]), getElem?_map, getElem?_eq_getElem hk] at hb
    rwa [getElem?_eq_getElem hk]
  · rw [getElem?_append_right (by rw [length_map]; omega), getElem?_replicate] at hb
    split_ifs at hb <;> nomatch hb

theorem Finished.recipe (hf : Finished h rs m) {i : ℤ} (hb : m.bucket i = some b) :
    ∃ (k : ℕ) (r : Recipe) (b' : Bucket), i = -1 - k ∧ rs[k]? = some r ∧ r.make h = some b' ∧ b = { b' with id := -1 - (k : ℤ) } := by
  obtain ⟨m0, hm, hbuckets, -⟩ := hf.made
  obtain ⟨bs, ha⟩ := assembled hm
  obtain ⟨n, hn⟩ := ha.buckets
  have hneg := bucket_neg hb
  rw [Map.bucket, if_pos hneg, hbuckets, hn] at hb
  have hget := getElem?_join hb
  have hlt : (-1 - i).toNat < rs.length := ha.length ▸ (List.getElem?_eq_some_iff.mp hget).1
  obtain ⟨b', hmake, hb'⟩ := ha.made _ _ (getElem?_eq_getElem hlt)
  exact ⟨(-1 - i).toNat, _, b', by omega, getElem?_eq_getElem hlt, hmake, some.inj (hget.symm.trans hb')⟩

theorem kidsOf_eq {k : ℕ} (hr : rs[k]? = some r) : kidsOf rs (-1 - (k : ℤ)) = r.items := by
  rw [kidsOf, if_pos (by omega), show (-1 - (-1 - (k : ℤ))).toNat = k by omega, hr]
  rfl

/-- **A bucket that has weight yields one of its items.** -/
theorem Finished.drawn (hf : Finished h rs m) (hheavy : ∀ r ∈ rs, r.Heavy) {i : ℤ} (hb : m.bucket i = some b)
    (r : ℤ) : ∃ item ∈ kidsOf rs i, bucketChoose h b x r = some item := by
  obtain ⟨k, recipe, b', rfl, hr, hmake, rfl⟩ := hf.recipe hb
  rw [kidsOf_eq hr]
  exact make_chooses hmake (hheavy recipe (mem_of_getElem? hr)) _ x r

theorem yields_kidsOf (hf : Finished h rs m) (hone : OneHolder rs) (hheavy : ∀ r ∈ rs, r.Heavy) :
    Yields h m x (kidsOf rs) := by
  refine ⟨fun i b hb r item hdraw => ?_, fun i j item hi hj => ?_⟩
  · obtain ⟨item', hmem, heq⟩ := hf.drawn (x := x) hheavy hb r
    cases hdraw.symm.trans heq
    exact hmem
  · obtain ⟨k, r, rfl, hr, hmem⟩ := mem_kidsOf hi
    obtain ⟨k', r', rfl, hr', hmem'⟩ := mem_kidsOf hj
    rw [← holder_some hone hr hmem, holder_some hone hr' hmem']

theorem Finished.offloaded (hf : Finished h rs m) {k : ℕ} (hr : rs[k]? = some r) {d : ℤ} (hd : 0 ≤ d)
    (hmem : d ∈ r.items) : d < m.maxDevices ∧ ∃ o, isOut h m d x = some o := by
  obtain ⟨m0, hm, -, -, -, hmax⟩ := hf.made
  obtain ⟨bs, ha⟩ := assembled hm
  obtain ⟨offload, hoff, hlen⟩ := hf.offload
  obtain ⟨b, hmake, hb⟩ := ha.made k r hr
  have hle : (d + 1).toNat ≤ (finalize m0).maxDevices := by
    refine (le_foldl_max d _ m0.maxDevices).2 (mem_flatMap.mpr ⟨{ b with id := -1 - k }, ?_,
      (make_items hmake d).mpr (.inl hmem)⟩)
    rw [ha.reduceOption]
    exact mem_of_getElem? hb
  have hlt : d.toNat < offload.length := by omega
  refine ⟨by omega, ?_⟩
  rw [isOut, if_neg (by omega), hoff, bind_some, getElem?_eq_getElem hlt]
  exact ⟨_, rfl⟩

/-! ### Up to the root -/

theorem Finished.entry (hf : Finished h rs m) : ∃ m0, assemble h rs = some m0 ∧ m.buckets = m0.buckets ∧
    ∀ item, m.entry item = (finalize m0).entry item := by
  obtain ⟨m0, hm, hbuckets, hbp, hdp, -⟩ := hf.made
  refine ⟨m0, hm, hbuckets, fun item => ?_⟩
  rw [Map.entry, Map.entry, hbp, hdp]

/-- Device 0 is in the last tree bucket or behind it. -/
def ZeroLast (rs : List Recipe) : Prop := ∀ (i : ℕ) (r : Recipe), rs[i]? = some r → r.isTree →
  ∃ (j : ℕ) (r' : Recipe), i ≤ j ∧ rs[j]? = some r' ∧ 0 ∈ r'.items

theorem place_of_type {m0 : Map} (hbuckets : m.buckets = m0.buckets) {item t : ℤ} (ht : itemType m item = some t) :
    0 ≤ item ∨ (-1 - item).toNat < m0.buckets.length := by
  by_cases hneg : item < 0
  · rw [itemType, if_pos hneg] at ht
    obtain ⟨b, hb, -⟩ := map_eq_some_iff.mp ht
    rw [Map.bucket, if_pos hneg, hbuckets] at hb
    refine .inr (not_le.mp fun hle => ?_)
    rw [getElem?_eq_none hle] at hb
    cases hb
  · exact .inl (not_lt.mp hneg)

/-- **The way down to a device, read upwards, is what the tables of parents say.** -/
theorem up_of_path (hf : Finished h rs m) (hone : OneHolder rs) : ∀ {ps : List ℤ} {i : ℤ} {upper : List ℤ},
    Path (kidsOf rs) i ps → Up m (i :: upper) → (∀ item ∈ ps, ∃ t, itemType m item = some t) → (0 ∈ ps → ZeroLast rs) →
      Up m ((i :: ps).reverse ++ upper)
  | [], i, upper, _, hup, _, _ => hup
  | f :: ps, i, upper, hpath, hup, ht, h0 => by
    obtain ⟨k, r, rfl, hr, hmem⟩ := mem_kidsOf hpath.1
    obtain ⟨m0, hm, hbuckets, hentry⟩ := hf.entry
    obtain ⟨bs, ha⟩ := assembled hm
    obtain ⟨t, hft⟩ := ht f mem_cons_self
    have hparent : m.entry f = -1 - k := by
      rw [hentry, entry_eq_holder ha hone (place_of_type hbuckets hft) fun hz => h0 (hz ▸ mem_cons_self)]
      exact holder_some hone hr hmem
    have hup' : Up m (f :: (-1 - (k : ℤ)) :: upper) := ⟨hparent, by omega, hup⟩
    have hrec := up_of_path hf hone hpath.2 hup'
      (fun item hitem => ht item (mem_cons_of_mem f hitem)) fun hz => h0 (mem_cons_of_mem f hz)
    simpa using hrec

theorem up_root (hf : Finished h rs m) (hone : OneHolder rs) {root : ℤ} (hroot : m.bucket root = some b)
    (hfree : ∀ r ∈ rs, root ∉ r.items) : Up m [root] := by
  obtain ⟨m0, hm, hbuckets, hentry⟩ := hf.entry
  obtain ⟨bs, ha⟩ := assembled hm
  have hneg := bucket_neg hroot
  change m.entry root = 0
  rw [hentry, entry_eq_holder ha hone (place_of_type hbuckets (itemType_bucket hroot)) fun hz => absurd hz hneg.ne]
  exact holder_none hfree

/-! ### The way down -/

/-- The devices are as far below the root as there are steps. -/
theorem path_length : ∀ {ps : List ℤ} {steps : List Step} {i d : ℤ}, Levelled m (kidsOf rs) (fun item => 0 ≤ item) steps i →
    (∀ s ∈ steps.dropLast, s.arg2 ≠ 0) → Path (kidsOf rs) i ps → ps.getLast? = some d → 0 ≤ d → ps.length = steps.length
  | [], _, _, _, _, _, _, hlast, _ => by cases hlast
  | f :: ps, [], i, _, hlev, _, hpath, _, _ => by
    obtain ⟨k, r, rfl, -, -⟩ := mem_kidsOf hpath.1
    have hpos : 0 ≤ -1 - (k : ℤ) := hlev
    omega
  | f :: ps, s :: steps, i, d, hlev, hinner, hpath, hlast, hd => by
    obtain ⟨htype, hlev'⟩ := hlev f hpath.1
    cases ps with
    | nil =>
      obtain rfl : f = d := some.inj hlast
      rw [itemType, if_neg (not_lt.mpr hd), some_inj] at htype
      cases steps with
      | nil => rfl
      | cons s' steps => exact absurd htype.symm (hinner s mem_cons_self)
    | cons f' ps =>
      have hinner' : ∀ t ∈ steps.dropLast, t.arg2 ≠ 0 := by
        intro t ht
        cases steps with
        | nil => cases ht
        | cons s' steps => exact hinner t (mem_cons_of_mem s ht)
      have hrec := path_length hlev' hinner' hpath.2 hlast hd
      rw [length_cons, hrec, length_cons]

theorem path_types : ∀ {ps : List ℤ} {steps : List Step} {i : ℤ}, Levelled m (kidsOf rs) (fun item => 0 ≤ item) steps i →
    Path (kidsOf rs) i ps → ∀ item ∈ ps, ∃ t, itemType m item = some t
  | [], _, _, _, _ => nofun
  | f :: ps, [], i, hlev, hpath => by
    obtain ⟨k, r, rfl, -, -⟩ := mem_kidsOf hpath.1
    have hpos : 0 ≤ -1 - (k : ℤ) := hlev
    omega
  | f :: ps, s :: steps, i, hlev, hpath => by
    obtain ⟨htype, hlev'⟩ := hlev f hpath.1
    exact forall_mem_cons.mpr ⟨⟨_, htype⟩, path_types hlev' hpath.2⟩

theorem path_zero : ∀ {ps : List ℤ} {i d : ℤ}, Path (kidsOf rs) i ps → ps.getLast? = some d → 0 ∈ ps → d = 0
  | [], _, _, _, _, h0 => nomatch h0
  | [f], _, d, _, hlast, h0 => by
    obtain rfl : f = d := some.inj hlast
    exact (mem_singleton.mp h0).symm
  | f :: f' :: ps, _, d, hpath, hlast, h0 => by
    obtain ⟨k, r, rfl, -, -⟩ := mem_kidsOf hpath.2.1
    rw [getLast?_cons_cons] at hlast
    refine path_zero hpath.2 hlast ((mem_cons.mp h0).resolve_left ?_)
    omega

theorem path_last : ∀ {ps : List ℤ} {i d : ℤ}, Path (kidsOf rs) i ps → ps.getLast? = some d → ∃ j, d ∈ kidsOf rs j
  | [], _, _, _, hlast => nomatch hlast
  | [f], i, d, hpath, hlast => by
    obtain rfl : f = d := some.inj hlast
    exact ⟨i, hpath.1⟩
  | f :: f' :: ps, _, d, hpath, hlast => by
    rw [getLast?_cons_cons] at hlast
    exact path_last hpath.2 hlast

/-- The number of items of the largest bucket with items of the type. -/
def widest (rs : List Recipe) (m : Map) (type : ℤ) : ℕ :=
  ((rs.filter fun r => r.items.any (itemType m · = some type)).map (·.items.length)).foldr max 0

theorem le_widest {item type : ℤ} (hr : r ∈ rs) (hmem : item ∈ r.items) (ht : itemType m item = some type) :
    r.items.length ≤ widest rs m type := by
  have hin : r.items.length ∈ (rs.filter fun r => r.items.any (itemType m · = some type)).map (·.items.length) := by
    refine mem_map_of_mem (mem_filter.mpr ⟨hr, any_eq_true.mpr ⟨item, hmem, ?_⟩⟩)
    exact decide_eq_true ht
  exact le_max_of_le' 0 hin le_rfl

/-- The buckets of the levels can be drawn from. -/
theorem drawable (hf : Finished h rs m) (hheavy : ∀ r ∈ rs, r.Heavy) : ∀ {steps : List Step} {i : ℤ},
    (steps ≠ [] → ∃ b, m.bucket i = some b) → Levelled m (kidsOf rs) (fun item => 0 ≤ item) steps i →
      (∀ s ∈ steps.dropLast, s.arg2 ≠ 0) → Drawable h m x (kidsOf rs) (widest rs m) steps i
  | [], _, _, _, _ => trivial
  | s :: steps, i, hb, hlev, hinner => by
    obtain ⟨b, hb⟩ := hb (cons_ne_nil s steps)
    refine ⟨⟨b, hb, fun r => ?_⟩, ?_, fun item hmem => ?_⟩
    · obtain ⟨item, hmem, hdraw⟩ := hf.drawn hheavy hb r
      obtain ⟨htype, hlev'⟩ := hlev item hmem
      refine ⟨item, s.arg2, hdraw, htype, fun hne => absurd rfl hne, fun h0 => ?_⟩
      -- devices are asked for in the last step alone
      cases steps with
      | cons s' steps => exact absurd h0 (hinner s mem_cons_self)
      | nil =>
        obtain ⟨k, recipe, -, hr, hmem'⟩ := mem_kidsOf hmem
        exact (hf.offloaded hr hlev' hmem').2
    · obtain ⟨item, hmem, -⟩ := hf.drawn (x := x) hheavy hb 0
      obtain ⟨k, r, rfl, hr, hmem'⟩ := mem_kidsOf hmem
      rw [kidsOf_eq hr]
      exact le_widest (mem_of_getElem? hr) hmem' (hlev item hmem).1
    · obtain ⟨htype, hlev'⟩ := hlev item hmem
      refine drawable hf hheavy (fun hne => ?_) hlev' fun t ht => ?_
      · obtain ⟨s', steps, rfl⟩ := exists_cons_of_ne_nil hne
        have hne0 : s.arg2 ≠ 0 := hinner s mem_cons_self
        by_cases hneg : item < 0
        · rw [itemType, if_pos hneg] at htype
          obtain ⟨b', hb', -⟩ := map_eq_some_iff.mp htype
          exact ⟨b', hb'⟩
        · rw [itemType, if_neg hneg, some_inj] at htype
          exact absurd htype.symm hne0
      · cases steps with
        | nil => cases ht
        | cons s' steps => exact hinner t (mem_cons_of_mem s ht)

/-! ### A rule with a device forced -/

/-- A rule that takes the root, goes down one level in each step to the devices, and emits them. -/
structure DownRule (rs : List Recipe) (m : Map) (rule : List Step) (root : ℤ) (chooses : List Step) : Prop where
  shape : ∃ take emit : Step, rule = take :: (chooses ++ [emit]) ∧ take.op = .take ∧ take.arg1 = root ∧ emit.op = .emit
  ops : Chooses chooses
  levels : Levelled m (kidsOf rs) (fun item => 0 ≤ item) chooses root
  inner : ∀ s ∈ chooses.dropLast, s.arg2 ≠ 0

/-- The root is a bucket that is in no other. -/
structure Root (rs : List Recipe) (m : Map) (root : ℤ) : Prop where
  bucket : ∃ b, m.bucket root = some b
  free : ∀ r ∈ rs, root ∉ r.items

theorem ruleSteps_take {take : Step} {root : ℤ} {ps : List ℤ} {steps : List Step} {resultMax : ℕ} (htake : take.op = .take)
    (hroot : take.arg1 = root) :
    ruleSteps h m x resultMax (take :: steps) ⟨[], root :: ps, []⟩ = ruleSteps h m x resultMax steps ⟨[root], ps, []⟩ := by
  rw [ruleSteps]
  simp [ruleStep, htake, hroot]

theorem ruleSteps_emit {emit : Step} {resultMax : ℕ} {k : Work} (hemit : emit.op = .emit) (hempty : k.result = []) :
    ruleSteps h m x resultMax [emit] k = some { k with w := [], result := k.w.take resultMax } := by
  simp [ruleStep, hemit, hempty, ruleSteps]

/-- A list bucket with devices 0 and 1, a tree bucket with devices 2 and 3, and a list bucket over both. -/
def twoHosts : List Recipe :=
  [.list 1 [(0, 65536), (1, 65536)], .tree 1 [(2, 65536), (3, 65536)], .list 2 [(-1, 131072), (-2, 131072)]]

/-- Two hosts, and a device of each. -/
def twoHostsChooses : List Step := [⟨.chooseFirstn, 2, 1⟩, ⟨.chooseFirstn, 1, 0⟩]

def twoHostsMap : Map :=
  { finalize ((assemble crushHashes twoHosts).getD crushCreate) with
    rules := [some (⟨.take, -3, 0⟩ :: (twoHostsChooses ++ [⟨.emit, 0, 0⟩]))] }

theorem twoHosts_finished : Finished crushHashes twoHosts twoHostsMap :=
  ⟨⟨(assemble crushHashes twoHosts).getD crushCreate, rfl, rfl, rfl, rfl, rfl⟩, _, rfl, by decide +kernel⟩

theorem twoHosts_one : OneHolder twoHosts := by
  simp [OneHolder, twoHosts, Recipe.items]

theorem twoHosts_heavy : ∀ r ∈ twoHosts, r.Heavy := by
  simp [twoHosts, Recipe.Heavy]

theorem twoHosts_down : DownRule twoHosts twoHostsMap (⟨.take, -3, 0⟩ :: (twoHostsChooses ++ [⟨.emit, 0, 0⟩])) (-3)
    twoHostsChooses := by
  refine ⟨⟨_, _, rfl, rfl, rfl, rfl⟩, by simp [Chooses, twoHostsChooses], ?_, by simp [twoHostsChooses]⟩
  have htop : ∀ item ∈ kidsOf twoHosts (-3), itemType twoHostsMap item = some 1 ∧
      ∀ d ∈ kidsOf twoHosts item, itemType twoHostsMap d = some 0 ∧ 0 ≤ d := by decide +kernel
  exact htop

theorem twoHosts_root : Root twoHosts twoHostsMap (-3) :=
  ⟨⟨{ makeListBucket 2 [(-1, 131072), (-2, 131072)] with id := -3 }, by decide +kernel⟩, by simp [twoHosts, Recipe.items]⟩

end Crush
end Ceph
