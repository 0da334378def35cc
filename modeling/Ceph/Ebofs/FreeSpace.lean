/-
# Free space

The free extents are in five tables, by length. `allocate` takes one out of a table and gives back what
is not asked for; what is released waits in limbo for the next commit, and is then merged with the free extents
that it touches. The tables are ordered maps here, which `find` searches as it does a tree.

In every run the free extents lie apart from each other, and each is in the table of its length. Who releases
an extent has it: its blocks are neither free nor in limbo. Which extents are in use, and how often, is for the
reference counts.
-/
import Ceph.Ebofs.Superblock
import Ceph.Include.IntervalSet
import Ceph.Lib.Keyed

namespace Ceph
namespace Ebofs

open List Function Keyed

/-- `end()`. -/
def Extent.fin (ex : Extent) : ℕ := ex.start + ex.length

/-- The block is in the extent. -/
def Extent.Has (ex : Extent) (x : ℕ) : Prop := ex.start ≤ x ∧ x < ex.fin

namespace Allocator

open IntervalSet (IntervalSet Covers)

/-! ### The code -/

def bucketLoop : ℕ → ℕ → ℕ → ℕ
  | 0, b, _ => b
  | fuel + 1, b, num => if 1 < num then bucketLoop fuel (b + 1) (num >>> 2) else b

/-- `pick_bucket`. Each turn of its loop makes the number smaller. -/
def pickBucket (num : ℕ) : Fin 5 := ⟨min (bucketLoop num 0 num) 4, by omega⟩

inductive Dir
  | any | fwd | back
deriving DecidableEq

/-- `NEAR_LAST`. -/
def nearLast : ℕ := 0

/-- `NEAR_LAST_FWD`. -/
def nearLastFwd : ℕ := 1

/-- The tables, and what `Allocator` has of its own. -/
structure Space where
  freeTab : Fin 5 → List Extent
  freeBlocks : ℕ
  limbo : IntervalSet
  limboTab : List Extent
  limboBlocks : ℕ
  lastPos : ℕ

/-- `find`, in an ordered map. -/
def findIn (t : List Extent) (num near : ℕ) (dir : Dir) : Option Extent :=
  -- look to the right
  (if dir ≠ .back then (t.filter fun e => near ≤ e.start).find? fun e => num ≤ e.length else none).or
    -- look to the left
    (if dir ≠ .fwd then (t.filter fun e => e.start < near).reverse.find? fun e => num ≤ e.length else none)

section search

variable (find : Fin 5 → ℕ → ℕ → Dir → Option Extent)

/-- The loop over the buckets. -/
def tryBuckets (num near : ℕ) (dir : Dir) : Option (Fin 5 × Extent) :=
  ((List.finRange 5).filter fun b => pickBucket num ≤ b).findSome? fun b => (find b num near dir).map (b, ·)

/-- The search for a contiguous extent: try twice, if fwd. -/
def contiguous (num near : ℕ) (dir : Dir) : Option (Fin 5 × Extent) :=
  (tryBuckets find num near dir).or (if dir = .fwd then tryBuckets find num near .back else none)

/-- The search for a partial extent instead. -/
def halved (near : ℕ) : ℕ → ℕ → Option (Fin 5 × Extent)
  | 0, _ => none
  | fuel + 1, trysize =>
    if 1 ≤ trysize then
      match find (pickBucket trysize) trysize near .any with
      | some ex => some (pickBucket trysize, ex)
      | none => halved near fuel (trysize / 2)
    else none

end search

/-- What is taken of an extent, and what is given back. -/
def carve (num near : ℕ) (ex : Extent) : Extent × List Extent :=
  if num < ex.length then
    if ex.start < near then
      -- to the left
      if ex.fin - num ≤ near then (⟨ex.start + (ex.length - num), num⟩, [⟨ex.start, ex.length - num⟩])
      else (⟨near, num⟩, [⟨ex.start, near - ex.start⟩, ⟨near + num, ex.length - (near - ex.start) - num⟩])
    else (⟨ex.start, num⟩, [⟨ex.start + num, ex.length - num⟩])
  else (ex, [])

/-- `free_tab[b]->remove`. -/
def Space.take (b : Fin 5) (ex : Extent) (s : Space) : Space :=
  { s with
    freeTab := Function.update s.freeTab b (Keyed.erase Extent.start ex.start (s.freeTab b))
    freeBlocks := s.freeBlocks - ex.length }

/-- `free_tab[b]->insert`. -/
def Space.put (ex : Extent) (s : Space) : Space :=
  let b := pickBucket ex.length
  { s with
    freeTab := Function.update s.freeTab b (Keyed.insert Extent.start ex (s.freeTab b))
    freeBlocks := s.freeBlocks + ex.length }

/-- `_release_loner`. -/
def releaseLoner (ex : Extent) (s : Space) : Option Space := if 0 < ex.length then some (s.put ex) else none

/-- Where `allocate` looks. -/
def hint (near : ℕ) (s : Space) : ℕ × Dir :=
  if near = nearLastFwd then (s.lastPos, .fwd) else if near = nearLast then (s.lastPos, .any) else (near, .any)

/-- `allocate`, with the searches of the tables; `none` is a failed assertion, as when the device is full. -/
def allocateBy (find : Fin 5 → ℕ → ℕ → Dir → Option Extent) (num near : ℕ) (s : Space) : Option (Extent × Space) :=
  let (near, dir) := hint near s
  match contiguous find num near dir with
  | some (b, ex) =>
    let (ex', rest) := carve num near ex
    (rest.foldlM (fun s ex => releaseLoner ex s) (s.take b ex)).map fun s => (ex', { s with lastPos := ex'.fin })
  | none =>
    match halved find near num (num / 2) with
    | some (b, ex) => if ex.length < num then some (ex, { s.take b ex with lastPos := ex.fin }) else none
    | none => none          -- fs completely full!

def allocate (num near : ℕ) (s : Space) : Option (Extent × Space) :=
  allocateBy (fun b => findIn (s.freeTab b)) num near s

/-- One after us? -/
def mergeAfter (ex : Extent) (s : Space) : Extent × Space :=
  match (List.finRange 5).findSome? fun b => (Keyed.find Extent.start ex.fin (s.freeTab b)).map (b, ·) with
  | some (b, e) => (⟨ex.start, ex.length + e.length⟩, s.take b e)
  | none => (ex, s)

/-- One before us? -/
def mergeBefore (ex : Extent) (s : Space) : Extent × Space :=
  match (List.finRange 5).findSome? fun b =>
      (((s.freeTab b).filter fun e => e.start < ex.fin).getLast?.filter fun e => e.fin = ex.start).map (b, ·) with
  | some (b, e) => (⟨e.start, ex.length + e.length⟩, s.take b e)
  | none => (ex, s)

/-- `_release_merge`. -/
def releaseMerge (orig : Extent) (s : Space) : Option Space :=
  if 0 < orig.length then
    let (ex, s) := mergeAfter orig s
    let (ex, s) := mergeBefore ex s
    releaseLoner ex s
  else none

/-- `_release_into_limbo`. -/
def releaseIntoLimbo (ex : Extent) (s : Space) : Option Space :=
  if 0 < ex.length then
    (s.limbo.insert ex.start ex.length).map fun limbo => { s with limbo := limbo, limboBlocks := s.limboBlocks + ex.length }
  else none

/-- `commit_limbo`. -/
def commitLimbo (s : Space) : Space :=
  { s with
    limboTab := s.limbo.m.foldl (fun t p => Keyed.insert Extent.start ⟨p.1, p.2⟩ t) s.limboTab
    limbo := s.limbo.clear }

/-- `release_limbo`. -/
def releaseLimbo (s : Space) : Option Space :=
  (s.limboTab.foldlM (fun s ex => releaseMerge ex { s with limboBlocks := s.limboBlocks - ex.length }) s).map fun s =>
    { s with limboTab := [] }

/-! ### The free extents -/

/-- All free extents. -/
def Space.all (s : Space) : List Extent := (List.finRange 5).flatMap s.freeTab

/-- A block of one of the extents. -/
def Blocks (l : List Extent) (x : ℕ) : Prop := ∃ e ∈ l, e.Has x

def Space.Free (s : Space) (x : ℕ) : Prop := Blocks s.all x

/-- There is a block at least between the extents. -/
def Separate (e f : Extent) : Prop := e.fin < f.start ∨ f.fin < e.start

/-- The free extents lie apart, each in the table of its length, and are counted. -/
structure Partition (s : Space) : Prop where
  sorted : ∀ b, Keyed.Sorted Extent.start (s.freeTab b)
  bucket : ∀ b, ∀ e ∈ s.freeTab b, pickBucket e.length = b
  pos : ∀ e ∈ s.all, 0 < e.length
  separate : s.all.Pairwise Separate
  total : s.freeBlocks = (s.all.map Extent.length).sum

/-- What the free tables do not have is left as it is. -/
structure Kept (s s' : Space) : Prop where
  limbo : s'.limbo = s.limbo
  limboTab : s'.limboTab = s.limboTab

section extents

variable {s s' : Space} {b : Fin 5} {e f ex : Extent} {l l' : List Extent} {x num near : ℕ} {dir : Dir}

theorem Separate.symm (h : Separate e f) : Separate f e := Or.symm h

instance : Std.Symm Separate := ⟨fun _ _ => Separate.symm⟩

theorem Partition.congr (h : Partition s) (htab : s'.freeTab = s.freeTab) (hblocks : s'.freeBlocks = s.freeBlocks) :
    Partition s' := by
  have hall : s'.all = s.all := congrArg (fun tab => (List.finRange 5).flatMap tab) htab
  exact ⟨htab ▸ h.sorted, htab ▸ h.bucket, hall ▸ h.pos, hall ▸ h.separate, by rw [hblocks, hall, h.total]⟩

theorem blocks_cons : Blocks (e :: l) x ↔ e.Has x ∨ Blocks l x := by
  simp [Blocks]

theorem blocks_append : Blocks (l ++ l') x ↔ Blocks l x ∨ Blocks l' x := by
  simp [Blocks, or_and_right, exists_or]

theorem blocks_perm (h : l.Perm l') : Blocks l x ↔ Blocks l' x := by
  simp [Blocks, h.mem_iff]

theorem mem_all : e ∈ s.all ↔ ∃ b, e ∈ s.freeTab b := by
  simp [Space.all]

theorem tables_cut (tab : Fin 5 → List Extent) (b : Fin 5) :
    ∃ others, ∀ l, ((List.finRange 5).flatMap (Function.update tab b l)).Perm (l ++ others) := by
  obtain ⟨pre, post, hcut⟩ := append_of_mem (mem_finRange b)
  have hnodup := nodup_finRange 5
  rw [hcut, nodup_middle, nodup_cons, mem_append, not_or] at hnodup
  have hsame : ∀ {l : List (Fin 5)} {new : List Extent}, b ∉ l → l.flatMap (Function.update tab b new) = l.flatMap tab :=
    fun hb => flatMap_congr fun c hc => update_of_ne (ne_of_mem_of_not_mem hc hb) _ _
  refine ⟨pre.flatMap tab ++ post.flatMap tab, fun l => ?_⟩
  rw [hcut, flatMap_append, flatMap_cons, update_self, hsame hnodup.1.1, hsame hnodup.1.2]
  exact perm_append_comm_assoc _ _ _

theorem tables_perm (tab : Fin 5 → List Extent) (h : l.Perm (e :: l')) :
    ((List.finRange 5).flatMap (Function.update tab b l)).Perm
      (e :: (List.finRange 5).flatMap (Function.update tab b l')) := by
  obtain ⟨others, hothers⟩ := tables_cut tab b
  exact ((hothers l).trans (h.append_right others)).trans ((hothers l').symm.cons e)

theorem Partition.take_perm (h : Partition s) (he : e ∈ s.freeTab b) : s.all.Perm (e :: (s.take b e).all) := by
  have hperm := tables_perm (b := b) s.freeTab (erase_perm (h.sorted b) he)
  rwa [update_eq_self] at hperm

theorem Partition.put_perm (h : Partition s) (hsep : ∀ f ∈ s.all, Separate e f) : (s.put e).all.Perm (e :: s.all) := by
  have hnew : ∀ f ∈ s.freeTab (pickBucket e.length), f.start ≠ e.start := fun f hf heq => by
    have := hsep f (mem_all.mpr ⟨_, hf⟩)
    unfold Separate Extent.fin at this
    omega
  have hperm := tables_perm (b := pickBucket e.length) s.freeTab (insert_perm (h.sorted _) hnew)
  rwa [update_eq_self] at hperm

/-- **An extent is taken** out of its table. -/
theorem Partition.take (h : Partition s) (he : e ∈ s.freeTab b) : Partition (s.take b e) := by
  have hperm := h.take_perm he
  have htotal := (hperm.map Extent.length).sum_eq
  rw [map_cons, sum_cons] at htotal
  exact {
    sorted := (forall_update_iff _ (p := fun _ t => Keyed.Sorted Extent.start t)).mpr
      ⟨(h.sorted b).filter _, fun c _ => h.sorted c⟩
    bucket := (forall_update_iff _ (p := fun c t => ∀ f ∈ t, pickBucket f.length = c)).mpr
      ⟨fun f hf => h.bucket b f (mem_of_mem_filter hf), fun c _ => h.bucket c⟩
    pos := fun f hf => h.pos f (hperm.mem_iff.mpr (mem_cons_of_mem e hf))
    separate := (pairwise_cons.mp ((hperm.pairwise_iff Separate.symm).mp h.separate)).2
    total := by
      change s.freeBlocks - e.length = _
      rw [h.total, htotal, Nat.add_sub_cancel_left] }

/-- **An extent comes** to the others. -/
theorem Partition.put (h : Partition s) (hpos : 0 < e.length) (hsep : ∀ f ∈ s.all, Separate e f) : Partition (s.put e) := by
  have hperm := h.put_perm hsep
  have htotal := (hperm.map Extent.length).sum_eq
  rw [map_cons, sum_cons] at htotal
  exact {
    sorted := (forall_update_iff _ (p := fun _ t => Keyed.Sorted Extent.start t)).mpr
      ⟨sorted_insert (h.sorted _), fun c _ => h.sorted c⟩
    bucket := (forall_update_iff _ (p := fun c t => ∀ f ∈ t, pickBucket f.length = c)).mpr
      ⟨fun f hf => (mem_insert.mp hf).elim (fun heq => heq ▸ rfl) fun hf => h.bucket _ f hf.1, fun c _ => h.bucket c⟩
    pos := fun f hf => (forall_mem_cons (p := fun f : Extent => 0 < f.length)).mpr ⟨hpos, h.pos⟩ f (hperm.mem_iff.mp hf)
    separate := (hperm.pairwise_iff Separate.symm).mpr (pairwise_cons.mpr ⟨hsep, h.separate⟩)
    total := by
      change s.freeBlocks + e.length = _
      rw [h.total, htotal, add_comm] }

theorem Partition.separate_taken (h : Partition s) (he : e ∈ s.freeTab b) : ∀ f ∈ (s.take b e).all, Separate e f :=
  (pairwise_cons.mp (((h.take_perm he).pairwise_iff Separate.symm).mp h.separate)).1

/-! ### Allocating -/

theorem findIn_mem (h : findIn l num near dir = some e) : e ∈ l ∧ num ≤ e.length := by
  rcases Option.or_eq_some_iff.mp h with h | ⟨-, h⟩
  · obtain ⟨-, h⟩ := Option.ite_none_right_eq_some.mp h
    exact ⟨mem_of_mem_filter (mem_of_find?_eq_some h), by simpa using find?_some h⟩
  · obtain ⟨-, h⟩ := Option.ite_none_right_eq_some.mp h
    exact ⟨mem_of_mem_filter (mem_reverse.mp (mem_of_find?_eq_some h)), by simpa using find?_some h⟩

/-- What the searches of the tables find is there, and long enough. -/
def Finds (s : Space) (find : Fin 5 → ℕ → ℕ → Dir → Option Extent) : Prop :=
  ∀ {b num near dir e}, find b num near dir = some e → e ∈ s.freeTab b ∧ num ≤ e.length

section found

variable {find : Fin 5 → ℕ → ℕ → Dir → Option Extent}

theorem tryBuckets_mem (hfind : Finds s find) (h : tryBuckets find num near dir = some (b, e)) :
    e ∈ s.freeTab b ∧ num ≤ e.length := by
  obtain ⟨c, -, hsome⟩ := exists_of_findSome?_eq_some h
  obtain ⟨f, hfound, ⟨⟩⟩ := Option.map_eq_some_iff.mp hsome
  exact hfind hfound

theorem contiguous_mem (hfind : Finds s find) (h : contiguous find num near dir = some (b, e)) :
    e ∈ s.freeTab b ∧ num ≤ e.length := by
  rcases Option.or_eq_some_iff.mp h with h | ⟨-, h⟩
  · exact tryBuckets_mem hfind h
  · exact tryBuckets_mem hfind (Option.ite_none_right_eq_some.mp h).2

theorem halved_mem (hfind : Finds s find) {fuel trysize : ℕ} (h : halved find near fuel trysize = some (b, e)) :
    e ∈ s.freeTab b := by
  induction fuel generalizing trysize with
  | zero => nomatch h
  | succ fuel ih =>
    obtain ⟨-, h⟩ := Option.ite_none_right_eq_some.mp h
    split at h
    · rename_i hfound
      obtain ⟨rfl, rfl⟩ := Prod.mk.inj (Option.some.inj h)
      exact (hfind hfound).1
    · exact ih h

end found

/-- **An extent is cut** into what is taken and what is given back, with what is taken in between. -/
theorem carve_spec (near : ℕ) (hnum : 0 < num) (hle : num ≤ e.length) :
    (carve num near e).1.length = num ∧ (∀ f ∈ (carve num near e).2, 0 < f.length ∧ e.start ≤ f.start ∧ f.fin ≤ e.fin) ∧
      (carve num near e).2.Pairwise Separate ∧
      (∀ x, e.Has x ↔ (carve num near e).1.Has x ∨ Blocks (carve num near e).2 x) ∧
      ∀ x, (carve num near e).1.Has x → ¬ Blocks (carve num near e).2 x := by
  unfold carve
  split_ifs <;> refine ⟨?_, ?_, ?_, fun x => ?_, fun x hx => ?_⟩ <;> simp [Blocks, Separate, Extent.Has, Extent.fin] at * <;>
    omega

theorem release_spec (h : Partition s) (hl : ∀ e ∈ l, 0 < e.length) (hsep : l.Pairwise Separate)
    (hall : ∀ e ∈ l, ∀ f ∈ s.all, Separate e f) :
    ∃ s', l.foldlM (fun s e => releaseLoner e s) s = some s' ∧ Partition s' ∧ Kept s s' ∧ s'.all.Perm (l ++ s.all) := by
  induction l generalizing s with
  | nil => exact ⟨s, rfl, h, ⟨rfl, rfl⟩, .refl _⟩
  | cons e l ih =>
    obtain ⟨hpos, hl⟩ := forall_mem_cons.mp hl
    obtain ⟨hse, hsep⟩ := pairwise_cons.mp hsep
    obtain ⟨he, hall⟩ := forall_mem_cons.mp hall
    have hperm := h.put_perm he
    obtain ⟨s', hrun, h', hkept, hperm'⟩ := ih (h.put hpos he) hl hsep fun f hf g hg => by
      rcases mem_cons.mp (hperm.mem_iff.mp hg) with rfl | hg
      · exact (hse f hf).symm
      · exact hall f hf g hg
    refine ⟨s', ?_, h', ⟨hkept.limbo, hkept.limboTab⟩, hperm'.trans ((hperm.append_left l).trans perm_middle)⟩
    rw [foldlM_cons, releaseLoner, if_pos hpos]
    exact hrun

/-- **An extent is taken, and what is not asked for given back.** -/
theorem carve_release (near : ℕ) (h : Partition s) (he : e ∈ s.freeTab b) (hnum : 0 < num) (hle : num ≤ e.length) :
    ∃ s', (carve num near e).2.foldlM (fun s e => releaseLoner e s) (s.take b e) = some s' ∧ Partition s' ∧ Kept s s' ∧
      (∀ x, s.Free x ↔ (carve num near e).1.Has x ∨ s'.Free x) ∧ ∀ x, (carve num near e).1.Has x → ¬ s'.Free x := by
  obtain ⟨-, hrest, hsep, hblocks, honce⟩ := carve_spec near hnum hle
  have hother := h.separate_taken he
  obtain ⟨s', hrun, h', hkept, hperm'⟩ := release_spec (h.take he) (fun f hf => (hrest f hf).1) hsep fun f hf g hg => by
    obtain ⟨-, hlow, hhigh⟩ := hrest f hf
    have := hother g hg
    unfold Separate at this ⊢
    omega
  have hfree : ∀ x, s'.Free x ↔ Blocks (carve num near e).2 x ∨ Blocks (s.take b e).all x := fun x =>
    (blocks_perm hperm').trans blocks_append
  refine ⟨s', hrun, h', ⟨hkept.limbo, hkept.limboTab⟩, fun x => ?_, fun x hx hcon => ?_⟩
  · rw [Space.Free, blocks_perm (h.take_perm he), blocks_cons, hblocks, or_assoc, hfree]
  · rcases (hfree x).mp hcon with hcon | ⟨f, hf, hcon⟩
    · exact honce x hx hcon
    · have hin := (hblocks x).mpr (.inl hx)
      have := hother f hf
      unfold Separate Extent.Has at *
      omega

/-- **`allocate` takes the extent that it returns**, and nothing else. -/
theorem allocateBy_spec {find : Fin 5 → ℕ → ℕ → Dir → Option Extent} (h : Partition s) (hfind : Finds s find) (hnum : 0 < num)
    (halloc : allocateBy find num near s = some (ex, s')) :
    Partition s' ∧ Kept s s' ∧ 0 < ex.length ∧ ex.length ≤ num ∧ (∀ x, s.Free x ↔ ex.Has x ∨ s'.Free x) ∧
      ∀ x, ex.Has x → ¬ s'.Free x := by
  unfold allocateBy at halloc
  dsimp only at halloc
  split at halloc
  · rename_i b e hfound
    obtain ⟨he, hle⟩ := contiguous_mem hfind hfound
    have hlen := (carve_spec (hint near s).1 hnum hle).1
    obtain ⟨s1, hrun, h1, hkept, hfree, honce⟩ := carve_release (hint near s).1 h he hnum hle
    rw [hrun] at halloc
    obtain ⟨rfl, rfl⟩ := Prod.mk.inj (Option.some.inj halloc)
    exact ⟨h1.congr rfl rfl, ⟨hkept.limbo, hkept.limboTab⟩, by omega, hlen.le, hfree, honce⟩
  · split at halloc
    · rename_i b e hfound
      obtain ⟨hlt, heq⟩ := Option.ite_none_right_eq_some.mp halloc
      obtain ⟨rfl, rfl⟩ := Prod.mk.inj (Option.some.inj heq)
      have he := halved_mem hfind hfound
      refine ⟨(h.take he).congr rfl rfl, ⟨rfl, rfl⟩, h.pos e (mem_all.mpr ⟨b, he⟩), hlt.le,
        fun x => (blocks_perm (h.take_perm he)).trans blocks_cons, fun x hx ⟨f, hf, hcon⟩ => ?_⟩
      have := h.separate_taken he f hf
      unfold Separate Extent.Has at *
      omega
    · nomatch halloc

/-! ### Merging -/

/-- The extent and the free ones have no block in common. -/
def Clear (ex : Extent) (s : Space) : Prop := ∀ f ∈ s.all, f.fin ≤ ex.start ∨ ex.fin ≤ f.start

theorem clear_of_blocks (h : Partition s) (hpos : 0 < ex.length) (hfree : ∀ x, ex.Has x → ¬ s.Free x) : Clear ex s := by
  intro f hf
  have hf' := h.pos f hf
  by_contra hcon
  refine hfree (max f.start ex.start) ?_ ⟨f, hf, ?_⟩ <;> unfold Extent.Has Extent.fin at * <;> omega

theorem findSome?_tables {g : Fin 5 → Option Extent} :
    (∀ b e, (List.finRange 5).findSome? (fun b => (g b).map (b, ·)) = some (b, e) → g b = some e) ∧
      ((List.finRange 5).findSome? (fun b => (g b).map (b, ·)) = none → ∀ b, g b = none) := by
  constructor
  · intro b e h
    obtain ⟨c, -, hsome⟩ := exists_of_findSome?_eq_some h
    obtain ⟨f, hfound, ⟨⟩⟩ := Option.map_eq_some_iff.mp hsome
    exact hfound
  · intro h b
    exact Option.map_eq_none_iff.mp (findSome?_eq_none_iff.mp h b (mem_finRange b))

/-- One step of a merge: the extent is as it was, or has taken in a free one. -/
structure Merges (ex : Extent) (s : Space) (ex' : Extent) (s' : Space) : Prop where
  partition : Partition s'
  kept : Kept s s'
  pos : 0 < ex'.length
  free : ∀ x, ex'.Has x ∨ s'.Free x ↔ ex.Has x ∨ s.Free x

theorem Merges.taken (h : Partition s) (he : e ∈ s.freeTab b)
    (hhas : ∀ x, f.Has x ↔ ex.Has x ∨ e.Has x) (hlen : 0 < f.length) : Merges ex s f (s.take b e) where
  partition := h.take he
  kept := ⟨rfl, rfl⟩
  pos := hlen
  free x := by
    unfold Space.Free
    rw [hhas, blocks_perm (h.take_perm he), blocks_cons, or_assoc]

theorem mergeAfter_spec (h : Partition s) (hpos : 0 < ex.length) (hclear : Clear ex s) :
    Merges ex s (mergeAfter ex s).1 (mergeAfter ex s).2 ∧
      ∀ f ∈ (mergeAfter ex s).2.all, f.fin ≤ (mergeAfter ex s).1.start ∨ (mergeAfter ex s).1.fin < f.start := by
  unfold mergeAfter
  split
  · rename_i b e hfound
    obtain ⟨pre, post, hcut, hkey⟩ := find_isSome (findSome?_tables.1 b e hfound)
    have he : e ∈ s.freeTab b := hcut ▸ by simp
    have hall := mem_all.mpr ⟨b, he⟩
    refine ⟨.taken h he (fun x => ?_) (by dsimp only; omega), fun f hf => ?_⟩
    · unfold Extent.Has Extent.fin at *
      dsimp only
      omega
    · have hfall := (h.take_perm he).mem_iff.mpr (mem_cons_of_mem e hf)
      have := hclear f hfall
      have := h.separate_taken he f hf
      unfold Separate Extent.fin at *
      dsimp only
      omega
  · rename_i hnone
    refine ⟨⟨h, ⟨rfl, rfl⟩, hpos, fun x => .rfl⟩, fun f hf => (hclear f hf).imp_right fun hle => hle.lt_of_ne fun heq => ?_⟩
    obtain ⟨b, hb⟩ := mem_all.mp hf
    have hcon := findSome?_tables.2 hnone b
    rw [heq, find_mem (h.sorted b) hb] at hcon
    nomatch hcon

theorem mergeBefore_spec (h : Partition s) (hpos : 0 < ex.length) (hafter : ∀ f ∈ s.all, f.fin ≤ ex.start ∨ ex.fin < f.start) :
    Merges ex s (mergeBefore ex s).1 (mergeBefore ex s).2 ∧
      ∀ f ∈ (mergeBefore ex s).2.all, Separate (mergeBefore ex s).1 f := by
  unfold mergeBefore
  split
  · rename_i b e hfound
    obtain ⟨hlast, hend⟩ := Option.filter_eq_some_iff.mp (findSome?_tables.1 b e hfound)
    have hend : e.fin = ex.start := by simpa using hend
    have he := mem_of_mem_filter (mem_of_getLast? hlast)
    refine ⟨.taken h he (fun x => ?_) (by dsimp only; omega), fun f hf => ?_⟩
    · unfold Extent.Has Extent.fin at *
      dsimp only
      omega
    · have hfall := (h.take_perm he).mem_iff.mpr (mem_cons_of_mem e hf)
      have := hafter f hfall
      have := h.separate_taken he f hf
      unfold Separate Extent.fin at *
      dsimp only
      omega
  · rename_i hnone
    refine ⟨⟨h, ⟨rfl, rfl⟩, hpos, fun x => .rfl⟩, fun f hf => ?_⟩
    rcases hafter f hf with hle | hlt
    · refine .inr (hle.lt_of_ne fun heq => ?_)
      -- the last one before the end would be this one, or in between
      obtain ⟨b, hb⟩ := mem_all.mp hf
      have hcon := findSome?_tables.2 hnone b
      have hmem : f ∈ (s.freeTab b).filter fun e => e.start < ex.fin :=
        mem_filter.mpr ⟨hb, by have := h.pos f hf; unfold Extent.fin at *; simp; omega⟩
      obtain ⟨pre, g, hpre⟩ := (eq_nil_or_concat' _).resolve_left (ne_nil_of_mem hmem)
      rw [hpre, getLast?_concat] at hcon
      have hg := mem_filter.mp (hpre ▸ mem_append_right pre (mem_singleton_self g))
      have hglow : g.start < ex.fin := by simpa using hg.2
      have hgend : g.fin ≠ ex.start := by simpa [Option.filter] using hcon
      have hne : f ≠ g := fun hfg => hgend (hfg ▸ heq)
      have hsorted := (h.sorted b).filter fun e => decide (e.start < ex.fin)
      rw [hpre] at hsorted hmem
      have hfg := (pairwise_append.mp hsorted).2.2 f
        ((mem_append.mp hmem).resolve_right fun hcon => hne (mem_singleton.mp hcon)) g (mem_singleton_self g)
      have hgall := mem_all.mpr ⟨b, hg.1⟩
      have hsep := h.separate.forall hf hgall hne
      have := hafter g hgall
      unfold Separate Extent.fin at *
      omega
    · exact .inl hlt

/-- **`_release_merge` frees the blocks** of the extent. -/
theorem releaseMerge_spec (h : Partition s) (hpos : 0 < ex.length) (hfree : ∀ x, ex.Has x → ¬ s.Free x) :
    ∃ s', releaseMerge ex s = some s' ∧ Partition s' ∧ Kept s s' ∧ ∀ x, s'.Free x ↔ ex.Has x ∨ s.Free x := by
  obtain ⟨hm, hafter⟩ := mergeAfter_spec h hpos (clear_of_blocks h hpos hfree)
  obtain ⟨hm', hsep⟩ := mergeBefore_spec hm.partition hm.pos hafter
  refine ⟨_, ?_, hm'.partition.put hm'.pos hsep, ⟨hm'.kept.limbo.trans hm.kept.limbo, hm'.kept.limboTab.trans hm.kept.limboTab⟩,
    fun x => ?_⟩
  · rw [releaseMerge, if_pos hpos]
    exact if_pos hm'.pos
  · exact ((blocks_perm (hm'.partition.put_perm hsep)).trans blocks_cons).trans ((hm'.free x).trans (hm.free x))

/-! ### Limbo -/

/-- Extents in limbo are not empty, and have no block twice. -/
structure Waiting (t : List Extent) : Prop where
  sorted : Keyed.Sorted Extent.start t
  pos : ∀ e ∈ t, 0 < e.length
  apart : t.Pairwise Extent.Apart

theorem apart_of_blocks (he : 0 < e.length) (hf : 0 < f.length) (h : ∀ x, e.Has x → ¬ f.Has x) : e.Apart f := by
  by_contra hcon
  unfold Extent.Apart at hcon
  refine h (max e.start f.start) ?_ ?_ <;> unfold Extent.Has Extent.fin <;> omega

/-- **What was released moves on** to the table. -/
theorem commit_spec {m : IntervalSet.Intervals} {t : List Extent} (hm : IntervalSet.Wf m) (ht : Waiting t)
    (honce : ∀ x, Covers m x → ¬ Blocks t x) :
    Waiting (m.foldl (fun t p => insert Extent.start ⟨p.1, p.2⟩ t) t) ∧
      ∀ x, Blocks (m.foldl (fun t p => insert Extent.start ⟨p.1, p.2⟩ t) t) x ↔ Blocks t x ∨ Covers m x := by
  induction m generalizing t with
  | nil => exact ⟨ht, fun x => (or_iff_left (IntervalSet.covers_nil x)).symm⟩
  | cons p m ih =>
    have hpos : 0 < p.2 := hm.pos p mem_cons_self
    have hapart : ∀ e ∈ t, Extent.Apart ⟨p.1, p.2⟩ e := fun e he =>
      apart_of_blocks hpos (ht.pos e he) fun x hx hcon => honce x ((IntervalSet.covers_cons p m x).mpr (.inl hx)) ⟨e, he, hcon⟩
    have hnew : ∀ e ∈ t, e.start ≠ (⟨p.1, p.2⟩ : Extent).start := fun e he heq => by
      have := hapart e he
      have := ht.pos e he
      unfold Extent.Apart at *
      dsimp only at *
      omega
    have hperm := insert_perm ht.sorted hnew
    have ht' : Waiting (insert Extent.start ⟨p.1, p.2⟩ t) := {
      sorted := sorted_insert ht.sorted
      pos := fun e he => (mem_cons.mp (hperm.mem_iff.mp he)).elim (fun heq => heq ▸ hpos) (ht.pos e)
      apart := (hperm.pairwise_iff Extent.Apart.symm).mpr (pairwise_cons.mpr ⟨hapart, ht.apart⟩) }
    have hblocks : ∀ x, Blocks (insert Extent.start ⟨p.1, p.2⟩ t) x ↔ IntervalSet.Holds x p ∨ Blocks t x := fun x =>
      (blocks_perm hperm).trans blocks_cons
    obtain ⟨hwait, hall⟩ := ih (hm.sublist (sublist_cons_self p m)) ht' fun x hx hcon => by
      rcases (hblocks x).mp hcon with hcon | hcon
      · obtain ⟨q, hq, hqx⟩ := hx
        have := (pairwise_cons.mp hm.apart).1 q hq
        unfold IntervalSet.Holds at hqx hcon
        omega
      · exact honce x ((IntervalSet.covers_cons p m x).mpr (.inr hx)) hcon
    refine ⟨hwait, fun x => ?_⟩
    rw [foldl_cons, hall, hblocks, IntervalSet.covers_cons, or_assoc, or_left_comm]

/-- **What waited is free.** -/
theorem releaseLimbo_spec (h : Partition s) (hl : ∀ e ∈ l, 0 < e.length) (hapart : l.Pairwise Extent.Apart)
    (honce : ∀ x, Blocks l x → ¬ s.Free x) :
    ∃ s', l.foldlM (fun s ex => releaseMerge ex { s with limboBlocks := s.limboBlocks - ex.length }) s = some s' ∧
      Partition s' ∧ s'.limbo = s.limbo ∧ ∀ x, s'.Free x ↔ Blocks l x ∨ s.Free x := by
  induction l generalizing s with
  | nil => exact ⟨s, rfl, h, rfl, fun x => by simp [Blocks]⟩
  | cons e l ih =>
    obtain ⟨hpos, hl⟩ := forall_mem_cons.mp hl
    obtain ⟨he, hapart⟩ := pairwise_cons.mp hapart
    obtain ⟨s1, hrun, h1, hkept, hfree⟩ := @releaseMerge_spec { s with limboBlocks := s.limboBlocks - e.length } e
      (h.congr rfl rfl) hpos fun x hx => honce x (blocks_cons.mpr (.inl hx))
    obtain ⟨s', hrest, h', hlimbo, hall⟩ := ih h1 hl hapart fun x ⟨f, hf, hx⟩ hcon => by
      rcases (hfree x).mp hcon with hcon | hcon
      · have := he f hf
        unfold Extent.Apart Extent.Has Extent.fin at *
        omega
      · exact honce x (blocks_cons.mpr (.inr ⟨f, hf, hx⟩)) hcon
    refine ⟨s', ?_, h', hlimbo.trans hkept.limbo, fun x => ?_⟩
    · rw [foldlM_cons, hrun]
      exact hrest
    · rw [hall, hfree, blocks_cons, or_left_comm, or_assoc]
      rfl

end extents

/-! ### Runs -/

inductive Act
  | allocate (num : { n : ℕ // 0 < n }) (near : ℕ)
  | releaseIntoLimbo (ex : Extent)
  | commitLimbo
  | releaseLimbo
  | releaseMerge (ex : Extent)
  | releaseLoner (ex : Extent)

def step (s : Space) : Act → Option Space
  | .allocate num near => (allocate num near s).map Prod.snd
  | .releaseIntoLimbo ex => Allocator.releaseIntoLimbo ex s
  | .commitLimbo => some (Allocator.commitLimbo s)
  | .releaseLimbo => Allocator.releaseLimbo s
  | .releaseMerge ex => Allocator.releaseMerge ex s
  | .releaseLoner ex => Allocator.releaseLoner ex s

/-- The extent is one of the device, and has blocks that are neither free nor in limbo. -/
structure InUse (s : Space) (ex : Extent) : Prop where
  pos : 0 < ex.length
  small : ex.fin < 2 ^ 64
  used : ∀ x, ex.Has x → ¬ s.Free x ∧ ¬ Covers s.limbo.m x ∧ ¬ Blocks s.limboTab x

/-- Who releases an extent has it; who releases a loner knows that no free extent touches it. -/
def Legal (s : Space) : Act → Prop
  | .releaseIntoLimbo ex | .releaseMerge ex => InUse s ex
  | .releaseLoner ex => InUse s ex ∧ ∀ e ∈ s.all, Separate ex e
  | .allocate _ _ | .commitLimbo | .releaseLimbo => True

/-- A block is free, in limbo, or in the table of limbo, but not twice. -/
structure Inv (s : Space) : Prop where
  partition : Partition s
  limbo : IntervalSet.Wf s.limbo.m
  waiting : Waiting s.limboTab
  once : ∀ x, s.Free x → ¬ Covers s.limbo.m x ∧ ¬ Blocks s.limboTab x
  onceLimbo : ∀ x, Covers s.limbo.m x → ¬ Blocks s.limboTab x

/-- Nothing is free. -/
def start : Space := ⟨fun _ => [], 0, IntervalSet.empty, [], 0, 0⟩

theorem inv_start : Inv start where
  partition := ⟨fun _ => .nil, nofun, by decide, (.nil : [].Pairwise Separate), rfl⟩
  limbo := IntervalSet.wf_nil
  waiting := ⟨.nil, nofun, .nil⟩
  once := fun x _ => ⟨IntervalSet.covers_nil x, nofun⟩
  onceLimbo := fun x hx => absurd hx (IntervalSet.covers_nil x)

section runs

variable {s s' : Space} {ex : Extent}

theorem Inv.free (h : Inv s) (hp : Partition s') (hkept : Kept s s') (huse : InUse s ex)
    (hfree : ∀ x, s'.Free x ↔ ex.Has x ∨ s.Free x) : Inv s' := by
  obtain ⟨hlimbo, htab⟩ := hkept
  refine ⟨hp, hlimbo ▸ h.limbo, htab ▸ h.waiting, fun x hx => ?_, ?_⟩
  · rw [hlimbo, htab]
    exact ((hfree x).mp hx).elim (fun hx => (huse.used x hx).2) (h.once x)
  · rw [hlimbo, htab]
    exact h.onceLimbo

/-- **A step** does not fail, but where the device is full, and keeps the invariant. -/
theorem step_inv {a : Act} (h : Inv s) (hok : Legal s a) :
    (∀ s', step s a = some s' → Inv s') ∧ ((∀ num near, a ≠ .allocate num near) → ∃ s', step s a = some s') := by
  have hone {o : Option Space} (ho : ∃ s', o = some s' ∧ Inv s') : (∀ s', o = some s' → Inv s') ∧ ∃ s', o = some s' := by
    obtain ⟨s', rfl, hs'⟩ := ho
    exact ⟨fun t ht => Option.some.inj ht ▸ hs', s', rfl⟩
  cases a with
  | allocate num near =>
    refine ⟨fun s' hs => ?_, fun hcon => absurd rfl (hcon num near)⟩
    obtain ⟨⟨ex, t⟩, halloc, rfl⟩ := Option.map_eq_some_iff.mp hs
    obtain ⟨hp, ⟨hlimbo, htab⟩, -, -, hfree, -⟩ := allocateBy_spec h.partition findIn_mem num.2 halloc
    refine ⟨hp, hlimbo ▸ h.limbo, htab ▸ h.waiting, fun x hx => ?_, ?_⟩
    · rw [hlimbo, htab]
      exact h.once x ((hfree x).mpr (.inr hx))
    · rw [hlimbo, htab]
      exact h.onceLimbo
  | releaseIntoLimbo ex =>
    refine (hone ?_).imp_right fun hs _ => hs
    obtain ⟨t, hins, ht, hcov⟩ := IntervalSet.insert_spec h.limbo hok.pos hok.small fun x hlow hhigh =>
      (hok.used x ⟨hlow, hhigh⟩).2.1
    refine ⟨{ s with limbo := t, limboBlocks := s.limboBlocks + ex.length }, ?_, h.partition.congr rfl rfl, ht,
      h.waiting, fun x hx => ⟨fun hcon => ?_, (h.once x hx).2⟩, fun x hx => ?_⟩
    · rw [step, Allocator.releaseIntoLimbo, if_pos hok.pos, hins]
      rfl
    · rcases (hcov x).mp hcon with hcon | hcon
      · exact (h.once x hx).1 hcon
      · exact (hok.used x hcon).1 hx
    · exact ((hcov x).mp hx).elim (h.onceLimbo x) fun hx => (hok.used x hx).2.2
  | commitLimbo =>
    refine (hone ?_).imp_right fun hs _ => hs
    obtain ⟨hwait, hall⟩ := commit_spec h.limbo h.waiting h.onceLimbo
    refine ⟨_, rfl, h.partition.congr rfl rfl,
      IntervalSet.wf_nil, hwait, fun x hx => ⟨IntervalSet.covers_nil x, fun hcon => ?_⟩,
      fun x hx => absurd hx (IntervalSet.covers_nil x)⟩
    exact ((hall x).mp hcon).elim (h.once x hx).2 (h.once x hx).1
  | releaseLimbo =>
    refine (hone ?_).imp_right fun hs _ => hs
    obtain ⟨s', hrun, hp, hlimbo, hfree⟩ := releaseLimbo_spec h.partition h.waiting.pos h.waiting.apart fun x hx hcon =>
      (h.once x hcon).2 hx
    refine ⟨{ s' with limboTab := [] }, ?_, hp.congr rfl rfl, hlimbo ▸ h.limbo,
      ⟨.nil, nofun, .nil⟩, fun x hx => ⟨?_, nofun⟩, fun x _ => nofun⟩
    · rw [step, Allocator.releaseLimbo, hrun]
      rfl
    · change ¬ Covers s'.limbo.m x
      rw [hlimbo]
      exact ((hfree x).mp hx).elim (fun hx hcon => h.onceLimbo x hcon hx) fun hx => (h.once x hx).1
  | releaseMerge ex =>
    refine (hone ?_).imp_right fun hs _ => hs
    obtain ⟨s', hrun, hp, hkept, hfree⟩ := releaseMerge_spec h.partition hok.pos fun x hx => (hok.used x hx).1
    exact ⟨s', hrun, h.free hp hkept hok hfree⟩
  | releaseLoner ex =>
    refine (hone ?_).imp_right fun hs _ => hs
    obtain ⟨huse, hsep⟩ := hok
    have hp := h.partition.put huse.pos hsep
    exact ⟨_, if_pos huse.pos, h.free hp ⟨rfl, rfl⟩ huse fun x =>
      (blocks_perm (h.partition.put_perm hsep)).trans blocks_cons⟩

/-- **Free space is a partition** in every state reached, and `allocate` takes the extent that it returns
out of it. -/
theorem free_space_partition (h : Run.Reach step Legal start s) : Partition s ∧
    ∀ num near ex s', 0 < num → allocate num near s = some (ex, s') →
      0 < ex.length ∧ ex.length ≤ num ∧ (∀ x, ex.Has x → s.Free x) ∧ ∀ x, s'.Free x ↔ s.Free x ∧ ¬ ex.Has x := by
  have hinv := h.inv Inv inv_start fun s a s' hs hok hstep => (step_inv hs hok).1 s' hstep
  refine ⟨hinv.partition, fun num near ex s' hnum halloc => ?_⟩
  obtain ⟨-, -, hpos, hle, hfree, honce⟩ := allocateBy_spec hinv.partition findIn_mem hnum halloc
  refine ⟨hpos, hle, fun x hx => (hfree x).mpr (.inl hx), fun x => ?_⟩
  rw [hfree, or_and_right, and_not_self_iff, false_or]
  exact ⟨fun hx => ⟨hx, fun hcon => honce x hcon hx⟩, And.left⟩

/-- **A step leaves what waits**, but `commit_limbo` moves it on and `release_limbo` frees it. -/
theorem step_waits {a : Act} {x : ℕ} (h : Inv s) (hok : Legal s a) (hs : step s a = some s') :
    (Covers s.limbo.m x → Covers s'.limbo.m x ∨ a = .commitLimbo ∧ Blocks s'.limboTab x) ∧
      (Blocks s.limboTab x → Blocks s'.limboTab x ∨ a = .releaseLimbo) := by
  cases a with
  | allocate num near =>
    obtain ⟨⟨ex, t⟩, halloc, rfl⟩ := Option.map_eq_some_iff.mp hs
    obtain ⟨-, hkept, -⟩ := allocateBy_spec h.partition findIn_mem num.2 halloc
    rw [hkept.limbo, hkept.limboTab]
    exact ⟨.inl, .inl⟩
  | releaseIntoLimbo ex =>
    obtain ⟨t, hins, -, hcov⟩ := IntervalSet.insert_spec h.limbo hok.pos hok.small fun x hlow hhigh =>
      (hok.used x ⟨hlow, hhigh⟩).2.1
    rw [step, Allocator.releaseIntoLimbo, if_pos hok.pos, hins] at hs
    cases hs
    exact ⟨fun hx => .inl ((hcov x).mpr (.inl hx)), .inl⟩
  | commitLimbo =>
    obtain ⟨-, hall⟩ := commit_spec h.limbo h.waiting h.onceLimbo
    cases hs
    exact ⟨fun hx => .inr ⟨rfl, (hall x).mpr (.inr hx)⟩, fun hx => .inl ((hall x).mpr (.inl hx))⟩
  | releaseLimbo =>
    obtain ⟨t, hrun, -, hlimbo, -⟩ := releaseLimbo_spec h.partition h.waiting.pos h.waiting.apart fun x hx hcon =>
      (h.once x hcon).2 hx
    rw [step, Allocator.releaseLimbo, hrun] at hs
    cases hs
    exact ⟨fun hx => .inl (hlimbo ▸ hx), fun _ => .inr rfl⟩
  | releaseMerge ex =>
    obtain ⟨t, hrun, -, hkept, -⟩ := releaseMerge_spec h.partition hok.pos fun x hx => (hok.used x hx).1
    cases hs.symm.trans hrun
    rw [hkept.limbo, hkept.limboTab]
    exact ⟨.inl, .inl⟩
  | releaseLoner ex =>
    rw [step, Allocator.releaseLoner, if_pos hok.1.pos] at hs
    cases hs
    exact ⟨.inl, .inl⟩

/-- If the block waits, it does so as long as `a` does not come, and is not free. -/
def WaitsFor (a : Act) (waits : Space → Prop) (x : ℕ) (s : Space) : Prop :=
  waits s → ∀ t, Run.Reach step (fun s b => Legal s b ∧ b ≠ a) s t → waits t ∧ ¬ t.Free x

/-- **Released blocks wait**: in limbo for the next `commit_limbo`, and there or in its table for the next
`release_limbo`. Nobody gets them until then. -/
theorem released_blocks_wait (h : Run.Reach step Legal start s) (x : ℕ) :
    WaitsFor .commitLimbo (fun s => Covers s.limbo.m x) x s ∧
      WaitsFor .releaseLimbo (fun s => Covers s.limbo.m x ∨ Blocks s.limboTab x) x s := by
  have hinv := h.inv Inv inv_start fun s a s' hs hok hstep => (step_inv hs hok).1 s' hstep
  have hrun {a : Act} {waits : Space → Prop} (hfree : ∀ s, Inv s → waits s → ¬ s.Free x)
      (hkeep : ∀ s b s', Inv s → Legal s b ∧ b ≠ a → step s b = some s' → waits s → waits s') : WaitsFor a waits x s := by
    intro hw t ht
    obtain ⟨hi, hw⟩ := ht.inv (fun t => Inv t ∧ waits t) ⟨hinv, hw⟩ fun s b s' hs hok hstep =>
      ⟨(step_inv hs.1 hok.1).1 s' hstep, hkeep s b s' hs.1 hok hstep hs.2⟩
    exact ⟨hw, hfree t hi hw⟩
  constructor
  · refine hrun (fun s hi hw hx => (hi.once x hx).1 hw) fun s b s' hi hok hs hw => ?_
    exact ((step_waits hi hok.1 hs).1 hw).resolve_right fun hc => hok.2 hc.1
  · refine hrun (fun s hi hw hx => hw.elim (hi.once x hx).1 (hi.once x hx).2) fun s b s' hi hok hs hw => ?_
    obtain hw | hw := hw
    · exact ((step_waits hi hok.1 hs).1 hw).imp_right And.right
    · exact .inr (((step_waits hi hok.1 hs).2 hw).resolve_right hok.2)

end runs

theorem free_space_partition_middle : ∃ s, Run.Reach step Legal start s ∧ Partition s ∧
    ∀ num near ex s', 0 < num → allocate num near s = some (ex, s') →
      0 < ex.length ∧ ex.length ≤ num ∧ (∀ x, ex.Has x → s.Free x) ∧ ∀ x, s'.Free x ↔ s.Free x ∧ ¬ ex.Has x := by
  have huse : InUse start ⟨4, 10⟩ :=
    ⟨by decide, by decide, fun x _ => ⟨by simp [Space.Free, Blocks, Space.all, start], IntervalSet.covers_nil x, nofun⟩⟩
  have h : Run.Reach step Legal start _ := .step (.allocate ⟨3, by decide⟩ 7) (.step (.releaseMerge ⟨4, 10⟩) .init huse rfl) trivial rfl
  exact ⟨_, h, free_space_partition h⟩

theorem released_blocks_wait_middle : ∃ s, Run.Reach step Legal start s ∧ Covers s.limbo.m 5 ∧
    WaitsFor .commitLimbo (fun s => Covers s.limbo.m 5) 5 s ∧
      WaitsFor .releaseLimbo (fun s => Covers s.limbo.m 5 ∨ Blocks s.limboTab 5) 5 s := by
  have huse : InUse start ⟨4, 10⟩ :=
    ⟨by decide, by decide, fun x _ => ⟨by simp [Space.Free, Blocks, Space.all, start], IntervalSet.covers_nil x, nofun⟩⟩
  have h : Run.Reach step Legal start _ := .step (.releaseIntoLimbo ⟨4, 10⟩) .init huse rfl
  exact ⟨_, h, ⟨(4, 10), mem_cons_self, by decide⟩, released_blocks_wait h 5⟩

end Allocator
end Ebofs
end Ceph
