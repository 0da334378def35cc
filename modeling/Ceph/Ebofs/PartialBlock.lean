/-
# Partially written blocks

A block that is overwritten in part before it is read has what was written in a map of fragments
(`BufferHead::partial`), which `apply_partial` lays over the block when that is there.
`add_partial` makes room for new data: it drops the fragments that the data hides and cuts
those that it meets. `have_partial_range` and `copy_partial_substr` are for reads
of bytes that were all written.

The fragments are those of `Fragments`. Empty data makes room for nothing, and takes the place of
a fragment that begins where it does, or, in a fragment, of the right half. And the two queries
take the first fragment that ends at the start of the range or behind it: of a fragment that
ends beyond the range `have_partial_range` asks what comes next all the same, and of one
that begins before the range and ends in it `copy_partial_substr` wants too much.
-/
import Mathlib.Tactic.IntervalCases
import Ceph.Lib.Fragments
import Ceph.Lib.Wire

namespace Ceph
namespace Ebofs

open Option
open List hiding after
open Fragments
open Wire (Bytes)

/-! ### The code -/

/-- `EBOFS_BLOCK_SIZE`. -/
def blockSize : ℕ := 4096

/-- `calc_csum`: the sum of the words. -/
def calcCsum : Bytes → UInt64
  | b₀ :: b₁ :: b₂ :: b₃ :: b₄ :: b₅ :: b₆ :: b₇ :: rest =>
    UInt64.ofNat (Wire.unLe [b₀, b₁, b₂, b₃, b₄, b₅, b₆, b₇]) + calcCsum rest
  | _ => 0

theorem calcCsum_zeros (n : ℕ) : calcCsum (List.replicate (8 * n) 0) = 0 := by
  induction n with
  | zero => rfl
  | succ n ih =>
    change 0 + calcCsum (List.replicate (8 * n) 0) = 0
    rw [ih, UInt64.zero_add]

/-- `substr_of`. -/
def substrOf (bl : Bytes) (off len : ℕ) : Option Bytes :=
  if off + len ≤ bl.length then some ((bl.drop off).take len) else none

theorem length_substrOf {bl data : Bytes} {off len : ℕ} (h : substrOf bl off len = some data) : data.length = len := by
  unfold substrOf at h
  split_ifs at h
  cases h
  rw [length_take, length_drop]
  omega

/-- `copy_in`. -/
def copyIn (bl : Bytes) (off : ℕ) (src : Bytes) : Option Bytes :=
  if off + src.length ≤ bl.length then some (patch bl (off, src)) else none

/-- `map<off_t, bufferlist>`. -/
abbrev Partial : Type := List (Frag UInt8)

/-- The loop of `add_partial`, which makes room for `len` bytes at `off`: on the map, from its iterator on. -/
def trimPartial (off len : ℕ) : Partial → Partial
  | [] => []
  | i :: rest =>
    if fin i ≤ off then i :: trimPartial off len rest                           -- past i?
    else if off + len ≤ i.1 then i :: rest                                      -- before i?
    else if off ≤ i.1 ∧ fin i ≤ off + len then trimPartial off len rest         -- overlap all of i?
    else if i.1 < off ∧ fin i ≤ off + len then                                  -- overlap tail of i?
      before off i :: trimPartial off len rest
    else if off ≤ i.1 then                                                      -- overlap head of i?
      after (off + len) i :: trimPartial off len rest
    else                                                                        -- split i?
      before off i :: after (off + len) i :: rest

/-- `add_partial`. -/
def addPartial (off : ℕ) (p : Bytes) (pm : Partial) : Option Partial :=
  if off + p.length ≤ blockSize then some (Keyed.insert Prod.fst (off, p) (trimPartial off p.length pm)) else none

/-- `do_apply_partial`, with the map cleared. -/
def doApplyPartial (bl : Bytes) (pm : Partial) : Option (Bytes × Partial) :=
  if bl.length = blockSize then (pm.foldlM (fun bl i => copyIn bl i.1 i.2) bl).map (·, []) else none

/-- A block and its fragments, with the checksums of the block and of the object. -/
structure PartialBlock where
  data : Bytes
  frags : Partial
  csum : UInt64
  dataCsum : UInt64
deriving DecidableEq

/-- `apply_partial`. -/
def applyPartial (b : PartialBlock) : Option PartialBlock :=
  if b.frags = [] then none
  else (doApplyPartial b.data b.frags).map fun r =>
    { data := r.1, frags := r.2, csum := calcCsum r.1, dataCsum := b.dataCsum + (calcCsum r.1 - b.csum) }

/-- The first loop of the queries. It reads what the iterator points to before it asks whether that is the
end, but what it reads there makes no difference. -/
def skipLeft (start : ℕ) (pm : Partial) : Partial := pm.dropWhile fun i => fin i < start

/-- The second loop of `have_partial_range`. -/
def haveLoop (stop pos : ℕ) : Partial → Option Bool
  | [] => some (stop ≤ pos)
  | i :: rest =>
    if i.1 < pos then none
    else if pos < i.1 then some false
    else if stop ≤ fin i then some true
    else haveLoop stop (fin i) rest

/-- `have_partial_range`. -/
def havePartialRange (start stop : ℕ) (pm : Partial) : Option Bool :=
  match skipLeft start pm with
  | [] => some false
  | i :: rest => if start < i.1 then some false else haveLoop stop (fin i) rest

/-- `partial_is_complete`. -/
def partialIsComplete (size : ℕ) (pm : Partial) : Option Bool := havePartialRange 0 (min size blockSize) pm

/-- The second loop of `copy_partial_substr`, with its last assertions. -/
def copyLoop (start stop pos : ℕ) (bl : Bytes) : Partial → Option Bytes
  | [] => if stop ≤ pos ∧ bl.length = stop - start then some bl else none
  | i :: rest =>
    if stop ≤ pos then if bl.length = stop - start then some bl else none
    else if pos ≠ i.1 then none
    else if fin i ≤ stop then copyLoop start stop (fin i) (bl ++ i.2) rest
    else (substrOf i.2 0 (stop - start - bl.length)).bind fun frag =>
      if (bl ++ frag).length = stop - start then some (bl ++ frag) else none

/-- `copy_partial_substr`. -/
def copyPartialSubstr (start stop : ℕ) (pm : Partial) : Option Bytes :=
  match skipLeft start pm with
  | [] => none
  | i :: rest =>
    if start < i.1 then none
    else (substrOf i.2 (max start i.1 - i.1) (min (stop - start) i.2.length)).bind fun bl =>
      copyLoop start stop (fin i) bl rest

/-! ### What it is for -/

/-- A sequence of `add_partial`. -/
def adds (ops : List (Frag UInt8)) : Option Partial := ops.foldlM (fun pm o => addPartial o.1 o.2 pm) []

/-- What was last written to a byte. -/
def written (ops : List (Frag UInt8)) (x : ℕ) : Option UInt8 := ops.foldl (fun v o => (get o x).or v) none

/-- The fragments are apart, in the block, and have what was written. -/
structure Represents (ops : List (Frag UInt8)) (pm : Partial) : Prop where
  apart : Apart pm
  inside : ∀ f ∈ pm, fin f ≤ blockSize
  value_eq : ∀ x, value pm x = written ops x

/-- All bytes of a range were written. -/
def AllWritten (ops : List (Frag UInt8)) (start stop : ℕ) : Prop :=
  ∀ x, start ≤ x → x < stop → (written ops x).isSome

/-- The fragments are as good as a block with holes: after each step they represent what was written, at the end they are
laid over a block where they are to be, and a range is found and copied if it was all written. -/
structure SparseBlock (ops : List (Frag UInt8)) (start stop : ℕ) : Prop where
  represents : ∀ done, done <+: ops → ∃ pm, adds done = some pm ∧ Represents done pm
  applied : ∀ pm b, adds ops = some pm → b.frags = pm → pm ≠ [] → b.data.length = blockSize →
    ∃ b', applyPartial b = some b' ∧ b'.frags = [] ∧ b'.csum = calcCsum b'.data ∧
      ∀ x : ℕ, b'.data[x]? = (written ops x).or b.data[x]?
  found : ∀ pm, adds ops = some pm →
    ∃ found, havePartialRange start stop pm = some found ∧ (found = true ↔ AllWritten ops start stop)
  copied : ∀ pm, adds ops = some pm → havePartialRange start stop pm = some true →
    ∃ bl, copyPartialSubstr start stop pm = some bl ∧ bl.length = stop - start ∧
      ∀ x, start ≤ x → x < stop → bl[x - start]? = written ops x

/-- No empty data is put where something was written. -/
def NothingLost (ops : List (Frag UInt8)) : Prop :=
  ∀ done o, done ++ [o] <+: ops → o.2 = [] → written done o.1 = none

/-- A query for the range gets along with the fragment that it begins with: if that reaches to the end of the range, no gap
follows it; if it ends before, and the range was written, it begins where the range does. -/
def RangeFits (start stop : ℕ) (pm : Partial) : Prop :=
  match skipLeft start pm with
  | [] => start < stop
  | i :: rest =>
    if start < i.1 then start < stop
    else if stop ≤ fin i then ∀ j, rest.head? = some j → j.1 = fin i
    else (∀ x, start ≤ x → x < stop → (value pm x).isSome) → i.1 = start

/-! ### Making room -/

section trim

variable {off len x : ℕ} {p : Bytes} {pm pm' : Partial} {i g : Frag UInt8}

/-- What is left is part of what was there. -/
theorem trimPartial_within (hg : g ∈ trimPartial off len pm) : ∃ f ∈ pm, f.1 ≤ g.1 ∧ fin g ≤ fin f := by
  induction pm with
  | nil => cases hg
  | cons i rest ih =>
    have hrest : g ∈ trimPartial off len rest → ∃ f ∈ i :: rest, f.1 ≤ g.1 ∧ fin g ≤ fin f := fun h => by
      obtain ⟨f, hf, hin⟩ := ih h
      exact ⟨f, mem_cons_of_mem _ hf, hin⟩
    rw [trimPartial] at hg
    split_ifs at hg with hpast hbefore hall htail hhead
    · rcases mem_cons.mp hg with rfl | hg
      · exact ⟨g, mem_cons_self, le_rfl, le_rfl⟩
      · exact hrest hg
    · exact ⟨g, hg, le_rfl, le_rfl⟩
    · exact hrest hg
    · rcases mem_cons.mp hg with rfl | hg
      · exact ⟨i, mem_cons_self, le_rfl, by rw [fin_before (by omega)]; omega⟩
      · exact hrest hg
    · rcases mem_cons.mp hg with rfl | hg
      · exact ⟨i, mem_cons_self, by rw [after]; omega, (fin_after (by omega)).le⟩
      · exact hrest hg
    · rcases mem_cons.mp hg with rfl | hg
      · exact ⟨i, mem_cons_self, le_rfl, by rw [fin_before (by omega)]; omega⟩
      · rcases mem_cons.mp hg with rfl | hg
        · exact ⟨i, mem_cons_self, by rw [after]; omega, (fin_after (by omega)).le⟩
        · exact ⟨g, mem_cons_of_mem _ hg, le_rfl, le_rfl⟩

theorem trimPartial_behind (h : Apart (i :: pm)) (hg : g ∈ trimPartial off len pm) : fin i ≤ g.1 ∧ i.1 < g.1 := by
  obtain ⟨f, hf, hle, -⟩ := trimPartial_within hg
  obtain ⟨hfin, hlt⟩ := (pairwise_cons.mp h).1 f hf
  exact ⟨hfin.trans hle, hlt.trans_le hle⟩

/-- **The fragments that are left** are apart, and leave room. -/
theorem apart_trimPartial (h : Apart pm) : Apart (trimPartial off len pm) := by
  induction pm with
  | nil => exact h
  | cons i rest ih =>
    have hrest := ih (pairwise_cons.mp h).2
    have hbehind : ∀ g ∈ trimPartial off len rest, fin i ≤ g.1 ∧ i.1 < g.1 := fun g hg => trimPartial_behind h hg
    rw [trimPartial]
    split_ifs with hpast hbefore hall htail hhead
    · exact pairwise_cons.mpr ⟨hbehind, hrest⟩
    · exact h
    · exact hrest
    · refine pairwise_cons.mpr ⟨fun g hg => ?_, hrest⟩
      have := hbehind g hg
      rw [fin_before (by omega), before]
      omega
    · refine pairwise_cons.mpr ⟨fun g hg => ?_, hrest⟩
      have := hbehind g hg
      rw [fin_after (by omega), after]
      omega
    · obtain ⟨hafter, hpost⟩ := pairwise_cons.mp h
      refine pairwise_cons.mpr ⟨forall_mem_cons.mpr ⟨?_, fun g hg => ?_⟩,
        pairwise_cons.mpr ⟨fun g hg => ?_, hpost⟩⟩
      · rw [fin_before (by omega), before, after]
        omega
      · have := hafter g hg
        rw [fin_before (by omega), before]
        omega
      · have := hafter g hg
        rw [fin_after (by omega), after]
        omega

theorem trimPartial_room (h : Apart pm) : ∀ g ∈ trimPartial off len pm, fin g ≤ off ∨ off + len ≤ g.1 := by
  induction pm with
  | nil => exact nofun
  | cons i rest ih =>
    obtain ⟨hafter, hpost⟩ := pairwise_cons.mp h
    have hrest := ih hpost
    rw [trimPartial]
    split_ifs with hpast hbefore hall htail hhead
    · exact forall_mem_cons.mpr ⟨.inl hpast, hrest⟩
    · exact forall_mem_cons.mpr ⟨.inr hbefore, fun g hg => .inr (hbefore.trans (hafter g hg).2.le)⟩
    · exact hrest
    · exact forall_mem_cons.mpr ⟨.inl (fin_before (by omega)).le, hrest⟩
    · exact forall_mem_cons.mpr ⟨.inr le_rfl, hrest⟩
    · refine forall_mem_cons.mpr ⟨.inl (fin_before (by omega)).le, forall_mem_cons.mpr ⟨.inr le_rfl,
        fun g hg => .inr ?_⟩⟩
      have := hafter g hg
      omega

/-- **What is lost** is what the data hides. -/
theorem value_trimPartial (h : Apart pm) (x : ℕ) :
    value (trimPartial off len pm) x = if off ≤ x ∧ x < off + len then none else value pm x := by
  by_cases hx : off ≤ x ∧ x < off + len
  · rw [if_pos hx]
    refine value_outside fun g hg hin => ?_
    have := trimPartial_room h g hg
    omega
  rw [if_neg hx]
  induction pm with
  | nil => rfl
  | cons i rest ih =>
    have hrest := ih (pairwise_cons.mp h).2
    have hi : fin i ≤ x → get i x = none := fun hle => get_outside fun hin => absurd hin.2 (not_lt.mpr hle)
    have hi' : x < i.1 → get i x = none := fun hlt => get_outside fun hin => absurd hin.1 (not_le.mpr hlt)
    rw [trimPartial]
    split_ifs with hpast hbefore hall htail hhead
    · rw [value_cons, value_cons, hrest]
    · rfl
    · rw [value_cons, hrest, get_outside (f := i) (by omega), none_or]
    · rw [value_cons, value_cons, hrest, get_before (by omega)]
      split_ifs
      · rfl
      · rw [hi (by omega)]
    · rw [value_cons, value_cons, hrest, get_after (by omega)]
      split_ifs
      · rw [hi' (by omega)]
      · rfl
    · rw [value_cons, value_cons, value_cons, get_before (by omega), get_after (by omega)]
      split_ifs
      · rw [none_or]
      · omega
      · omega
      · rw [none_or]

/-- **One `add_partial`.** What it adds is on top of what was there, unless it is empty and something was there. -/
theorem addPartial_spec (h : Apart pm) (hinside : ∀ f ∈ pm, fin f ≤ blockSize) (hin : off + p.length ≤ blockSize) :
    ∃ pm', addPartial off p pm = some pm' ∧ Apart pm' ∧ (∀ f ∈ pm', fin f ≤ blockSize) ∧
      ((p = [] → value pm off = none) → ∀ x, value pm' x = (get (off, p) x).or (value pm x)) ∧
      (p = [] → value pm' off = none) := by
  have htrim : Apart (trimPartial off p.length pm) := apart_trimPartial h
  have hroom : ∀ g ∈ trimPartial off p.length pm, fin g ≤ (off, p).1 ∨ fin (off, p) ≤ g.1 := trimPartial_room h
  have hinsert := apart_insert htrim hroom
  refine ⟨_, if_pos hin, hinsert, fun f hf => ?_, fun hlost x => ?_, ?_⟩
  · rcases Keyed.mem_insert.mp hf with rfl | ⟨hf, -⟩
    · exact hin
    · obtain ⟨g, hg, -, hle⟩ := trimPartial_within hf
      exact hle.trans (hinside g hg)
  · have hempty : ∀ g ∈ trimPartial off p.length pm, g.1 = (off, p).1 → g.2 = [] := by
      intro g hg hkey
      by_contra hne
      have hlen := length_pos_iff.mpr hne
      have hfin : fin g = g.1 + g.2.length := rfl
      have hapart := trimPartial_room h g hg
      obtain rfl : p = [] := eq_nil_iff_length_eq_zero.mpr (by omega)
      -- it would be what is known of the place
      have hsome := value_of_mem (x := off) htrim hg (by omega)
      rw [value_trimPartial h, if_neg (by simp), hlost rfl] at hsome
      have := get_isSome (f := g) (x := off)
      rw [← hsome] at this
      simp only [isSome_none, Bool.false_eq_true, false_iff] at this
      omega
    rw [value_insert htrim hroom hempty, value_trimPartial h]
    by_cases hx : off ≤ x ∧ x < off + p.length
    · have hsome : (get (off, p) x).isSome := get_isSome.mpr hx
      rw [or_of_isSome hsome, or_of_isSome hsome]
    · rw [if_neg hx]
  · rintro rfl
    refine value_outside fun g hg hin => ?_
    have hfin : fin g = g.1 + g.2.length := rfl
    rcases Keyed.mem_insert.mp hg with rfl | ⟨hg, hne⟩
    · simp only [length_nil] at hfin
      omega
    · have := hroom g hg
      simp only [fin, length_nil] at this hin hne
      omega

end trim

/-! ### A sequence of additions -/

section adds

variable {ops done : List (Frag UInt8)} {o : Frag UInt8} {pm : Partial} {x : ℕ}

theorem adds_append (done : List (Frag UInt8)) (o : Frag UInt8) :
    adds (done ++ [o]) = (adds done).bind (addPartial o.1 o.2) := by
  simp [adds, foldlM_append]

@[simp] theorem written_append (done : List (Frag UInt8)) (o : Frag UInt8) (x : ℕ) :
    written (done ++ [o]) x = (get o x).or (written done x) := by
  simp [written]

theorem NothingLost.earlier (h : NothingLost ops) (hpre : done <+: ops) : NothingLost done :=
  fun d o hd => h d o (hd.trans hpre)

theorem nothingLost_of_ne (h : ∀ o ∈ ops, o.2 ≠ []) : NothingLost ops := fun _ o hd he =>
  absurd he (h o (hd.subset (mem_append_right _ (mem_singleton_self o))))

/-- **A sequence of additions** represents what was written if nothing is lost. -/
theorem adds_represents (hin : ∀ o ∈ ops, fin o ≤ blockSize) :
    ∃ pm, adds ops = some pm ∧ Apart pm ∧ (∀ f ∈ pm, fin f ≤ blockSize) ∧
      (NothingLost ops → ∀ x, value pm x = written ops x) := by
  induction ops using List.reverseRecOn with
  | nil => exact ⟨[], rfl, .nil, nofun, fun _ _ => rfl⟩
  | append_singleton done o ih =>
    obtain ⟨hdone, ho⟩ := forall_mem_append.mp hin
    obtain ⟨pm, hpm, hapart, hinside, hvalue⟩ := ih hdone
    obtain ⟨pm', hadd, hapart', hinside', hvalue', -⟩ :=
      addPartial_spec hapart hinside (ho o (mem_singleton_self o))
    refine ⟨pm', ?_, hapart', hinside', fun hlost x => ?_⟩
    · rw [adds_append, hpm, bind_some, hadd]
    · have hbefore := hvalue (hlost.earlier (prefix_append done [o]))
      have hfree : o.2 = [] → value pm o.1 = none := fun he => by
        rw [hbefore]
        exact hlost done o (prefix_rfl) he
      rw [hvalue' hfree, hbefore, written_append]

theorem represents_iff (hin : ∀ o ∈ ops, fin o ≤ blockSize) :
    (∀ done, done <+: ops → ∃ pm, adds done = some pm ∧ Represents done pm) ↔ NothingLost ops := by
  have hdone : ∀ done, done <+: ops → ∀ o ∈ done, fin o ≤ blockSize := fun done hd o ho => hin o (hd.subset ho)
  constructor
  · intro h done o hd he
    obtain ⟨pm, hpm, hrep⟩ := h done ((prefix_append done [o]).trans hd)
    obtain ⟨pm', hpm', hrep'⟩ := h (done ++ [o]) hd
    have ho := hdone _ hd o (mem_append_right _ (mem_singleton_self o))
    obtain ⟨pm'', hadd, -, -, -, hnone⟩ := addPartial_spec hrep.apart hrep.inside ho
    rw [adds_append, hpm, bind_some, hadd] at hpm'
    cases hpm'
    have hlost := (hrep'.value_eq o.1).symm.trans (hnone he)
    rw [written_append, or_eq_none_iff] at hlost
    exact hlost.2
  · intro hlost done hd
    obtain ⟨pm, hpm, hapart, hinside, hvalue⟩ := adds_represents (hdone done hd)
    exact ⟨pm, hpm, hapart, hinside, hvalue (hlost.earlier hd)⟩

/-! ### Laying over -/

theorem copyIn_all (hapart : Apart pm) {bl : Bytes} (hinside : ∀ f ∈ pm, fin f ≤ bl.length) :
    ∃ r, pm.foldlM (fun bl i => copyIn bl i.1 i.2) bl = some r ∧ ∀ x, r[x]? = (value pm x).or bl[x]? := by
  induction pm generalizing bl with
  | nil => exact ⟨bl, rfl, fun _ => rfl⟩
  | cons i rest ih =>
    obtain ⟨hafter, hpost⟩ := pairwise_cons.mp hapart
    obtain ⟨hi, hrest⟩ := forall_mem_cons.mp hinside
    have hlen := length_patch hi
    obtain ⟨r, hfold, hr⟩ := @ih hpost (patch bl i) (by rwa [hlen])
    have hcopy : copyIn bl i.1 i.2 = some (patch bl i) := if_pos hi
    refine ⟨r, ?_, fun x => ?_⟩
    · rw [foldlM_cons, hcopy]
      exact hfold
    · rw [hr, patch_getElem? hi, value_cons, Option.or_assoc]
      -- a byte is in one of them only
      by_cases hx : i.1 ≤ x ∧ x < fin i
      · have hnone : value rest x = none := value_outside fun f hf hin => by
          have := (hafter f hf).1
          omega
        rw [hnone, none_or, none_or]
      · rw [get_outside hx, none_or, none_or]

/-- **`apply_partial`** lays the fragments over the block. -/
theorem applyPartial_spec {b : PartialBlock} (hapart : Apart b.frags) (hinside : ∀ f ∈ b.frags, fin f ≤ blockSize)
    (hne : b.frags ≠ []) (hlen : b.data.length = blockSize) :
    ∃ b', applyPartial b = some b' ∧ b'.frags = [] ∧ b'.csum = calcCsum b'.data ∧
      ∀ x : ℕ, b'.data[x]? = (value b.frags x).or b.data[x]? := by
  obtain ⟨r, hfold, hr⟩ := @copyIn_all _ hapart b.data (by rwa [hlen])
  refine ⟨⟨r, [], calcCsum r, b.dataCsum + (calcCsum r - b.csum)⟩, ?_, rfl, rfl, hr⟩
  rw [applyPartial, if_neg hne, doApplyPartial, if_pos hlen, hfold]
  rfl

end adds

/-! ### The queries -/

section queries

variable {pm rest : Partial} {i : Frag UInt8} {start stop pos x : ℕ} {bl : Bytes}

/-- All bytes of a range are known. -/
def Known (pm : Partial) (start stop : ℕ) : Prop := ∀ x, start ≤ x → x < stop → (value pm x).isSome

/-- `copy_partial_substr` gives what is known of a range. -/
def Copied (start stop : ℕ) (pm : Partial) : Prop :=
  ∃ bl, copyPartialSubstr start stop pm = some bl ∧ bl.length = stop - start ∧
    ∀ x, start ≤ x → x < stop → bl[x - start]? = value pm x

/-- Both queries for a range answer as they are to. -/
def Answers (start stop : ℕ) (pm : Partial) : Prop :=
  (∃ found, havePartialRange start stop pm = some found ∧ (found = true ↔ Known pm start stop)) ∧
    (havePartialRange start stop pm = some true → Copied start stop pm)

theorem skipLeft_spec (start : ℕ) (pm : Partial) :
    ∃ pre, pm = pre ++ skipLeft start pm ∧ (∀ f ∈ pre, fin f < start) ∧
      ∀ i, (skipLeft start pm).head? = some i → start ≤ fin i := by
  refine ⟨pm.takeWhile fun i => fin i < start, (takeWhile_append_dropWhile).symm, fun f hf => ?_, fun i hi => ?_⟩
  · simpa using mem_takeWhile_imp hf
  · have := head?_dropWhile_not (fun i : Frag UInt8 => decide (fin i < start)) pm
    rw [show pm.dropWhile _ = skipLeft start pm from rfl, hi] at this
    simpa using this

theorem value_behind {j : Frag UInt8} (hx : fin j ≤ x) : value (j :: rest) x = value rest x := by
  rw [value_cons, get_outside (fun hin => absurd hin.2 (not_lt.mpr hx)), none_or]

theorem Known.next {j : Frag UInt8} (h : Apart (i :: j :: rest)) (hlt : fin i < stop)
    (hk : Known (j :: rest) (fin i) stop) : j.1 = fin i := by
  obtain ⟨hafter, hrest⟩ := pairwise_cons.mp h
  obtain ⟨f, hf, hin⟩ := value_isSome.mp (hk (fin i) le_rfl hlt)
  have hj := (hafter j mem_cons_self).1
  rcases mem_cons.mp hf with rfl | hf
  · omega
  · have := (pairwise_cons.mp hrest).1 f hf
    omega

theorem known_cons {j : Frag UInt8} (hadj : j.1 = fin i) :
    Known (j :: rest) (fin i) stop ↔ Known rest (fin j) stop := by
  have hle : fin i ≤ fin j := by
    rw [← hadj]
    exact Nat.le_add_right _ _
  constructor
  · intro hk x hlow hhigh
    rw [← value_behind hlow]
    exact hk x (hle.trans hlow) hhigh
  · intro hk x hlow hhigh
    rcases lt_or_ge x (fin j) with hx | hx
    · exact value_isSome.mpr ⟨j, mem_cons_self, hadj ▸ hlow, hx⟩
    · rw [value_behind hx]
      exact hk x hx hhigh

/-- **The loop of `have_partial_range`** goes on as long as there is no gap. -/
theorem haveLoop_spec (h : Apart (i :: rest)) (hlt : fin i < stop) :
    ∃ found, haveLoop stop (fin i) rest = some found ∧ (found = true ↔ Known rest (fin i) stop) := by
  induction rest generalizing i with
  | nil =>
    refine ⟨false, ?_, iff_of_false nofun fun hk => ?_⟩
    · rw [haveLoop, decide_eq_false (not_le.mpr hlt)]
    · nomatch hk (fin i) le_rfl hlt
  | cons j rest ih =>
    obtain ⟨hafter, hrest⟩ := pairwise_cons.mp h
    have hj := (hafter j mem_cons_self).1
    rw [haveLoop, if_neg (not_lt.mpr hj)]
    rcases hj.lt_or_eq with hgap | heq
    · exact ⟨false, if_pos hgap, iff_of_false nofun fun hk => hgap.ne' (hk.next h hlt)⟩
    · rw [if_neg (not_lt.mpr heq.ge)]
      rcases le_or_gt stop (fin j) with hend | hmore
      · refine ⟨true, if_pos hend, iff_of_true rfl fun x hlow hhigh => ?_⟩
        exact value_isSome.mpr ⟨j, mem_cons_self, heq ▸ hlow, hhigh.trans_le hend⟩
      · obtain ⟨found, hfound, hiff⟩ := ih hrest hmore
        exact ⟨found, by rw [if_neg (not_le.mpr hmore), hfound], hiff.trans (known_cons heq.symm).symm⟩

theorem copyLoop_done (hend : stop ≤ pos) (hlen : bl.length = stop - start) :
    copyLoop start stop pos bl rest = some bl := by
  cases rest with
  | nil => exact if_pos ⟨hend, hlen⟩
  | cons i rest => rw [copyLoop, if_pos hend, if_pos hlen]

theorem copied_next {j : Frag UInt8} (hadj : j.1 = fin i) (hstart : start ≤ fin i)
    (hlen : bl.length = fin i - start) (hx : start ≤ x ∧ x < fin j) :
    (bl ++ j.2)[x - start]? = if x < fin i then bl[x - start]? else value (j :: rest) x := by
  split_ifs with hlow
  · exact getElem?_append_left (by omega)
  · rw [getElem?_append_right (by omega), value_cons, or_of_isSome (get_isSome.mpr (by omega)),
      get_from (by omega)]
    congr 1
    omega

/-- **The loop of `copy_partial_substr`** copies what comes next. -/
theorem copyLoop_spec (h : Apart (i :: rest)) (hlt : fin i < stop) (hstart : start ≤ fin i)
    (hlen : bl.length = fin i - start) (hk : Known rest (fin i) stop) :
    ∃ r, copyLoop start stop (fin i) bl rest = some r ∧ r.length = stop - start ∧
      ∀ x, start ≤ x → x < stop → r[x - start]? = if x < fin i then bl[x - start]? else value rest x := by
  induction rest generalizing i bl with
  | nil => nomatch hk (fin i) le_rfl hlt
  | cons j rest ih =>
    have hadj := hk.next h hlt
    obtain ⟨-, hrest⟩ := pairwise_cons.mp h
    have hk' := (known_cons hadj).mp hk
    have hfin : fin j = fin i + j.2.length := by rw [← hadj]; rfl
    have hlen' : (bl ++ j.2).length = fin j - start := by
      rw [List.length_append, hlen]
      omega
    rw [copyLoop, if_neg (not_le.mpr hlt), if_neg (not_not.mpr hadj.symm)]
    rcases lt_trichotomy (fin j) stop with hmore | heq | hend
    · obtain ⟨r, hr, hrlen, hvalue⟩ := ih hrest hmore (by omega) hlen' hk'
      refine ⟨r, by rw [if_pos hmore.le, hr], hrlen, fun x hlow hhigh => ?_⟩
      rw [hvalue x hlow hhigh]
      rcases lt_or_ge x (fin j) with hx | hx
      · rw [if_pos hx]
        exact copied_next hadj hstart hlen ⟨hlow, hx⟩
      · rw [if_neg (not_lt.mpr hx), if_neg (by omega), value_behind hx]
    · refine ⟨bl ++ j.2, ?_, by rw [hlen', heq], fun x hlow hhigh => ?_⟩
      · rw [if_pos heq.le]
        exact copyLoop_done heq.ge (by rw [hlen', heq])
      · exact copied_next hadj hstart hlen ⟨hlow, heq ▸ hhigh⟩
    · -- a part of the fragment
      have hsub : substrOf j.2 0 (stop - start - bl.length) = some (j.2.take (stop - start - bl.length)) :=
        if_pos (by omega)
      have hbl : bl.take (stop - start) = bl := take_of_length_le (by omega)
      have hall : bl ++ j.2.take (stop - start - bl.length) = (bl ++ j.2).take (stop - start) := by
        rw [take_append, hbl]
      have hlen'' : ((bl ++ j.2).take (stop - start)).length = stop - start := length_take_of_le (by omega)
      refine ⟨(bl ++ j.2).take (stop - start), ?_, hlen'', fun x hlow hhigh => ?_⟩
      · rw [if_neg (not_le.mpr hend), hsub, bind_some, hall, if_pos hlen'']
      · rw [getElem?_take, if_pos (by omega)]
        exact copied_next hadj hstart hlen ⟨hlow, hhigh.trans hend⟩

theorem haveLoop_inside (h : Apart (i :: rest)) (hend : stop ≤ fin i) :
    haveLoop stop (fin i) rest = some true ↔ ∀ j, rest.head? = some j → j.1 = fin i := by
  cases rest with
  | nil => exact iff_of_true (by rw [haveLoop, decide_eq_true hend]) nofun
  | cons j rest =>
    have hj := ((pairwise_cons.mp h).1 j mem_cons_self).1
    have hfin : j.1 ≤ fin j := Nat.le_add_right _ _
    rw [haveLoop, if_neg (not_lt.mpr hj)]
    rcases hj.lt_or_eq with hgap | heq
    · rw [if_pos hgap]
      exact iff_of_false (by simp) fun hnext => hgap.ne' (hnext j rfl)
    · rw [if_neg (not_lt.mpr heq.ge), if_pos (hend.trans (heq.le.trans hfin))]
      refine iff_of_true rfl fun k hk => ?_
      cases hk
      exact heq.symm

section first

variable {pre : Partial} (hpre : ∀ f ∈ pre, fin f < start) (hskip : skipLeft start (pre ++ i :: rest) = i :: rest)
  (hi : i.1 ≤ start ∧ start ≤ fin i)

include hpre in
theorem value_skipped (hx : start ≤ x) : value (pre ++ i :: rest) x = value (i :: rest) x := by
  have hnone : value pre x = none := value_outside fun f hf hin => by
    have := hpre f hf
    omega
  rw [value_append, hnone, none_or]

include hpre hi in
theorem value_first (hx : start ≤ x ∧ x < fin i) : value (pre ++ i :: rest) x = get i x := by
  have hsome : (get i x).isSome := get_isSome.mpr (by omega)
  rw [value_skipped hpre hx.1, value_cons, or_of_isSome hsome]

include hskip hi in
theorem copyPartialSubstr_first : copyPartialSubstr start stop (pre ++ i :: rest) =
      (substrOf i.2 (start - i.1) (min (stop - start) i.2.length)).bind fun bl => copyLoop start stop (fin i) bl rest := by
  have hmax : max start i.1 - i.1 = start - i.1 := by omega
  rw [copyPartialSubstr, hskip]
  dsimp only
  rw [if_neg (not_lt.mpr hi.1), hmax]

include hpre hskip hi in
theorem copied_inside (hend : stop ≤ fin i) (hle : start ≤ stop) : Copied start stop (pre ++ i :: rest) := by
  have hfin : fin i = i.1 + i.2.length := rfl
  have hmin : min (stop - start) i.2.length = stop - start := by omega
  have hlen : ((i.2.drop (start - i.1)).take (stop - start)).length = stop - start :=
    length_take_of_le (by rw [length_drop]; omega)
  refine ⟨(i.2.drop (start - i.1)).take (stop - start), ?_, hlen, fun x hlow hhigh => ?_⟩
  · rw [copyPartialSubstr_first hskip hi, hmin, substrOf, if_pos (by omega), bind_some, copyLoop_done hend hlen]
  · rw [value_first hpre hi ⟨hlow, hhigh.trans_le hend⟩, get_from (by omega), getElem?_take, if_pos (by omega),
      getElem?_drop]
    congr 1
    omega

include hpre hskip hi in
theorem copied_beyond (h : Apart (i :: rest)) (hlt : fin i < stop) (hk : Known rest (fin i) stop) :
    Copied start stop (pre ++ i :: rest) ↔ i.1 = start := by
  have hfin : fin i = i.1 + i.2.length := rfl
  have hcopy := @copyPartialSubstr_first _ _ _ stop _ hskip hi
  constructor
  · rintro ⟨bl, hbl, -⟩
    rw [hcopy] at hbl
    obtain ⟨sub, hsub, -⟩ := bind_eq_some_iff.mp hbl
    unfold substrOf at hsub
    split_ifs at hsub with hroom
    omega
  · rintro rfl
    have hmin : min (stop - i.1) i.2.length = i.2.length := by omega
    have hsub : substrOf i.2 (i.1 - i.1) (min (stop - i.1) i.2.length) = some i.2 := by
      rw [hmin, Nat.sub_self, substrOf, if_pos (Nat.zero_add _).le, drop_zero, take_length]
    obtain ⟨r, hr, hlen, hvalue⟩ := @copyLoop_spec _ _ _ _ i.2 h hlt hi.2 (by omega) hk
    refine ⟨r, ?_, hlen, fun x hlow hhigh => ?_⟩
    · rw [hcopy, hsub, bind_some, hr]
    · rw [hvalue x hlow hhigh]
      split_ifs with hx
      · rw [value_first hpre hi ⟨hlow, hx⟩, get_from hlow]
      · rw [value_skipped hpre hlow, value_behind (not_lt.mp hx)]

include hpre hskip hi in
/-- **The fragment that the range begins with** decides. -/
theorem answers_first (h : Apart (i :: rest)) (hle : start ≤ stop) :
    Answers start stop (pre ++ i :: rest) ↔
      if stop ≤ fin i then ∀ j, rest.head? = some j → j.1 = fin i
      else Known (pre ++ i :: rest) start stop → i.1 = start := by
  have hhave : havePartialRange start stop (pre ++ i :: rest) = haveLoop stop (fin i) rest := by
    rw [havePartialRange, hskip]
    exact if_neg (not_lt.mpr hi.1)
  rw [Answers, hhave]
  split_ifs with hend
  · have hknown : Known (pre ++ i :: rest) start stop := fun x hlow hhigh => by
      rw [value_first hpre hi ⟨hlow, hhigh.trans_le hend⟩]
      exact get_isSome.mpr (by omega)
    rw [← haveLoop_inside h hend]
    constructor
    · rintro ⟨⟨found, hfound, hiff⟩, -⟩
      rw [hfound, hiff.mpr hknown]
    · intro htrue
      exact ⟨⟨true, htrue, iff_of_true rfl hknown⟩, fun _ => copied_inside hpre hskip hi hend hle⟩
  · have hlt := not_le.mp hend
    obtain ⟨found, hfound, hiff⟩ := haveLoop_spec h hlt
    have hknown : Known (pre ++ i :: rest) start stop ↔ Known rest (fin i) stop := by
      constructor
      · intro hk x hlow hhigh
        rw [← @value_behind rest _ i hlow, ← @value_skipped rest _ _ _ _ hpre (hi.2.trans hlow)]
        exact hk x (hi.2.trans hlow) hhigh
      · intro hk x hlow hhigh
        rcases lt_or_ge x (fin i) with hx | hx
        · rw [value_first hpre hi ⟨hlow, hx⟩]
          exact get_isSome.mpr (by omega)
        · rw [value_skipped hpre hlow, value_behind hx]
          exact hk x hx hhigh
    have hanswer : (∃ b, haveLoop stop (fin i) rest = some b ∧ (b = true ↔ Known (pre ++ i :: rest) start stop)) :=
      ⟨found, hfound, hiff.trans hknown.symm⟩
    have htrue : haveLoop stop (fin i) rest = some true ↔ Known rest (fin i) stop := by
      rw [hfound, some_inj]
      exact hiff
    rw [and_iff_right hanswer, htrue, hknown]
    exact imp_congr_right (copied_beyond hpre hskip hi h hlt)

end first

/-- **The queries for a range** answer as they are to if it gets along with the fragment that it begins with. -/
theorem answers_iff (hapart : Apart pm) (hle : start ≤ stop) : Answers start stop pm ↔ RangeFits start stop pm := by
  obtain ⟨pre, hpm, hpre, hfirst⟩ := skipLeft_spec start pm
  -- nothing at the start of the range is known
  have hnothing : havePartialRange start stop pm = some false → (start < stop → value pm start = none) →
      (Answers start stop pm ↔ start < stop) := fun hfalse hnone => by
    rw [Answers, hfalse]
    constructor
    · rintro ⟨⟨found, hfound, hiff⟩, -⟩
      by_contra hge
      cases hfound
      nomatch hiff.mpr fun x hlow hhigh => absurd (hlow.trans_lt hhigh) hge
    · intro hlt
      refine ⟨⟨false, rfl, iff_of_false nofun fun hk => ?_⟩, nofun⟩
      have := hk start le_rfl hlt
      rw [hnone hlt] at this
      cases this
  unfold RangeFits
  cases hskip : skipLeft start pm with
  | nil =>
    rw [hskip, append_nil] at hpm
    refine hnothing ?_ fun _ => value_outside fun f hf hin => ?_
    · rw [havePartialRange, hskip]
    · have := hpre f (hpm ▸ hf)
      omega
  | cons i rest =>
    rw [hskip] at hpm
    have hapart' : Apart (i :: rest) := (pairwise_append.mp (hpm ▸ hapart)).2.1
    dsimp only
    by_cases hgap : start < i.1
    · rw [if_pos hgap]
      refine hnothing ?_ fun _ => value_outside fun f hf hin => ?_
      · rw [havePartialRange, hskip]
        exact if_pos hgap
      · rw [hpm] at hf
        rcases mem_append.mp hf with hf | hf
        · have := hpre f hf
          omega
        · rcases mem_cons.mp hf with rfl | hf
          · omega
          · have := (pairwise_cons.mp hapart').1 f hf
            omega
    · rw [if_neg hgap]
      have hi : i.1 ≤ start ∧ start ≤ fin i := ⟨not_lt.mp hgap, hfirst i (by rw [hskip]; rfl)⟩
      have hiff := answers_first hpre (hpm ▸ hskip) hi hapart' hle
      rwa [← hpm] at hiff

end queries

/-- **A partial block is a sparse block** for a sequence of additions and a range if nothing is lost and the
range gets along with the fragment that it begins with, and not otherwise. -/
theorem partial_sparse_block {ops : List (Frag UInt8)} {start stop : ℕ} (hin : ∀ o ∈ ops, fin o ≤ blockSize)
    (hle : start ≤ stop) :
    SparseBlock ops start stop ↔ NothingLost ops ∧ ∀ pm, adds ops = some pm → RangeFits start stop pm := by
  obtain ⟨pm, hpm, hapart, hinside, hvalue⟩ := adds_represents hin
  constructor
  · intro h
    have hlost := (represents_iff hin).mp h.represents
    refine ⟨hlost, fun pm' hpm' => ?_⟩
    cases hpm.symm.trans hpm'
    refine (answers_iff hapart hle).mp ⟨?_, fun htrue => ?_⟩
    · simpa only [Known, AllWritten, hvalue hlost] using h.found pm hpm
    · simpa only [Copied, hvalue hlost] using h.copied pm hpm htrue
  · rintro ⟨hlost, hfits⟩
    obtain ⟨hfound, hcopied⟩ := (answers_iff hapart hle).mpr (hfits pm hpm)
    have hall : ∀ x, value pm x = written ops x := hvalue hlost
    refine ⟨(represents_iff hin).mpr hlost, fun pm' b hpm' hb hne hlen => ?_, fun pm' hpm' => ?_, fun pm' hpm' htrue => ?_⟩
    all_goals cases hpm.symm.trans hpm'
    · subst hb
      simpa only [hall] using applyPartial_spec hapart hinside hne hlen
    · simpa only [Known, AllWritten, hall] using hfound
    · simpa only [Copied, hall] using hcopied htrue

/-- Two pieces, the second upon the end of the first. -/
theorem partial_sparse_block_two : SparseBlock [(0, [1, 2, 3]), (2, [4, 5])] 0 4 := by
  refine (partial_sparse_block (by decide) (by decide)).mpr ⟨nothingLost_of_ne (by decide), fun pm hpm => ?_⟩
  cases hpm
  exact fun _ => rfl

/-- A read in a fragment that a gap follows; one from the middle of a fragment into the next; and empty data, which
hides the right half of a fragment. -/
theorem partial_not_sparse :
    ¬ SparseBlock [(0, [1, 2, 3]), (4, [5])] 0 2 ∧ ¬ SparseBlock [(0, [1, 2]), (2, [3, 4])] 1 3 ∧
      ¬ SparseBlock [(0, [1, 2]), (1, [])] 0 2 := by
  refine ⟨fun h => ?_, fun h => ?_, fun h => ?_⟩
  · obtain ⟨found, hfound, hiff⟩ := h.found _ rfl
    obtain rfl : false = found := some.inj hfound
    refine absurd (hiff.mpr fun x _ hx => ?_) Bool.false_ne_true
    interval_cases x <;> rfl
  · obtain ⟨bl, hbl, -⟩ := h.copied _ rfl rfl
    cases hbl
  · obtain ⟨pm, hpm, hrep⟩ := h.represents _ prefix_rfl
    cases hpm
    exact absurd (hrep.value_eq 1) (by decide)

end Ebofs
end Ceph
