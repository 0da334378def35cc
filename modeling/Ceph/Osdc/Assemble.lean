/-
# Assembling a striped read

The last reply of a read puts the fragments together: what each object gave is
cut into the buffer extents of its extent, filled up with zeros where the object
was too short, and the pieces are strung together by their offset in the buffer
and cut off after the last byte that an object gave.

The pieces of a walk (`Walked`) are a partition of the buffer. Sorted by their offset they
lie one after the other, so what is strung together is the file (`joinFrags_eq`).
-/
import Ceph.Osdc.Striping

namespace Ceph
namespace Osdc

open List Option
open Wire (Bytes)

/-! ### Cutting and joining -/

def zeros (n : ℕ) : Bytes := List.replicate n 0

/-- `by_off`, in the order it is filled in (the offsets differ), and `bytes_read`. -/
structure Frags where
  byOff : List (ℕ × Bytes)
  bytesRead : ℕ

/-- One buffer extent, with `oxOff` bytes of the object's before it. -/
def cutOne (oxBuf : Bytes) (oxOff : ℕ) (bx : ℕ × ℕ) (f : Frags) : Frags :=
  if oxOff + bx.2 ≤ oxBuf.length then
    ⟨f.byOff ++ [(bx.1, (oxBuf.drop oxOff).take bx.2)], if f.bytesRead < bx.1 + bx.2 then bx.1 + bx.2 else f.bytesRead⟩
  else if oxOff < oxBuf.length then
    ⟨f.byOff ++ [(bx.1, oxBuf.drop oxOff ++ zeros (oxOff + bx.2 - oxBuf.length))],
      if f.bytesRead < bx.1 + (oxBuf.length - oxOff) then bx.1 + (oxBuf.length - oxOff) else f.bytesRead⟩
  else ⟨f.byOff ++ [(bx.1, zeros bx.2)], f.bytesRead⟩

/-- The buffer extents of one object extent; also `ox_off` in the end. -/
def cutExtent (oxBuf : Bytes) : List (ℕ × ℕ) → ℕ → Frags → ℕ × Frags
  | [], oxOff, f => (oxOff, f)
  | bx :: bxs, oxOff, f => cutExtent oxBuf bxs (oxOff + bx.2) (cutOne oxBuf oxOff bx f)

/-- All object extents; `none` is a failed assertion, or nothing read of an object. -/
def cutAll (readData : ObjectT → Option Bytes) : List ObjectExtent → Frags → Option Frags
  | [], f => some f
  | ex :: exts, f =>
    (readData ex.oid).bind fun oxBuf =>
      let r := cutExtent oxBuf ex.bufferExtents 0 f
      if oxBuf.length ≤ ex.length ∧ r.1 = ex.length then cutAll readData exts r.2 else none

/-- The fragments are strung together, and trailing zeros trimmed. -/
def joinFrags (f : Frags) : Option Bytes :=
  let sorted := f.byOff.insertionSort fun a b => a.1 ≤ b.1
  if ∀ p ∈ sorted, p.2 ≠ [] then
    let bl := (sorted.filter fun p => p.1 < f.bytesRead).flatMap (·.2)
    some (if f.bytesRead < bl.length then bl.take f.bytesRead else bl)
  else none

/-- The buffer, and `bytes_read`. -/
def assemble (extents : List ObjectExtent) (readData : ObjectT → Option Bytes) : Option (Bytes × ℕ) :=
  (cutAll readData extents ⟨[], 0⟩).bind fun f => (joinFrags f).map fun bl => (bl, f.bytesRead)

/-! ### The last byte -/

/-- `n` is just after the last of the positions. -/
def JustAfter (ps : List ℕ) (n : ℕ) : Prop := (∀ p ∈ ps, p < n) ∧ (n = 0 ∨ n - 1 ∈ ps)

theorem justAfter_nil : JustAfter [] 0 := ⟨nofun, .inl rfl⟩

theorem JustAfter.of_perm {ps qs : List ℕ} {n : ℕ} (h : JustAfter ps n) (hp : ps.Perm qs) : JustAfter qs n :=
  ⟨fun p hq => h.1 p (hp.symm.subset hq), h.2.imp_right fun hm => hp.subset hm⟩

theorem JustAfter.append_range {ps : List ℕ} {n pos k : ℕ} (h : JustAfter ps n) (hk : 0 < k) :
    JustAfter (ps ++ range' pos k) (if n < pos + k then pos + k else n) := by
  obtain ⟨hlt, hlast⟩ := h
  split
  · rename_i hnew
    refine ⟨fun p hp => ?_, .inr (mem_append_right _ (mem_range'_1.mpr (by omega)))⟩
    rcases mem_append.mp hp with hp | hp
    · exact (hlt p hp).trans hnew
    · exact (mem_range'_1.mp hp).2
  · rename_i hold
    refine ⟨fun p hp => ?_, hlast.imp_right (mem_append_left _)⟩
    rcases mem_append.mp hp with hp | hp
    · exact hlt p hp
    · exact (mem_range'_1.mp hp).2.trans_le (not_lt.mp hold)

/-! ### What is cut -/

/-- Filled up with zeros. -/
def pad (n : ℕ) (bs : Bytes) : Bytes := bs ++ zeros (n - bs.length)

/-- The positions that buffer extents stand for. -/
def spread (bxs : List (ℕ × ℕ)) : List ℕ := bxs.flatMap fun b => List.range' b.1 b.2

/-- A fragment has the bytes of the file at its place. -/
def OfFile (file : ℕ → UInt8) (g : ℕ × Bytes) : Prop := g.2 = (List.range' g.1 g.2.length).map file

section cut

variable {file : ℕ → UInt8} {oxBuf : Bytes}

@[simp] theorem length_zeros (n : ℕ) : (zeros n).length = n := length_replicate

theorem length_pad {n : ℕ} (h : oxBuf.length ≤ n) : (pad n oxBuf).length = n := by
  rw [pad, length_append, length_zeros]
  omega

theorem spread_cons (b : ℕ × ℕ) (bxs : List (ℕ × ℕ)) : spread (b :: bxs) = range' b.1 b.2 ++ spread bxs := rfl

theorem length_spread (bxs : List (ℕ × ℕ)) : (spread bxs).length = (bxs.map (·.2)).sum := by
  induction bxs with
  | nil => rfl
  | cons b bxs ih => rw [spread_cons, length_append, length_range', ih, map_cons, sum_cons]

theorem cutOne_eq {oxOff L : ℕ} {bx : ℕ × ℕ} (hbuf : oxBuf.length ≤ L) (hend : oxOff + bx.2 ≤ L) (f : Frags) :
    (cutOne oxBuf oxOff bx f).byOff = f.byOff ++ [(bx.1, ((pad L oxBuf).drop oxOff).take bx.2)] := by
  unfold cutOne pad
  by_cases hall : oxOff + bx.2 ≤ oxBuf.length
  · rw [if_pos hall, drop_append_of_le_length (by omega),
      take_append_of_le_length (by rw [length_drop]; omega)]
  rw [if_neg hall]
  by_cases hpart : oxOff < oxBuf.length
  · have htake : (zeros (L - oxBuf.length)).take (bx.2 - (oxBuf.length - oxOff)) =
      zeros (oxOff + bx.2 - oxBuf.length) := by
      rw [zeros, take_replicate, zeros]
      congr 1
      omega
    rw [if_pos hpart, drop_append_of_le_length hpart.le, take_append, length_drop,
      take_of_length_le (by rw [length_drop]; omega), htake]
  · have hdrop : (oxBuf ++ zeros (L - oxBuf.length)).drop oxOff = zeros (L - oxOff) := by
      rw [drop_append, drop_of_length_le (by omega), nil_append, zeros, drop_replicate, zeros]
      congr 1
      omega
    rw [if_neg hpart, hdrop, zeros, zeros, take_replicate, min_eq_left (by omega)]

/-- `bytes_read` stays just after the last byte given. -/
theorem cutOne_justAfter {oxOff : ℕ} {bx : ℕ × ℕ} (hbx : 0 < bx.2) {f : Frags} {ps : List ℕ}
    (h : JustAfter ps f.bytesRead) :
    JustAfter (ps ++ (range' bx.1 bx.2).take (oxBuf.length - oxOff)) (cutOne oxBuf oxOff bx f).bytesRead := by
  unfold cutOne
  by_cases hall : oxOff + bx.2 ≤ oxBuf.length
  · rw [if_pos hall, take_range'_of_length_le (by omega)]
    exact h.append_range hbx
  rw [if_neg hall, take_range'_of_length_ge (by omega)]
  by_cases hpart : oxOff < oxBuf.length
  · rw [if_pos hpart]
    exact h.append_range (by omega)
  · rw [if_neg hpart, Nat.sub_eq_zero_of_le (not_lt.mp hpart), range'_zero, append_nil]
    exact h

/-- **The buffer extents of one object**: the fragments are of the file, as long as the buffer
extents say. -/
theorem cutExtent_spec {L : ℕ} (hbuf : oxBuf.length ≤ L) : ∀ {bxs : List (ℕ × ℕ)} {oxOff : ℕ} {f : Frags} {ps : List ℕ},
    (∀ b ∈ bxs, 0 < b.2) → (spread bxs).map file = (pad L oxBuf).drop oxOff → oxOff ≤ L → JustAfter ps f.bytesRead →
    (cutExtent oxBuf bxs oxOff f).1 = L ∧
      (∃ new, (cutExtent oxBuf bxs oxOff f).2.byOff = f.byOff ++ new ∧ (∀ g ∈ new, OfFile file g) ∧
        new.map (fun g => (g.1, g.2.length)) = bxs) ∧
      JustAfter (ps ++ (spread bxs).take (oxBuf.length - oxOff)) (cutExtent oxBuf bxs oxOff f).2.bytesRead
  | [], oxOff, f, ps, _, hfile, hoff, h => by
    have hlen := congrArg length hfile
    rw [length_drop, length_pad hbuf] at hlen
    have hend : L - oxOff = 0 := hlen.symm
    refine ⟨?_, ⟨[], (append_nil _).symm, nofun, rfl⟩, ?_⟩
    · rw [cutExtent]
      omega
    · rw [spread, flatMap_nil, take_nil, append_nil]
      exact h
  | b :: bxs, oxOff, f, ps, hpos, hfile, hoff, h => by
    obtain ⟨hb, hpos⟩ := forall_mem_cons.mp hpos
    have hlen := congrArg length hfile
    rw [length_map, length_spread, length_drop, length_pad hbuf, map_cons, sum_cons] at hlen
    have hend : oxOff + b.2 ≤ L := by omega
    rw [spread_cons, map_append] at hfile
    have hhead : (range' b.1 b.2).map file = ((pad L oxBuf).drop oxOff).take b.2 := by
      rw [← hfile, take_left' (by rw [length_map, length_range'])]
    have htail : (spread bxs).map file = (pad L oxBuf).drop (oxOff + b.2) := by
      rw [← drop_drop, ← hfile, drop_left' (by rw [length_map, length_range'])]
    have hone : JustAfter (ps ++ (range' b.1 b.2).take (oxBuf.length - oxOff))
      (cutOne oxBuf oxOff b f).bytesRead :=
      cutOne_justAfter hb h
    obtain ⟨hox, ⟨new, hby, hof, hmap⟩, hjust⟩ := cutExtent_spec hbuf hpos htail hend hone
    have hfrag : (((pad L oxBuf).drop oxOff).take b.2).length = b.2 := by
      rw [← hhead, length_map, length_range']
    refine ⟨hox, ⟨(b.1, ((pad L oxBuf).drop oxOff).take b.2) :: new, ?_, forall_mem_cons.mpr ⟨?_, hof⟩, ?_⟩, ?_⟩
    · rw [cutExtent, hby, cutOne_eq hbuf hend, append_assoc, singleton_append]
    · rw [OfFile, hfrag]
      exact hhead.symm
    · rw [map_cons, hmap, hfrag]
    · rw [spread_cons, take_append, length_range', Nat.sub_sub, ← append_assoc]
      exact hjust

/-- What an object gave is the file, where its extent is. -/
def Gives (file : ℕ → UInt8) (readData : ObjectT → Option Bytes) (ex : ObjectExtent) : Prop :=
  ∃ d, readData ex.oid = some d ∧ d.length ≤ ex.length ∧ ex.positions.map file = pad ex.length d

/-- The positions that the object gave bytes for. -/
def given (readData : ObjectT → Option Bytes) (ex : ObjectExtent) : List ℕ :=
  ex.positions.take (((readData ex.oid).getD []).length)

/-- **All object extents.** -/
theorem cutAll_spec {readData : ObjectT → Option Bytes} : ∀ {exts : List ObjectExtent} {f : Frags} {ps : List ℕ},
    (∀ ex ∈ exts, ∀ b ∈ ex.bufferExtents, 0 < b.2) → (∀ ex ∈ exts, Gives file readData ex) → JustAfter ps f.bytesRead →
    ∃ f' new, cutAll readData exts f = some f' ∧ f'.byOff = f.byOff ++ new ∧ (∀ g ∈ new, OfFile file g) ∧
      new.map (fun g => (g.1, g.2.length)) = exts.flatMap (·.bufferExtents) ∧
      JustAfter (ps ++ exts.flatMap (given readData)) f'.bytesRead
  | [], f, ps, _, _, h => ⟨f, [], rfl, (append_nil _).symm, nofun, rfl, by rwa [flatMap_nil, append_nil]⟩
  | ex :: exts, f, ps, hpos, hgives, h => by
    obtain ⟨hp, hpos⟩ := forall_mem_cons.mp hpos
    obtain ⟨⟨d, hd, hfits, hfile⟩, hgives⟩ := forall_mem_cons.mp hgives
    obtain ⟨hox, ⟨new, hby, hof, hmap⟩, hjust⟩ := cutExtent_spec hfits hp hfile (Nat.zero_le _) h
    obtain ⟨f', new', hcut, hby', hof', hmap', hjust'⟩ := cutAll_spec hpos hgives hjust
    refine ⟨f', new ++ new', ?_, ?_, forall_mem_append.mpr ⟨hof, hof'⟩, ?_, ?_⟩
    · rw [cutAll, hd, bind_some]
      exact (if_pos ⟨hfits, hox⟩).trans hcut
    · rw [hby', hby, append_assoc]
    · rw [map_append, hmap, hmap', flatMap_cons]
    · rw [flatMap_cons, given, hd, getD_some, ← append_assoc]
      exact hjust'

end cut

/-! ### What is strung together -/

section join

variable {file : ℕ → UInt8} {len : ℕ}

theorem spread_perm {l l' : List (ℕ × ℕ)} (h : l.Perm l') : (spread l).Perm (spread l') := h.flatMap_right _

theorem mem_spread {bxs : List (ℕ × ℕ)} {p : ℕ} : p ∈ spread bxs ↔ ∃ b ∈ bxs, b.1 ≤ p ∧ p < b.1 + b.2 := by
  rw [spread, mem_flatMap]
  exact exists_congr fun b => and_congr_right fun _ => mem_range'_1

theorem spread_sorted : ∀ {bxs : List (ℕ × ℕ)}, (∀ b ∈ bxs, 0 < b.2) → (spread bxs).Nodup →
    (bxs.Pairwise fun a b => a.1 ≤ b.1) → (spread bxs).Pairwise (· < ·)
  | [], _, _, _ => .nil
  | b :: bxs, hpos, hnodup, hsort => by
    obtain ⟨hb, hpos⟩ := forall_mem_cons.mp hpos
    obtain ⟨hle, hsort⟩ := pairwise_cons.mp hsort
    rw [spread_cons] at hnodup ⊢
    obtain ⟨-, hrest, hdisj⟩ := nodup_append.mp hnodup
    refine pairwise_append.mpr ⟨pairwise_lt_range', spread_sorted hpos hrest hsort, fun x hx y hy => ?_⟩
    obtain ⟨c, hc, hcy, -⟩ := mem_spread.mp hy
    have hx := mem_range'_1.mp hx
    have hbc := hle c hc
    have hcpos := hpos c hc
    -- else the later extent would begin inside this one
    by_contra hyx
    refine hdisj c.1 (mem_range'_1.mpr ?_) c.1 (mem_spread.mpr ⟨c, hc, ?_⟩) rfl <;> omega

theorem filter_split {n : ℕ} : ∀ {l : List (ℕ × Bytes)}, (l.Pairwise fun a b => a.1 ≤ b.1) →
    l = (l.filter fun p => p.1 < n) ++ l.filter fun p => n ≤ p.1
  | [], _ => rfl
  | a :: l, hs => by
    obtain ⟨ha, hs⟩ := pairwise_cons.mp hs
    by_cases hlt : a.1 < n
    · rw [filter_cons_of_pos (by simpa using hlt), filter_cons_of_neg (by simpa using hlt), cons_append,
        ← filter_split hs]
    · have hnone : (a :: l).filter (fun p => p.1 < n) = [] := by
        refine filter_eq_nil_iff.mpr (forall_mem_cons.mpr ⟨by simpa using hlt, fun p hp => ?_⟩)
        simpa using (not_lt.mp hlt).trans (ha p hp)
      have hall : (a :: l).filter (fun p => n ≤ p.1) = a :: l := by
        refine filter_eq_self.mpr (forall_mem_cons.mpr ⟨by simpa using hlt, fun p hp => ?_⟩)
        simpa using (not_lt.mp hlt).trans (ha p hp)
      rw [hnone, hall, nil_append]

theorem flatMap_snd_eq {frags : List (ℕ × Bytes)} (hof : ∀ g ∈ frags, OfFile file g) :
    frags.flatMap (·.2) = (spread (frags.map fun g => (g.1, g.2.length))).map file := by
  induction frags with
  | nil => rfl
  | cons g frags ih =>
    obtain ⟨hg, hof⟩ := forall_mem_cons.mp hof
    rw [map_cons, spread_cons, map_append, ← ih hof, flatMap_cons]
    exact congrArg (· ++ _) hg

/-- **The fragments, strung together**, are the file up to `bytes_read`. -/
theorem joinFrags_eq {f : Frags} (hof : ∀ g ∈ f.byOff, OfFile file g) (hpos : ∀ g ∈ f.byOff, 0 < g.2.length)
    (hperm : (spread (f.byOff.map fun g => (g.1, g.2.length))).Perm (range len)) (hread : f.bytesRead ≤ len) :
    joinFrags f = some ((range f.bytesRead).map file) := by
  obtain ⟨sorted, hdef⟩ : ∃ sorted, sorted = f.byOff.insertionSort fun a b => a.1 ≤ b.1 := ⟨_, rfl⟩
  have hp : sorted.Perm f.byOff := hdef ▸ perm_insertionSort _ _
  have hsort : sorted.Pairwise fun a b => a.1 ≤ b.1 :=
    hdef ▸ pairwise_insertionSort (fun a b : ℕ × Bytes => a.1 ≤ b.1) _
  have hof : ∀ g ∈ sorted, OfFile file g := fun g hg => hof g (hp.subset hg)
  have hpos : ∀ g ∈ sorted, 0 < g.2.length := fun g hg => hpos g (hp.subset hg)
  have hrange : spread (sorted.map fun g => (g.1, g.2.length)) = range len := by
    have hperm := (spread_perm (hp.map fun g => (g.1, g.2.length))).trans hperm
    have hordered : (spread (sorted.map fun g => (g.1, g.2.length))).Pairwise (· < ·) := by
      refine spread_sorted (fun b hb => ?_) (hperm.nodup_iff.mpr nodup_range) (pairwise_map.mpr hsort)
      obtain ⟨g, hg, rfl⟩ := mem_map.mp hb
      exact hpos g hg
    exact hperm.eq_of_pairwise (fun a b _ _ hab hba => absurd hab hba.not_gt) hordered pairwise_lt_range
  have hall : ∀ p ∈ sorted, p.2 ≠ [] := fun p hp => ne_nil_of_length_pos (hpos p hp)
  -- what is left out begins at `bytes_read` or later
  have hsplit := filter_split (n := f.bytesRead) hsort
  obtain ⟨front, hfront⟩ : ∃ front, front = sorted.filter fun p => p.1 < f.bytesRead := ⟨_, rfl⟩
  obtain ⟨back, hback⟩ : ∃ back, back = sorted.filter fun p => f.bytesRead ≤ p.1 := ⟨_, rfl⟩
  rw [← hfront, ← hback] at hsplit
  have hbytes : front.flatMap (·.2) ++ back.flatMap (·.2) = (range len).map file := by
    rw [← flatMap_append, ← hsplit, flatMap_snd_eq hof, hrange]
  have hlong : f.bytesRead ≤ (front.flatMap (·.2)).length := by
    have happ : spread (front.map fun g => (g.1, g.2.length)) ++ spread (back.map fun g => (g.1, g.2.length)) =
        range len := by rw [← hrange, hsplit, map_append, spread, spread, spread, flatMap_append]
    have hlen : (front.flatMap (·.2)).length = (spread (front.map fun g => (g.1, g.2.length))).length := by
      rw [flatMap_snd_eq fun g hg => hof g (hsplit ▸ mem_append_left _ hg), length_map]
    rw [hlen]
    by_contra hshort
    -- the first position that is left out is before `bytes_read`
    have hin : (spread (front.map fun g => (g.1, g.2.length))).length ∈ range len := mem_range.mpr (by omega)
    rw [← happ] at hin
    rcases mem_append.mp hin with hin | hin
    · have hfst : spread (front.map fun g => (g.1, g.2.length)) =
          range (min (spread (front.map fun g => (g.1, g.2.length))).length len) := by
        rw [← take_range, ← happ, take_left]
      rw [hfst, mem_range, length_range] at hin
      omega
    · obtain ⟨b, hb, hle, -⟩ := mem_spread.mp hin
      obtain ⟨g, hg, rfl⟩ := mem_map.mp hb
      rw [hback] at hg
      have hge := of_decide_eq_true (mem_filter.mp hg).2
      exact hshort (hge.trans hle)
  have htake : (front.flatMap (·.2)).take f.bytesRead = (range f.bytesRead).map file := by
    rw [← take_append_of_le_length hlong, hbytes, ← map_take, take_range, min_eq_left hread]
  rw [joinFrags, ← hdef]
  simp only [← hfront]
  rw [if_pos hall, ← htake]
  split
  · rfl
  · rename_i hge
    rw [take_of_length_le (not_lt.mp hge)]

end join

/-! ### The read -/

section read

variable {l : FileLayout} {objectLayout : ObjectT → ℕ} {ino rev offset len : ℕ} {exts : List ObjectExtent}
  {readData : ObjectT → Option Bytes} {file : ℕ → UInt8}

theorem given_sublist (readData : ObjectT → Option Bytes) (ex : ObjectExtent) :
    List.Sublist (given readData ex) ex.positions := take_sublist _ _

section

variable (h : Walked l objectLayout ino rev offset len exts)
include h

/-- **What a striped read delivers**: the file, up to the last byte that an object gave. -/
theorem assemble_eq (hgives : ∀ ex ∈ exts, Gives file readData ex) :
    ∃ n, assemble exts readData = some ((range n).map file, n) ∧ n ≤ len ∧
      JustAfter (exts.flatMap (given readData)) n := by
  obtain ⟨f, new, hcut, hby, hof, hmap, hjust⟩ := cutAll_spec (f := ⟨[], 0⟩) h.pieces hgives justAfter_nil
  rw [nil_append] at hby hjust
  rw [← hby] at hof hmap
  have hread : f.bytesRead ≤ len := by
    rcases hjust.2 with h0 | hlast
    · omega
    · obtain ⟨ex, hex, hp⟩ := mem_flatMap.mp hlast
      have hpos := mem_flatMap.mpr ⟨ex, hex, (given_sublist readData ex).subset hp⟩
      have hlt := mem_range.mp (h.perm.subset hpos)
      omega
  have hperm : (spread (f.byOff.map fun g => (g.1, g.2.length))).Perm (range len) := by
    rw [hmap, spread, flatMap_assoc]
    exact h.perm
  have hpos : ∀ g ∈ f.byOff, 0 < g.2.length := fun g hg => by
    have hin : (g.1, g.2.length) ∈ exts.flatMap (·.bufferExtents) := hmap ▸ mem_map_of_mem hg
    obtain ⟨ex, hex, hb⟩ := mem_flatMap.mp hin
    exact h.pieces ex hex _ hb
  refine ⟨f.bytesRead, ?_, hread, hjust⟩
  rw [assemble, hcut, bind_some, joinFrags_eq hof hpos hperm hread]
  rfl

theorem exists_file (data : ObjectExtent → Bytes)
    (hfits : ∀ ex ∈ exts, (data ex).length ≤ ex.length) :
    ∃ file : ℕ → UInt8, ∀ ex ∈ exts, ex.positions.map file = pad ex.length (data ex) := by
  refine ⟨fun p => ((exts.find? fun ex => p ∈ ex.positions).map fun ex =>
    (pad ex.length (data ex)).getD (ex.positions.idxOf p) 0).getD 0, fun ex hex => ?_⟩
  have hlen : ex.positions.length = (pad ex.length (data ex)).length := by
    rw [(h.mapped ex hex).length_positions, length_pad (hfits ex hex)]
  refine ext_getElem (by rw [length_map, hlen]) fun i hi hi' => ?_
  rw [length_map] at hi
  have hp : ex.positions[i] ∈ ex.positions := getElem_mem hi
  have hfind : (exts.find? fun ex' => ex.positions[i] ∈ ex'.positions) = some ex := by
    cases hf : exts.find? fun ex' => ex.positions[i] ∈ ex'.positions with
    | none => exact absurd (decide_eq_true hp) (find?_eq_none.mp hf ex hex)
    | some ex' =>
      have hp' : ex.positions[i] ∈ ex'.positions := by simpa using find?_some hf
      rw [h.ext_of_position (mem_of_find?_eq_some hf) hex hp' hp]
  have hidx : ex.positions.idxOf ex.positions[i] = i := (h.ordered ex hex).nodup.idxOf_getElem i hi
  rw [getElem_map, hfind, map_some, getD_some, hidx, getD_eq_getElem?_getD,
    getElem?_eq_getElem hi', getD_some]

theorem assemble_isSome
    (hgiven : ∀ ex ∈ exts, ∃ d, readData ex.oid = some d ∧ d.length ≤ ex.length) :
    (assemble exts readData).isSome = true := by
  obtain ⟨file, hfile⟩ := exists_file h (fun ex => (readData ex.oid).getD []) fun ex hex => by
    obtain ⟨d, hd, hle⟩ := hgiven ex hex
    rwa [hd, getD_some]
  have hgives : ∀ ex ∈ exts, Gives file readData ex := fun ex hex => by
    obtain ⟨d, hd, hle⟩ := hgiven ex hex
    refine ⟨d, hd, hle, ?_⟩
    rw [hfile ex hex, hd, getD_some]
  obtain ⟨n, hn, -⟩ := assemble_eq h hgives
  rw [hn]
  rfl

end

end read

end Osdc
end Ceph
