/-
# Zeroing a part of a bufferlist

`zero(o, l)` of a bufferlist decides for each segment what of it lies in the range. It tests for the end of
the range the wrong way round, in the segment and in the loop: it is done with the first segment, unless the range
ends inside that; and then it zeroes all that follows, too.
-/
import Ceph.Include.Cells

namespace Ceph
namespace Buffer

open List Option
open State

variable {n : ℕ}

/-! ### The code -/

/-- `ptr::zero(o, l)` -/
def Ptr.zero (s : State n) (p : Ptr) (o l : ℕ) : Option (State n) :=
  p.raw.bind fun r =>
    if u32 (o + l) ≤ p.len then some { s with raws := s.raws.modify r (patch · (p.off + o) (List.replicate l 0)) }
    else none

/-- What is done with a segment that begins at `p`. -/
def zeroSegment (o l : ℕ) (s : State n) (x : Ptr) (p : ℕ) : Option (State n) :=
  if o < p + x.len then
    if o ≤ p ∧ o + l ≤ p + x.len then x.zero s 0 x.len          -- all
    else if o ≤ p then x.zero s 0 (o + l - p)       -- head
    else x.zero s (o - p) (x.len - (o - p))         -- tail
  else some s

/-- The loop of `zero`. -/
def zeroLoop (o l : ℕ) : List Ptr → ℕ → State n → Option (State n)
  | [], _, s => some s
  | x :: xs, p, s => (zeroSegment o l s x p).bind fun s =>
      if p + x.len ≤ o + l then some s else zeroLoop o l xs (p + x.len) s

/-- `list::zero(o, l)` -/
def zero (s : State n) (i : Fin n) (o l : ℕ) : Option (State n) :=
  if u32 (o + l) ≤ s.length i then zeroLoop o l (s.ptrs i) 0 s else none

/-! ### What is zeroed -/

/-- The length of the first segment. -/
def firstLen (s : State n) (i : Fin n) : ℕ := ((s.ptrs i).head?.map (·.len)).getD 0

/-- The cells from `o` on: of the list if the range ends inside the first segment, else of this segment. -/
def zeroedCells (s : State n) (i : Fin n) (o l : ℕ) : List Cell :=
  (if o + l < firstLen s i then cells (s.ptrs i) else (cells (s.ptrs i)).take (firstLen s i)).drop o

/-- The range is not longer than a first segment that it begins with, and what should not have been zeroed, and what should
have been, is zero already. -/
structure ZeroFits (s : State n) (i : Fin n) (o l : ℕ) : Prop where
  head : ¬ (o = 0 ∧ 0 < firstLen s i ∧ firstLen s i < l)
  byte : ∀ k c, (cells (s.ptrs i))[k]? = some c → (c ∈ zeroedCells s i o l ↔ o ≤ k ∧ k < o + l) ∨ read s.raws c = 0

/-- The bytes with those of the range zeroed. -/
def zeroBytes (o l : ℕ) (b : Wire.Bytes) : Wire.Bytes := b.mapIdx fun k x => if o ≤ k ∧ k < o + l then 0 else x

/-- The cells `cs` are zero now, and nothing else has changed. -/
structure Zeroed (s t : State n) (cs : List Cell) : Prop where
  wf : WF t
  lists : t.lists = s.lists
  good : ∀ p, s.Good p → t.Good p
  read : ∀ c, read t.raws c = if c ∈ cs then 0 else read s.raws c

section zeroed

variable {s t u : State n} {i : Fin n} {p x : Ptr} {xs : List Ptr} {o l : ℕ} {cs cs' : List Cell}

theorem Zeroed.refl (h : WF s) : Zeroed s s [] := ⟨h, rfl, fun _ => id, fun c => by simp⟩

theorem Zeroed.trans (h : Zeroed s t cs) (h' : Zeroed t u cs') : Zeroed s u (cs ++ cs') where
  wf := h'.wf
  lists := h'.lists.trans h.lists
  good p hp := h'.good p (h.good p hp)
  read c := by
    rw [h'.read, h.read]
    by_cases hc : c ∈ cs' <;> simp [hc]

theorem zero_ptr (h : WF s) (hp : s.Good p) (hle : o + l ≤ p.len) :
    ∃ t, p.zero s o l = some t ∧ Zeroed s t ((p.cells.drop o).take l) := by
  have hlt := hp.lt h
  obtain ⟨r, b, hr, hb, hin⟩ := hp.inside
  have hfit : p.off + o + (List.replicate l (0 : UInt8)).length ≤ b.length := by
    rw [length_replicate]
    omega
  refine ⟨_, by rw [Ptr.zero, hr, bind_some, u32_eq (by omega), if_pos hle], h.patchRaw hb hfit, rfl, ?_, fun c => ?_⟩
  · exact fun q hq => hq.patchRaw hb hfit
  · rw [read_modify hb hfit, ← cells_sub hle, length_replicate]
    have hmem : c.1 = r ∧ p.off + o ≤ c.2 ∧ c.2 < p.off + o + l ↔ c ∈ Ptr.cells ⟨p.raw, p.off + o, l⟩ := by
      rw [mem_cells, hr, some.injEq, @eq_comm _ r]
    simp only [hmem, getElem?_replicate]
    by_cases hc : c ∈ Ptr.cells ⟨p.raw, p.off + o, l⟩
    · rw [if_pos hc, if_pos hc]
      split <;> rfl
    · rw [if_neg hc, if_neg hc]

/-- Behind the end of the range every segment is zeroed. -/
theorem zeroLoop_behind (h : WF s) (hx : ∀ x ∈ xs, s.Good x) {p : ℕ} (hp : o + l < p) :
    ∃ t, zeroLoop o l xs p s = some t ∧ Zeroed s t (cells xs) := by
  induction xs generalizing s p with
  | nil => exact ⟨s, rfl, .refl h⟩
  | cons x xs ih =>
    have hgood := hx x mem_cons_self
    obtain ⟨t, ht, hz⟩ := zero_ptr h hgood (o := 0) (l := x.len) (by omega)
    have hall : zeroSegment o l s x p = some t := by
      rw [zeroSegment, if_pos (by omega), if_pos ⟨by omega, by omega⟩, ht]
    obtain ⟨u, hu, hzu⟩ := ih hz.wf (fun y hy => hz.good y (hx y (mem_cons_of_mem x hy))) (p := p + x.len) (by omega)
    refine ⟨u, by rw [zeroLoop, hall, bind_some, if_neg (by omega), hu], ?_⟩
    rw [cells_cons, ← take_of_length_le hgood.length_cells.le]
    exact hz.trans hzu

/-- The first segment is zeroed from `o` on, or the assertion fails. -/
theorem zeroSegment_first (h : WF s) (hx : s.Good x) (hl : l < 2 ^ 32) :
    if o = 0 ∧ 0 < x.len ∧ x.len < l then zeroSegment o l s x 0 = none
    else ∃ t, zeroSegment o l s x 0 = some t ∧ Zeroed s t (x.cells.drop o) := by
  obtain ⟨r, b, hr, -, -⟩ := hx.inside
  unfold zeroSegment
  rw [Nat.zero_add, Nat.sub_zero, Nat.sub_zero]
  by_cases ho : o < x.len
  · rw [if_pos ho]
    obtain ⟨t, ht, hz⟩ := zero_ptr h hx (o := o) (l := x.len - o) (by omega)
    rw [take_of_length_le (by rw [length_drop, hx.length_cells])] at hz
    by_cases hbad : o = 0 ∧ 0 < x.len ∧ x.len < l
    · rw [if_pos hbad, if_neg (by omega), if_pos (by omega), Ptr.zero, hr, bind_some, if_neg]
      rw [u32_eq (by omega)]
      omega
    · rw [if_neg hbad]
      refine ⟨t, ?_, hz⟩
      by_cases h0 : o = 0
      · subst h0
        rw [if_pos ⟨le_rfl, by omega⟩]
        exact ht
      · rw [if_neg (by omega), if_neg (by omega), ht]
  · rw [if_neg ho, if_neg (by omega)]
    refine ⟨s, rfl, ?_⟩
    rw [drop_eq_nil_of_le (by rw [hx.length_cells]; omega)]
    exact .refl h

/-- **What `zero` does.** -/
theorem zero_list (h : WF s) (hs : (abs s).Small) (hle : o + l ≤ (s.content i).length) :
    if o = 0 ∧ 0 < firstLen s i ∧ firstLen s i < l then zero s i o l = none
    else ∃ t, zero s i o l = some t ∧ Zeroed s t (zeroedCells s i o l) := by
  have hlt : (s.content i).length < 2 ^ 32 := hs i
  have hgood := h.good_ptrs i
  rw [zero, h.length_eq hs, u32_eq (by omega), if_pos hle]
  unfold zeroedCells
  cases hxs : s.ptrs i with
  | nil =>
    rw [if_neg (by simp [firstLen, hxs])]
    exact ⟨s, rfl, by simpa using .refl h⟩
  | cons x xs =>
    have hlen : firstLen s i = x.len := by simp [firstLen, hxs]
    rw [hxs] at hgood
    rw [hlen]
    have hx := hgood x mem_cons_self
    have hfirst := zeroSegment_first (o := o) h hx (show l < 2 ^ 32 by omega)
    rw [zeroLoop, zero_add]
    by_cases hbad : o = 0 ∧ 0 < x.len ∧ x.len < l
    · rw [if_pos hbad] at hfirst ⊢
      rw [hfirst]
      rfl
    · rw [if_neg hbad] at hfirst ⊢
      obtain ⟨t, ht, hz⟩ := hfirst
      rw [ht, bind_some]
      by_cases hend : o + l < x.len
      · obtain ⟨u, hu, hzu⟩ := zeroLoop_behind hz.wf (fun y hy => hz.good y (hgood y (mem_cons_of_mem x hy))) hend
        refine ⟨u, by rw [if_neg (by omega), hu], ?_⟩
        rw [if_pos hend, cells_cons, drop_append_of_le_length (by rw [hx.length_cells]; omega)]
        exact hz.trans hzu
      · refine ⟨t, if_pos (not_lt.mp hend), ?_⟩
        rw [if_neg hend, cells_cons, take_left' hx.length_cells]
        exact hz

/-- **`zero` is exact** where no byte of the list makes a difference. -/
theorem zero_exact_iff (h : WF s) (hs : (abs s).Small) (hle : o + l ≤ (s.content i).length) :
    (∃ t, zero s i o l = some t ∧ t.content i = zeroBytes o l (s.content i)) ↔ ZeroFits s i o l := by
  have hzero := zero_list h hs hle
  by_cases hbad : o = 0 ∧ 0 < firstLen s i ∧ firstLen s i < l
  · rw [if_pos hbad] at hzero
    exact iff_of_false (by simp [hzero]) fun hfits => hfits.head hbad
  · rw [if_neg hbad] at hzero
    obtain ⟨t, ht, hz⟩ := hzero
    have hptrs : t.ptrs i = s.ptrs i := by simp only [State.ptrs, State.nodes, hz.lists]
    have hcontent : t.content i = zeroBytes o l (s.content i) ↔ ∀ k c, (cells (s.ptrs i))[k]? = some c →
        (c ∈ zeroedCells s i o l ↔ o ≤ k ∧ k < o + l) ∨ read s.raws c = 0 := by
      rw [hz.wf.content_cells, h.content_cells, hptrs, zeroBytes, List.ext_getElem?_iff]
      refine forall_congr' fun k => ?_
      cases hc : (cells (s.ptrs i))[k]? with
      | none => simp [hc]
      | some c =>
        simp only [getElem?_map, List.getElem?_mapIdx, hc, map_some, some.injEq, hz.read, forall_eq']
        by_cases h1 : c ∈ zeroedCells s i o l <;> by_cases h2 : o ≤ k ∧ k < o + l <;> simp [h1, h2, eq_comm]
    constructor
    · rintro ⟨t', ht', heq⟩
      obtain rfl : t = t' := some.inj (ht.symm.trans ht')
      exact ⟨hbad, hcontent.mp heq⟩
    · exact fun hfits => ⟨t, ht, hcontent.mpr hfits.byte⟩

end zeroed

/-- Two segments of a byte each. -/
def twoSegments : State 1 := appendZero (appendZero (.init 1) 0 1) 0 1

theorem twoSegments_spec : WF twoSegments ∧ (abs twoSegments).Small := by
  have h1 : WF (appendZero (.init 1) 0 1) ∧ _ := appendZero_spec (init_wf 1) (by decide)
  exact ⟨(appendZero_spec h1.1 (by decide)).1, fun i => by rw [Subsingleton.elim i 0]; decide⟩

/-- The first segment can be zeroed. -/
theorem zero_exact_first : ∃ t, zero twoSegments 0 0 1 = some t ∧ t.content 0 = zeroBytes 0 1 (twoSegments.content 0) := by
  have hzero : ∀ c ∈ cells (twoSegments.ptrs 0), read twoSegments.raws c = 0 := by decide
  exact (zero_exact_iff twoSegments_spec.1 twoSegments_spec.2 (by decide)).mpr
    ⟨by decide, fun k c hc => .inr (hzero c (mem_of_getElem? hc))⟩

/-- Both cannot. -/
theorem zero_fails : WF twoSegments ∧ twoSegments.content 0 = [0, 0] ∧ (zero twoSegments 0 0 2).isNone = true :=
  ⟨twoSegments_spec.1, by decide, by decide⟩

end Buffer
end Ceph
