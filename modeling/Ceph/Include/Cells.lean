/-
# Which bytes a bufferlist is made of

Segments share memory, so what an operation does to other lists and pointers
depends on which bytes of which raw buffers they are: their cells. `Used` cells
are those that a good pointer may point at; `append` fills unused ones. `holes`
are the offsets of the empty segments, at which a `copy` never gets on.

`Wrote i s t new hs` says of a step from `s` to `t` that list `i` has the cells
`new` and the holes `hs` behind what it had, and that bytes in use are unchanged.
-/
import Ceph.Include.CachedPos

namespace Ceph
namespace Buffer

open List Option
open Wire (Bytes)
open State

variable {n : ℕ}

/-! ### Cells -/

/-- Byte `c.2` of raw buffer `c.1`. -/
abbrev Cell := ℕ × ℕ

def read (raws : Raws) (c : Cell) : UInt8 := ((raws[c.1]?.getD [])[c.2]?).getD 0

def Ptr.cells (p : Ptr) : List Cell :=
  match p.raw with
  | none => []
  | some r => (List.range' p.off p.len).map fun a => (r, a)

def cells (ps : List Ptr) : List Cell := ps.flatMap (·.cells)

@[simp] theorem cells_nil : cells [] = [] := rfl

@[simp] theorem cells_cons (p : Ptr) (ps : List Ptr) : cells (p :: ps) = p.cells ++ cells ps := flatMap_cons

@[simp] theorem cells_append (ps qs : List Ptr) : cells (ps ++ qs) = cells ps ++ cells qs := flatMap_append

variable {p : Ptr}

variable {c : Cell}

theorem mem_cells : c ∈ p.cells ↔ p.raw = some c.1 ∧ p.off ≤ c.2 ∧ c.2 < p.off + p.len := by
  cases hr : p.raw with
  | none => simp [Ptr.cells, hr]
  | some r =>
    simp only [Ptr.cells, hr, List.mem_map, mem_range'_1, some.injEq]
    constructor
    · rintro ⟨a, ha, rfl⟩
      exact ⟨rfl, ha⟩
    · rintro ⟨rfl, ha⟩
      exact ⟨c.2, ha, rfl⟩

variable {r : ℕ}

theorem cells_eq (hr : p.raw = some r) : p.cells = (List.range' p.off p.len).map fun a => (r, a) := by
  simp only [Ptr.cells, hr]

theorem length_cells (hr : p.raw = some r) : p.cells.length = p.len := by
  rw [cells_eq hr, length_map, length_range']

variable {l : ℕ}

theorem cells_sub {o : ℕ} (hle : o + l ≤ p.len) :
    Ptr.cells ⟨p.raw, p.off + o, l⟩ = (p.cells.drop o).take l := by
  cases hr : p.raw with
  | none => simp [Ptr.cells, hr]
  | some r =>
    simp only [Ptr.cells, hr]
    rw [← map_drop, ← map_take]
    congr 1
    apply ext_getElem
    · rw [length_range', length_take, length_drop, length_range']
      omega
    · intro k hk hk'
      simp only [getElem_range', getElem_take, getElem_drop]
      omega

theorem cells_extend (l : ℕ) :
    Ptr.cells ⟨p.raw, p.off, p.len + l⟩ = p.cells ++ Ptr.cells ⟨p.raw, p.off + p.len, l⟩ := by
  cases hr : p.raw with
  | none => simp [Ptr.cells, hr]
  | some r =>
    simp only [Ptr.cells, hr]
    rw [← map_append, ← range'_append, one_mul]

/-- A cell that a good pointer may point at. -/
def State.Used (s : State n) (c : Cell) : Prop :=
  ∃ b, s.raws[c.1]? = some b ∧ c.2 < b.length ∧
    ∀ i, (s.appendBuffer i).raw = some c.1 → c.2 < (s.appendBuffer i).len

variable {s : State n}

theorem State.Good.used_cells (h : s.Good p) (hc : c ∈ p.cells) : s.Used c := by
  obtain ⟨r, b, hr, hb, hle⟩ := h.inside
  obtain ⟨hc1, hc2, hc3⟩ := mem_cells.mp hc
  have hrc : r = c.1 := some.inj (hr.symm.trans hc1)
  subst hrc
  exact ⟨b, hb, by omega, fun i hi => lt_of_lt_of_le hc3 (h.used i _ hi hc1)⟩

theorem State.Good.length_cells (h : s.Good p) : p.cells.length = p.len := by
  obtain ⟨r, b, hr, -⟩ := h.inside
  exact Buffer.length_cells hr

theorem State.Good.bytes_eq (h : s.Good p) : p.bytes s.raws = p.cells.map (read s.raws) := by
  obtain ⟨r, b, hr, hb, hle⟩ := h.inside
  rw [Ptr.bytes, data_eq hr hb, cells_eq hr]
  apply ext_getElem
  · rw [length_take, length_drop, length_map, length_map, length_range']
    omega
  · intro k hk hk'
    rw [length_map, length_map, length_range'] at hk'
    have hlt : p.off + k < b.length := by omega
    have hget : b[p.off + k]? = some b[p.off + k] := getElem?_eq_getElem hlt
    simp [read, hb, hget]

theorem bytes_of_cells : ∀ {ps : List Ptr}, (∀ p ∈ ps, s.Good p) →
    ps.flatMap (·.bytes s.raws) = (cells ps).map (read s.raws)
  | [], _ => rfl
  | p :: ps, h => by
    rw [flatMap_cons, cells_cons, map_append, (h p mem_cons_self).bytes_eq,
      bytes_of_cells fun q hq => h q (mem_cons_of_mem p hq)]

variable {raws : Raws}

theorem read_modify {b d : Bytes} (hb : raws[r]? = some b) (hle : l + d.length ≤ b.length)
    (c : Cell) : read (raws.modify r (patch · l d)) c =
      if c.1 = r ∧ l ≤ c.2 ∧ c.2 < l + d.length then (d[c.2 - l]?).getD 0 else read raws c := by
  have htake : (b.take l).length = l := by
    rw [length_take]
    omega
  by_cases hc : c.1 = r
  · have hget : (raws.modify r (patch · l d))[c.1]? = some (patch b l d) := by
      rw [getElem?_modify, hc, hb]
      simp
    rw [read, hget, getD_some, read, hc, hb, getD_some, patch, append_assoc]
    by_cases h1 : c.2 < l
    · rw [if_neg (by omega), getElem?_append_left (by omega), getElem?_take_of_lt h1]
    · rw [getElem?_append_right (by omega), htake]
      by_cases h2 : c.2 < l + d.length
      · rw [if_pos ⟨rfl, by omega, h2⟩, getElem?_append_left (by omega)]
      · rw [if_neg (by omega), getElem?_append_right (by omega), getElem?_drop]
        congr 2
        omega
  · have hget : (raws.modify r (patch · l d))[c.1]? = raws[c.1]? := by
      simp [Ne.symm hc]
    rw [if_neg fun h => hc h.1, read, hget, read]

theorem map_read_modify {b d : Bytes} (hb : raws[r]? = some b) (hle : l + d.length ≤ b.length) :
    ((List.range' l d.length).map fun a => (r, a)).map (read (raws.modify r (patch · l d))) = d := by
  rw [List.map_map]
  apply ext_getElem
  · rw [length_map, length_range']
  · intro k hk hk'
    rw [getElem_map, getElem_range', one_mul, Function.comp_apply, read_modify hb hle,
      if_pos ⟨rfl, Nat.le_add_right l k, by omega⟩, Nat.add_sub_cancel_left, getElem?_eq_getElem hk',
      getD_some]

/-! ### Holes -/

/-- The offsets of the empty segments, if the first segment is at `o`. -/
def holes : ℕ → List Ptr → List ℕ
  | _, [] => []
  | o, p :: ps => (if p.len = 0 then [o] else []) ++ holes (o + p.len) ps

theorem holes_append : ∀ (o : ℕ) (ps qs : List Ptr),
    holes o (ps ++ qs) = holes o ps ++ holes (o + (ps.map (·.len)).sum) qs
  | o, [], qs => rfl
  | o, p :: ps, qs => by
    rw [cons_append, holes, holes, holes_append, map_cons, sum_cons, add_assoc, append_assoc]

theorem holes_ge : ∀ {o q : ℕ} {ps : List Ptr}, q ∈ holes o ps → o ≤ q ∧ q ≤ o + (ps.map (·.len)).sum
  | o, q, [], h => nomatch h
  | o, q, p :: ps, h => by
    rw [holes] at h
    rw [map_cons, sum_cons]
    rcases mem_append.mp h with h | h
    · by_cases hz : p.len = 0
      · rw [if_pos hz] at h
        have := mem_singleton.mp h
        omega
      · rw [if_neg hz] at h
        nomatch h
    · have := holes_ge h
      omega

/-- The segments of list `i`. -/
def State.ptrs (s : State n) (i : Fin n) : List Ptr := (s.nodes i).map (·.ptr)

theorem sum_ptrs (s : State n) (i : Fin n) : ((s.ptrs i).map (·.len)).sum = total (s.nodes i) := by
  rw [State.ptrs, List.map_map, total]
  rfl

theorem ptrs_mkNodes : ∀ (ps : List Ptr) (id : ℕ), (mkNodes id ps).map (·.ptr) = ps
  | [], _ => rfl
  | p :: ps, id => by rw [mkNodes, map_cons, ptrs_mkNodes ps]

theorem WF.good_ptrs (h : WF s) (i : Fin n) : ∀ p ∈ s.ptrs i, s.Good p := by
  intro p hp
  obtain ⟨x, hx, rfl⟩ := List.mem_map.mp hp
  exact h.goodNodes i x hx

theorem WF.content_cells (h : WF s) (i : Fin n) :
    s.content i = (cells (s.ptrs i)).map (read s.raws) := by
  rw [← bytes_of_cells (h.good_ptrs i), State.ptrs, flatMap_map]
  rfl

/-! ### Steps that write -/

/-- What was good or in use stays so, and keeps its bytes. -/
structure Later (s t : State n) : Prop where
  good : ∀ p, s.Good p → t.Good p
  used : ∀ c, s.Used c → t.Used c
  keep : ∀ c, s.Used c → read t.raws c = read s.raws c

theorem Later.refl (s : State n) : Later s s := ⟨fun _ h => h, fun _ h => h, fun _ _ => rfl⟩

variable {t u : State n}

theorem Later.trans (h1 : Later s t) (h2 : Later t u) : Later s u where
  good p hp := h2.good p (h1.good p hp)
  used c hc := h2.used c (h1.used c hc)
  keep c hc := (h2.keep c (h1.used c hc)).trans (h1.keep c hc)

theorem Later.bytes_eq (h : Later s t) (hp : s.Good p) : p.bytes t.raws = p.bytes s.raws := by
  rw [(h.good p hp).bytes_eq, hp.bytes_eq]
  exact map_congr_left fun c hc => h.keep c (hp.used_cells hc)

theorem Later.flatMap_bytes (h : Later s t) : ∀ {ps : List Ptr}, (∀ p ∈ ps, s.Good p) →
    ps.flatMap (·.bytes t.raws) = ps.flatMap (·.bytes s.raws)
  | [], _ => rfl
  | p :: ps, hp => by
    rw [flatMap_cons, flatMap_cons, h.bytes_eq (hp p mem_cons_self),
      h.flatMap_bytes fun q hq => hp q (mem_cons_of_mem p hq)]

/-- List `i` has the cells `new` behind what it had, and the holes `hs`. -/
structure Wrote (i : Fin n) (s t : State n) (new : List Cell) (hs : List ℕ) : Prop where
  sound : Sound t
  later : Later s t
  cells : cells (t.ptrs i) = cells (s.ptrs i) ++ new
  holes : holes 0 (t.ptrs i) = holes 0 (s.ptrs i) ++ hs

variable {i : Fin n}

theorem Wrote.refl (h : Sound s) : Wrote i s s [] [] :=
  ⟨h, .refl s, (append_nil _).symm, (append_nil _).symm⟩

variable {hs : List ℕ} {new : List Cell}

theorem Wrote.trans {new' : List Cell} {hs' : List ℕ} (h1 : Wrote i s t new hs)
    (h2 : Wrote i t u new' hs') : Wrote i s u (new ++ new') (hs ++ hs') where
  sound := h2.sound
  later := h1.later.trans h2.later
  cells := by rw [h2.cells, h1.cells, append_assoc]
  holes := by rw [h2.holes, h1.holes, append_assoc]

theorem Sound.length_content (h : Sound s) (i : Fin n) :
    (s.content i).length = (cells (s.ptrs i)).length := by
  rw [h.wf.content_cells i, length_map]

theorem Wrote.length_content (hs' : Sound s)
    (h : Wrote i s t new hs) : (t.content i).length = (s.content i).length + new.length := by
  rw [h.sound.length_content i, h.cells, length_append, hs'.length_content i]

theorem Wrote.content (hs' : Sound s)
    (h : Wrote i s t new hs) : t.content i = s.content i ++ new.map (read t.raws) := by
  rw [h.sound.wf.content_cells i, h.cells, map_append, hs'.wf.content_cells i]
  congr 1
  refine map_congr_left fun c hc => h.later.keep c ?_
  obtain ⟨p, hp, hcp⟩ := mem_flatMap.mp hc
  exact (hs'.wf.good_ptrs i p hp).used_cells hcp

/-- A pointer that ends before the end of list `i`'s append buffer, if it points
there. -/
def Behind (s : State n) (i : Fin n) (p : Ptr) : Prop :=
  ∀ r, (s.appendBuffer i).raw = some r → p.raw = some r → p.off + p.len < (s.appendBuffer i).len

/-- The last segment of list `i` is not an empty one that `append` would fill. -/
def Firm (s : State n) (i : Fin n) : Prop :=
  ∀ x, (s.nodes i).getLast? = some x → x.ptr.len = 0 → Behind s i x.ptr

theorem ptrs_pushRange (hwf : WF s) {xs : List Node} (hx : s.GoodNodes xs) (hp : s.Good p)
    {off len : ℕ} (hle : off + len ≤ p.len) (hlen : 0 < len) {id : ℕ} {ys : List Node}
    (hys : pushRange id xs p off len = some ys)
    (hfirm : ∀ b, xs.getLast? = some b → b.ptr.len = 0 → ¬ (b.ptr.raw = p.raw ∧ b.ptr.off + b.ptr.len = p.off + off)) :
    cells (ys.map (·.ptr)) = cells (xs.map (·.ptr)) ++ (p.cells.drop off).take len ∧
      (∀ o, holes o (ys.map (·.ptr)) = holes o (xs.map (·.ptr))) ∧
      ∃ b, ys.getLast? = some b ∧ 0 < b.ptr.len := by
  have hlt := hp.lt hwf
  rw [pushRange, u32_eq (by omega), if_pos (by omega)] at hys
  have hnew : ∀ zs, ((p.sub off len).map fun q => xs ++ [⟨id, q⟩]) = some zs →
      cells (zs.map (·.ptr)) = cells (xs.map (·.ptr)) ++ (p.cells.drop off).take len ∧
        (∀ o, holes o (zs.map (·.ptr)) = holes o (xs.map (·.ptr))) ∧ ∃ b, zs.getLast? = some b ∧ 0 < b.ptr.len := by
    intro zs hzs
    rw [hp.sub_eq hwf hle] at hzs
    cases hzs
    refine ⟨?_, fun o => ?_, _, getLast?_concat, hlen⟩
    · rw [map_append, cells_append, map_cons, map_nil, cells_cons, cells_nil, append_nil,
        cells_sub hle]
    · rw [map_append, holes_append, map_cons, map_nil, holes, holes, if_neg (ne_of_gt hlen)]
      simp
  cases hlast : xs.getLast? with
  | none =>
    rw [hlast] at hys
    exact hnew ys hys
  | some b =>
    rw [hlast] at hys
    simp only at hys
    by_cases hc : b.ptr.raw = p.raw ∧ b.ptr.stop = u32 (p.off + off)
    · rw [if_pos hc] at hys
      obtain ⟨as, rfl⟩ := getLast?_eq_some_iff.mp hlast
      have hb := hx b (mem_append_right _ mem_cons_self)
      have hblt := hb.lt hwf
      have hend : b.ptr.off + b.ptr.len = p.off + off := by
        have h2 := hc.2
        rwa [Ptr.stop, u32_eq hblt, u32_eq (by omega)] at h2
      have hbpos : b.ptr.len ≠ 0 := fun hz => hfirm b hlast hz ⟨hc.1, hend⟩
      rw [dropLast_concat, u32_eq (by omega)] at hys
      cases hys
      refine ⟨?_, fun o => ?_, _, getLast?_concat, ?_⟩
      · have hsub := cells_sub (p := p) (o := off) (l := len) hle
        rw [← hc.1, ← hend] at hsub
        rw [map_append, map_append, cells_append, cells_append, append_assoc]
        simp only [map_cons, map_nil, cells_cons, cells_nil, append_nil]
        rw [cells_extend, hsub]
      · rw [map_append, map_append, holes_append, holes_append]
        simp only [map_cons, map_nil, holes]
        rw [if_neg hbpos, if_neg (by omega)]
      · show 0 < b.ptr.len + len
        omega
    · rw [if_neg hc] at hys
      exact hnew ys hys

section append

variable {s : State n} {i : Fin n}

theorem read_fillBuffer {r l : ℕ} {b d : Bytes} (hb : s.raws[r]? = some b) (hle : l + d.length ≤ b.length) (c : Cell) :
    read (fillBuffer s i r l d).raws c =
      if c.1 = r ∧ l ≤ c.2 ∧ c.2 < l + d.length then (d[c.2 - l]?).getD 0 else read s.raws c :=
  read_modify hb hle c

theorem later_fillBuffer {r l : ℕ} {b d : Bytes} (hab : s.appendBuffer i = ⟨some r, 0, l⟩)
    (hb : s.raws[r]? = some b) (hle : l + d.length ≤ b.length) : Later s (fillBuffer s i r l d) where
  good p hp := good_fillBuffer hab hb hle hp
  used := by
    rintro c ⟨e, he, hlt, hu⟩
    have hraw : ∃ e', (fillBuffer s i r l d).raws[c.1]? = some e' ∧ e'.length = e.length := by
      rw [getElem?_fillBuffer hb]
      by_cases hc : c.1 = r
      · rw [if_pos hc]
        rw [hc, hb] at he
        exact ⟨_, rfl, by rw [length_patch hle, some.inj he]⟩
      · rw [if_neg hc]
        exact ⟨e, he, rfl⟩
    obtain ⟨e', he', hlen⟩ := hraw
    refine ⟨e', he', by rwa [hlen], fun j hj => ?_⟩
    rw [appendBuffer_fillBuffer] at hj ⊢
    by_cases h : j = i
    · rw [if_pos h] at hj ⊢
      have hui := hu i (by rw [hab]; exact hj)
      rw [hab] at hui
      exact Nat.lt_of_lt_of_le hui (Nat.le_add_right l _)
    · rw [if_neg h] at hj ⊢
      exact hu j hj
  keep := by
    rintro c ⟨e, -, -, hu⟩
    rw [read_fillBuffer hb hle, if_neg]
    rintro ⟨hc, hl, -⟩
    have hui := hu i (by rw [hab, hc])
    rw [hab] at hui
    exact absurd hui (Nat.not_lt.mpr hl)

variable {t : State n}

theorem Later.of_same (hraws : t.raws = s.raws) (hab : ∀ j, t.appendBuffer j = s.appendBuffer j) :
    Later s t where
  good p hp := ⟨by rw [hraws]; exact hp.inside, fun j r hj => by
    rw [hab] at hj ⊢
    exact hp.used j r hj⟩
  used := by
    rintro c ⟨b, hb, hlt, hu⟩
    refine ⟨b, by rw [hraws, hb], hlt, fun j hj => ?_⟩
    rw [hab] at hj ⊢
    exact hu j hj
  keep c _ := by rw [hraws]

theorem appendRange_wrote (h : Sound s) {p : Ptr} (hp : s.Good p) {off len : ℕ}
    (hle : off + len ≤ p.len) (hlen : 0 < len) (hroom : total (s.nodes i) + len < 2 ^ 32)
    (hfirm : ∀ b, (s.nodes i).getLast? = some b → b.ptr.len = 0 →
      ¬ (b.ptr.raw = p.raw ∧ b.ptr.off + b.ptr.len = p.off + off))
    (ht : appendRange s i p off len = some t) :
    Wrote i s t ((p.cells.drop off).take len) [] ∧ (∃ b, (t.nodes i).getLast? = some b ∧ 0 < b.ptr.len) ∧
      t.raws = s.raws ∧ ∀ j, t.appendBuffer j = s.appendBuffer j := by
  have hpush := appendRange_pushed h.wf h.tracked hp hle ht
  obtain ⟨ys, hys, rfl⟩ := map_eq_some_iff.mp ht
  obtain ⟨hcells, hholes, hlast⟩ := ptrs_pushRange h.wf (h.wf.goodNodes i) hp hle hlen hys hfirm
  obtain ⟨t, ht'⟩ : ∃ t, t = withNodes s i ys (u32 ((s.lists i).len + len)) (s.next + 1) := ⟨_, rfl⟩
  have hnodes : t.nodes i = ys := by rw [ht', nodes_withNodes_self]
  have hab : ∀ j, t.appendBuffer j = s.appendBuffer j := by
    intro j
    rw [ht', appendBuffer_withNodes]
  have hraws : t.raws = s.raws := by rw [ht']; rfl
  rw [show ({ s.set i { s.lists i with nodes := ys, len := u32 ((s.lists i).len + len) } with
    next := s.next + 1 } : State n) = t from ht'.symm] at hpush ⊢
  refine ⟨⟨⟨hpush.wf, fun j => ?_, hpush.tracked⟩, .of_same hraws hab, ?_, ?_⟩, ?_, hraws, hab⟩
  · by_cases hj : j = i
    · rw [hj, hpush.total]
      exact hroom
    · rw [hpush.nodes j hj]
      exact h.small j
  · rw [State.ptrs, hnodes, hcells, State.ptrs]
  · rw [State.ptrs, hnodes, hholes, State.ptrs, append_nil]
  · rw [hnodes]
    exact hlast

theorem firm_of_last (h : ∃ b, (t.nodes i).getLast? = some b ∧ 0 < b.ptr.len) : Firm t i := by
  obtain ⟨b, hb, hlen⟩ := h
  intro x hx hz
  have hxb : b = x := some.inj (hb.symm.trans hx)
  subst hxb
  omega

/-- Cells that were not in use now hold `data`. -/
structure Fresh (s t : State n) (new : List Cell) (data : Bytes) : Prop where
  nodup : new.Nodup
  unused : ∀ c ∈ new, ¬ s.Used c
  read : new.map (read t.raws) = data

theorem fillGap_wrote {data rest : Bytes} (h : Sound s) (hfirm : Firm s i) (hdata : data ≠ [])
    (hgap : gap s i ≠ 0) (hroom : total (s.nodes i) + data.length < 2 ^ 32)
    (ht : fillGap s i data = some (t, rest)) :
    ∃ new, Wrote i s t new [] ∧ Firm t i ∧ Fresh s t new (data.take (gap s i)) ∧ rest = data.drop (gap s i) ∧
      (∀ p, s.Good p → Behind t i p) := by
  obtain ⟨r, l, b, d, hab, hb, hd, hfit, hlt⟩ := gap_cases h.wf hgap data
  rw [fillGap_eq hab hgap hd hlt] at ht
  obtain ⟨u, hu, heq⟩ := map_eq_some_iff.mp ht
  obtain ⟨rfl, rfl⟩ := heq
  have hdlen : 0 < d.length := by
    have hpos := length_pos_iff.mpr hdata
    rw [hd, length_take]
    omega
  have hdle : d.length ≤ data.length := by
    rw [hd, length_take]
    omega
  have hptrs : ∀ j, (fillBuffer s i r l d).ptrs j = s.ptrs j := by
    intro j
    rw [State.ptrs, nodes_fillBuffer, State.ptrs]
  have hlater := later_fillBuffer hab hb hfit
  have h1 : Sound (fillBuffer s i r l d) := by
    refine ⟨h.wf.fillBuffer hab hb hfit, fun j => ?_, tracked_fillBuffer h.tracked r l d⟩
    rw [nodes_fillBuffer]
    exact h.small j
  have hw1 : Wrote i s (fillBuffer s i r l d) [] [] :=
    ⟨h1, hlater, by rw [hptrs, append_nil], by rw [hptrs, append_nil]⟩
  have hab1 := appendBuffer_fillBuffer (s := s) (i := i) (r := r) (l := l) (d := d) i
  rw [if_pos rfl] at hab1
  have hfirm1 : ∀ x, ((fillBuffer s i r l d).nodes i).getLast? = some x → x.ptr.len = 0 →
      ¬ (x.ptr.raw = some r ∧ x.ptr.off + x.ptr.len = 0 + l) := by
    rintro x hx hz ⟨hr, hend⟩
    rw [nodes_fillBuffer] at hx
    have hbehind := hfirm x hx hz r (by rw [hab]) hr
    rw [hab] at hbehind
    simp only at hbehind
    omega
  have hgood := good_filled hab hb hfit h.wf
  obtain ⟨hw2, hlast, hraws, hab2⟩ := appendRange_wrote (i := i) h1 hgood (le_refl (l + d.length)) hdlen
    (by rw [nodes_fillBuffer]; omega) hfirm1 hu
  have hcells : ((Ptr.cells ⟨some r, 0, l + d.length⟩).drop l).take d.length =
      (List.range' l d.length).map fun a => (r, a) := by
    rw [← cells_sub (p := ⟨some r, 0, l + d.length⟩) le_rfl, zero_add]
    rfl
  rw [hcells] at hw2
  refine ⟨_, hw1.trans hw2, firm_of_last hlast, ⟨?_, ?_, ?_⟩, rfl, ?_⟩
  · rw [nil_append]
    exact List.Nodup.map (fun a b h => congrArg Prod.snd h) nodup_range'
  · rintro c hc ⟨e, he, -, hused⟩
    obtain ⟨a, ha, rfl⟩ := List.mem_map.mp hc
    have hlt' := hused i (by rw [hab])
    rw [hab] at hlt'
    have hge := (mem_range'_1.mp ha).1
    simp only at hlt'
    omega
  · rw [nil_append, hraws, ← hd]
    exact map_read_modify hb hfit
  · intro p hp q hq hpq
    rw [hab2, hab1] at hq ⊢
    have hrq : r = q := some.inj hq
    have hused := hp.used i q (by rw [hab, hrq]) hpq
    rw [hab] at hused
    simp only at hused ⊢
    omega

theorem newAppendBuffer_wrote (h : Sound s) (m : Machine) (len : ℕ) :
    Wrote i s (newAppendBuffer m s i len) [] [] ∧ Firm (newAppendBuffer m s i len) i ∧
      ∀ p, s.Good p → Behind (newAppendBuffer m s i len) i p := by
  have hptrs : ∀ j, (newAppendBuffer m s i len).ptrs j = s.ptrs j := by
    intro j
    rw [State.ptrs, nodes_newAppendBuffer, State.ptrs]
  have hbehind : ∀ p, s.Good p → Behind (newAppendBuffer m s i len) i p := by
    intro p hp q hq hpq
    rw [appendBuffer_newAppendBuffer, if_pos rfl] at hq
    obtain ⟨k, b, hk, hb, -⟩ := hp.inside
    have hlt := (List.getElem?_eq_some_iff.mp hb).1
    have h1 : s.raws.length = q := some.inj hq
    have h2 : k = q := some.inj (hk.symm.trans hpq)
    omega
  refine ⟨⟨⟨h.wf.newAppendBuffer m len, fun j => ?_, tracked_newAppendBuffer h.tracked m len⟩, ⟨?_, ?_, ?_⟩, ?_, ?_⟩,
    fun x hx _ => ?_, hbehind⟩
  · rw [nodes_newAppendBuffer]
    exact h.small j
  · exact fun p hp => good_newAppendBuffer m len hp
  · rintro c ⟨b, hb, hlt, hu⟩
    have hclt := (List.getElem?_eq_some_iff.mp hb).1
    refine ⟨b, ?_, hlt, fun j hj => ?_⟩
    · rw [← hb]
      exact getElem?_append_left hclt
    · rw [appendBuffer_newAppendBuffer] at hj ⊢
      by_cases hji : j = i
      · rw [if_pos hji] at hj
        have hrl : s.raws.length = c.1 := some.inj hj
        omega
      · rw [if_neg hji] at hj ⊢
        exact hu j hj
  · rintro c ⟨b, hb, -, -⟩
    have hclt := (List.getElem?_eq_some_iff.mp hb).1
    have hget : (newAppendBuffer m s i len).raws[c.1]? = s.raws[c.1]? := getElem?_append_left hclt
    rw [read, read, hget]
  · rw [hptrs, append_nil]
  · rw [hptrs, append_nil]
  · rw [nodes_newAppendBuffer] at hx
    exact hbehind x.ptr (h.wf.goodNodes i x (mem_of_getLast? hx))

theorem Fresh.append {t u : State n} {new new' : List Cell} {d d' : Bytes} (hst : Wrote i s t new [])
    (htu : Later t u) (h : Fresh s t new d) (h' : Fresh t u new' d') : Fresh s u (new ++ new') (d ++ d') := by
  have hused : ∀ c ∈ new, t.Used c := by
    intro c hc
    have hmem : c ∈ cells (t.ptrs i) := by
      rw [hst.cells]
      exact mem_append_right _ hc
    obtain ⟨p, hp, hcp⟩ := mem_flatMap.mp hmem
    exact (hst.sound.wf.good_ptrs i p hp).used_cells hcp
  refine ⟨?_, fun c hc => ?_, ?_⟩
  · rw [nodup_append]
    exact ⟨h.nodup, h'.nodup, fun a ha b hb hab => h'.unused b hb (hab ▸ hused a ha)⟩
  · rcases mem_append.mp hc with hc | hc
    · exact h.unused c hc
    · exact fun hu => h'.unused c hc (hst.later.used c hu)
  · rw [map_append, h'.read, ← h.read]
    congr 1
    exact map_congr_left fun c hc => htu.keep c (hused c hc)

/-- What `append(data, len)` writes. -/
theorem append_wrote {m : Machine} {data : Bytes} (h : Sound s) (hfirm : Firm s i) (hdata : data ≠ [])
    (hlen : data.length + m.pageSize ≤ 2 ^ 32) (hroom : total (s.nodes i) + data.length < 2 ^ 32) :
    ∃ t new, append m s i data = some t ∧ Wrote i s t new [] ∧ Firm t i ∧ Fresh s t new data ∧
      ∀ p, s.Good p → Behind t i p := by
  obtain ⟨t, ht, -⟩ := fillGap_spec (i := i) h.wf data
  -- the second round, from a state `u` with `rest` to write
  have hround : ∀ (u : State n) (rest : Bytes), Sound u → rest ≠ [] → rest.length ≤ data.length →
      total (u.nodes i) + rest.length < 2 ^ 32 →
      ∃ v new, appendLoop m 1 (newAppendBuffer m u i rest.length) i rest = some v ∧ Wrote i u v new [] ∧ Firm v i ∧
        Fresh u v new rest ∧ ∀ p, u.Good p → Behind v i p := by
    intro u rest hu hrest hrlen hroom'
    obtain ⟨hw1, hfirm1, -⟩ := newAppendBuffer_wrote (i := i) hu m rest.length
    have hgap := gap_newAppendBuffer (i := i) m rest.length hu.wf (length_pos_iff.mpr hrest) (by omega)
    have hpos := length_pos_iff.mpr hrest
    obtain ⟨v, hv, -⟩ := fillGap_spec (i := i) hw1.sound.wf rest
    obtain ⟨new, hw2, hfirm2, hfresh, -, hbehind⟩ := fillGap_wrote hw1.sound hfirm1 hrest (by omega)
      (by rw [nodes_newAppendBuffer]; exact hroom') hv
    rw [take_of_length_le hgap] at hfresh
    refine ⟨v, [] ++ new, ?_, hw1.trans hw2, hfirm2, ?_, fun p hp => hbehind p (hw1.later.good p hp)⟩
    · rw [appendLoop, if_neg hrest, hv, bind_some, drop_eq_nil_of_le hgap, if_pos rfl]
    · refine ⟨hfresh.nodup, fun c hc hused => hfresh.unused c hc (hw1.later.used c hused), hfresh.read⟩
  by_cases hgap : gap s i = 0
  · rw [fillGap_zero hgap] at ht
    obtain ⟨v, new, hv, hrest⟩ := hround s data h hdata le_rfl hroom
    refine ⟨v, new, ?_, hrest⟩
    rw [append, appendLoop, if_neg hdata, fillGap_zero hgap, bind_some, if_neg hdata]
    exact hv
  · obtain ⟨new, hw, hfirm1, hfresh, -, hbehind⟩ := fillGap_wrote h hfirm hdata hgap hroom ht
    by_cases hd : data.drop (gap s i) = []
    · rw [take_of_length_le (drop_eq_nil_iff.mp hd)] at hfresh
      refine ⟨t, new, ?_, hw, hfirm1, hfresh, hbehind⟩
      rw [append, appendLoop, if_neg hdata, ht, bind_some, if_pos hd]
    · have hnew : new.length = (data.take (gap s i)).length := by
        rw [← hfresh.read, length_map]
      have htotal : total (t.nodes i) = total (s.nodes i) + new.length := by
        rw [← hw.sound.wf.length_content i, hw.length_content h, h.wf.length_content i]
      have hsum : (data.take (gap s i)).length + (data.drop (gap s i)).length = data.length := by
        rw [← length_append, take_append_drop]
      obtain ⟨v, new', hv, hw', hfirm2, hfresh', hbehind'⟩ := hround t (data.drop (gap s i)) hw.sound hd (by omega)
        (by omega)
      refine ⟨v, new ++ new', ?_, hw.trans hw', hfirm2, ?_, fun p hp => hbehind' p (hw.later.good p hp)⟩
      · rw [append, appendLoop, if_neg hdata, ht, bind_some, if_neg hd]
        exact hv
      · have happ := Fresh.append hw hw'.later hfresh hfresh'
        rwa [take_append_drop] at happ

/-- What `append(ptr)` and `append(list)` write: the cells of the pointers. -/
theorem appendPtrs_wrote (h : Sound s) {ps : List Ptr} (hp : ∀ p ∈ ps, s.Good p)
    (hroom : total (s.nodes i) + (ps.map (·.len)).sum < 2 ^ 32) :
    Wrote i s (appendPtrs s i ps (ps.map (·.len)).sum) (cells ps) (holes (s.content i).length ps) := by
  have hform : appendPtrs s i ps (ps.map (·.len)).sum = withNodes s i (s.nodes i ++ mkNodes s.next ps)
    (u32 ((s.lists i).len + (ps.map (·.len)).sum)) (s.next + ps.length) := rfl
  have hptrs : (appendPtrs s i ps (ps.map (·.len)).sum).ptrs i = s.ptrs i ++ ps := by
    rw [State.ptrs, hform, nodes_withNodes_self, map_append, ptrs_mkNodes, State.ptrs]
  refine ⟨⟨(h.wf.appendPtrs hp rfl).1, fun j => ?_, h.tracked.appendPtrs i ps _⟩,
    .of_same rfl fun j => by rw [hform, appendBuffer_withNodes], ?_, ?_⟩
  · rw [hform]
    by_cases hj : j = i
    · rw [hj, nodes_withNodes_self, total_append, total_mkNodes]
      exact hroom
    · rw [nodes_withNodes_of_ne hj]
      exact h.small j
  · rw [hptrs, cells_append]
  · rw [hptrs, holes_append, sum_ptrs, ← h.wf.length_content i, zero_add]

end append

end Buffer
end Ceph
