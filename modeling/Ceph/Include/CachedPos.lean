/-
# The cached position of a bufferlist

`copy` and `copy_in` of a list go through `last_p`, which is used again if its
offset is the one asked for. An operation that changes the nodes of a list does
not touch it, so afterwards it may be at a node that is gone, that is now in
another list, or that is now at another offset.

It is sound as long as such an operation finds it at `end()` (`Home`), from where
every copy seeks again: `Settled` says which operations these are, and where
`splice` leaves it alone. Appending is always fine. Operations are used as
`spec` allows.
-/
import Mathlib.Data.List.TakeWhile
import Ceph.Include.ByteString

namespace Ceph
namespace Buffer

open List Option Function
open Wire (Bytes)
open State

variable {n : ℕ}

/-! ### Walks -/

theorem skip_zero (xs : List Node) : skip xs 0 = some ([], xs, 0) := by
  cases xs <;> rfl

theorem skip_stop : ∀ {xs : List Node} {off : ℕ} {pre rest : List Node} {r : ℕ},
    skip xs off = some (pre, rest, r) → Stop xs off pre rest r
  | xs, 0, pre, rest, r, h => by
    rw [skip_zero] at h
    cases h
    exact ⟨rfl, rfl, .inl rfl⟩
  | [], off + 1, pre, rest, r, h => nomatch h
  | x :: xs, off + 1, pre, rest, r, h => by
    rw [skip] at h
    by_cases hle : x.ptr.len ≤ off + 1
    · rw [if_pos hle] at h
      obtain ⟨⟨pre', rest', r'⟩, h', heq⟩ := map_eq_some_iff.mp h
      have hs := skip_stop h'
      have hoff := hs.off
      cases heq
      refine ⟨by rw [hs.split]; rfl, ?_, hs.inside⟩
      show total (x :: pre') + r = off + 1
      rw [total_cons]
      omega
    · rw [if_neg hle] at h
      cases h
      exact ⟨rfl, zero_add _, .inr ⟨x, xs, rfl, by omega⟩⟩

/-- Where a walk stops does not depend on the nodes behind. -/
theorem skip_head : ∀ {pre ys : List Node} {x : Node} {off r : ℕ} (zs : List Node),
    skip (pre ++ x :: ys) off = some (pre, x :: ys, r) → skip (pre ++ x :: zs) off = some (pre, x :: zs, r)
  | pre, ys, x, 0, r, zs, h => by
    rw [skip_zero] at h ⊢
    cases pre with
    | nil =>
      cases h
      rfl
    | cons a pre => cases h
  | [], ys, x, off + 1, r, zs, h => by
    rw [nil_append, skip] at h ⊢
    by_cases hle : x.ptr.len ≤ off + 1
    · rw [if_pos hle] at h
      obtain ⟨w, -, heq⟩ := map_eq_some_iff.mp h
      cases heq
    · rw [if_neg hle] at h ⊢
      cases h
      rfl
  | a :: pre, ys, x, off + 1, r, zs, h => by
    rw [cons_append, skip] at h ⊢
    by_cases hle : a.ptr.len ≤ off + 1
    · rw [if_pos hle] at h ⊢
      obtain ⟨⟨pre', rest', r'⟩, h', heq⟩ := map_eq_some_iff.mp h
      cases heq
      rw [skip_head zs h']
      rfl
    · rw [if_neg hle] at h
      cases h

variable {x : Node} {pre ys : List Node}

variable {xs : List Node}

theorem skip_append {pre ys : List Node} {off r : ℕ} (zs : List Node)
    (h : skip xs off = some (pre, x :: ys, r)) : skip (xs ++ zs) off = some (pre, x :: (ys ++ zs), r) := by
  have hsplit := (skip_stop h).split
  rw [hsplit] at h ⊢
  rw [append_assoc, cons_append]
  exact skip_head (ys ++ zs) h

theorem skip_congr : ∀ {pre rest : List Node} {off : ℕ} (rest' : List Node),
    skip (pre ++ rest) off = some (pre, rest, 0) → skip (pre ++ rest') off = some (pre, rest', 0)
  | pre, rest, 0, rest', h => by
    rw [skip_zero] at h ⊢
    cases h
    rfl
  | [], [], off + 1, rest', h => nomatch h
  | [], x :: rest, off + 1, rest', h => by
    have hs := (skip_stop h).off
    simp at hs
  | y :: pre, rest, off + 1, rest', h => by
    rw [cons_append, skip] at h ⊢
    by_cases hle : y.ptr.len ≤ off + 1
    · rw [if_pos hle] at h ⊢
      obtain ⟨⟨pre', rest'', r'⟩, h', heq⟩ := map_eq_some_iff.mp h
      cases heq
      rw [skip_congr rest' h']
      rfl
    · rw [if_neg hle] at h
      cases h

/-- The last node grows. -/
theorem skip_extend {b b' : Node} (hid : b'.id = b.id) (hlen : b.ptr.len ≤ b'.ptr.len) :
    ∀ {as : List Node} {off : ℕ} {pre ys : List Node} {x : Node} {r : ℕ},
    skip (as ++ [b]) off = some (pre, x :: ys, r) →
    ∃ x' ys', skip (as ++ [b']) off = some (pre, x' :: ys', r) ∧ x'.id = x.id ∧ x.ptr.len ≤ x'.ptr.len
  | as, 0, pre, ys, x, r, h => by
    rw [skip_zero] at h ⊢
    cases as with
    | nil =>
      cases h
      exact ⟨b', [], rfl, hid, hlen⟩
    | cons a as =>
      cases h
      exact ⟨x, as ++ [b'], rfl, rfl, le_refl _⟩
  | [], off + 1, pre, ys, x, r, h => by
    rw [nil_append, skip] at h
    rw [nil_append, skip]
    by_cases hle : b.ptr.len ≤ off + 1
    · rw [if_pos hle] at h
      obtain ⟨⟨pre', rest', r'⟩, h', heq⟩ := map_eq_some_iff.mp h
      have hsplit := (skip_stop h').split
      cases heq
      simp at hsplit
    · rw [if_neg hle] at h
      cases h
      exact ⟨b', [], by rw [if_neg (by omega)], hid, hlen⟩
  | a :: as, off + 1, pre, ys, x, r, h => by
    rw [cons_append, skip] at h ⊢
    by_cases hle : a.ptr.len ≤ off + 1
    · rw [if_pos hle] at h ⊢
      obtain ⟨⟨pre', rest', r'⟩, h', heq⟩ := map_eq_some_iff.mp h
      cases heq
      obtain ⟨x', ys', hx', hrest⟩ := skip_extend hid hlen h'
      exact ⟨x', ys', by rw [hx']; rfl, hrest⟩
    · rw [if_neg hle] at h ⊢
      cases h
      exact ⟨a, as ++ [b'], rfl, rfl, le_refl _⟩

theorem skip_add : ∀ {xs : List Node} {off : ℕ} {pre rest : List Node} {r : ℕ} (h : ℕ),
    skip xs off = some (pre, rest, r) → skip xs (off + h) = (skip rest (r + h)).map fun w => (pre ++ w.1, w.2)
  | xs, 0, pre, rest, r, h, hskip => by
    rw [skip_zero] at hskip
    cases hskip
    simp
  | [], off + 1, pre, rest, r, h, hskip => nomatch hskip
  | x :: xs, off + 1, pre, rest, r, h, hskip => by
    rw [skip] at hskip
    by_cases hle : x.ptr.len ≤ off + 1
    · rw [if_pos hle] at hskip
      obtain ⟨⟨pre', rest', r'⟩, h', heq⟩ := map_eq_some_iff.mp hskip
      cases heq
      have hrec := skip_add h h'
      rw [show off + 1 + h = off + h + 1 by omega, skip, if_pos (by omega),
        show off + h + 1 - x.ptr.len = off + 1 - x.ptr.len + h by omega, hrec, Option.map_map]
      rfl
    · rw [if_neg hle] at hskip
      cases hskip
      simp

/-! ### Nodes and positions -/

/-- The nodes of a pool are different ones, and all older than `next`. -/
structure Ids (s : State n) : Prop where
  nodup : ∀ i, ((s.nodes i).map (·.id)).Nodup
  apart : ∀ i j, ∀ x ∈ s.nodes i, ∀ y ∈ s.nodes j, x.id = y.id → i = j
  lt : ∀ i, ∀ x ∈ s.nodes i, x.id < s.next

/-- A position is at `end()` of its list, or where a fresh walk to its offset ends. -/
def Cached (i : Fin n) (xs : List Node) (it : Iter n) : Prop :=
  it.p = .fin i ∨
    it.off < 2 ^ 32 ∧ ∃ pre x ys, skip xs it.off = some (pre, x :: ys, it.pOff) ∧ it.p = .node x.id

/-- The cached positions of a pool are sound. -/
structure Tracked (s : State n) : Prop where
  ids : Ids s
  cached : ∀ i, Cached i (s.nodes i) (s.lists i).lastP

theorem dropWhile_ne (h : ((pre ++ x :: ys).map (·.id)).Nodup) :
    (pre ++ x :: ys).dropWhile (fun y => y.id ≠ x.id) = x :: ys := by
  have hpre : ∀ y ∈ pre, decide (y.id ≠ x.id) = true := by
    intro y hy
    rw [map_append, map_cons] at h
    have hne := (nodup_append.mp h).2.2 y.id (mem_map.mpr ⟨y, hy, rfl⟩) x.id mem_cons_self
    exact decide_eq_true hne
  rw [dropWhile_append_of_pos hpre, dropWhile_cons_of_neg (by simp)]

variable {i : Fin n} {s : State n}

theorem locate_eq (h : Ids s)
    (hnodes : s.nodes i = pre ++ x :: ys) : locate s x.id = some (i, x :: ys) := by
  have hx : x ∈ s.nodes i := by
    rw [hnodes]
    exact mem_append_right _ mem_cons_self
  obtain ⟨as, bs, hrange⟩ := append_of_mem (mem_finRange i)
  have hnodup : (as ++ i :: bs).Nodup := by
    rw [← hrange]
    exact nodup_finRange n
  rw [locate, findSome?_eq_some_iff]
  refine ⟨as, i, bs, hrange, ?_, ?_⟩
  · have hdrop : (s.nodes i).dropWhile (fun y => y.id ≠ x.id) = x :: ys := by
      rw [hnodes]
      exact dropWhile_ne (hnodes ▸ h.nodup i)
    rw [hdrop, if_neg (cons_ne_nil x ys)]
  · intro j hj
    have hji : j ≠ i := (nodup_append.mp hnodup).2.2 j hj i mem_cons_self
    have hdrop : (s.nodes j).dropWhile (fun y => y.id ≠ x.id) = [] :=
      dropWhile_eq_nil_iff.mpr fun y hy => decide_eq_true fun hid => hji (h.apart j i y hy x hx hid)
    rw [hdrop, if_pos rfl]

theorem deref_eq (h : Ids s)
    (hnodes : s.nodes i = pre ++ x :: ys) : deref s (.node x.id) = some x.ptr := by
  rw [deref, locate_eq h hnodes]
  rfl

/-- `advance` walks on from the node it is at. -/
theorem advance_eq (h : Ids s) (hnodes : s.nodes i = pre ++ x :: ys) (off pOff o : ℕ) :
    advance s ⟨off, .node x.id, pOff⟩ o = (skip (x :: ys) (u32 (pOff + o))).map fun w =>
      ⟨u32 (off + o), position i w.2.1, w.2.2⟩ := by
  simp only [advance]
  by_cases hz : u32 (pOff + o) = 0
  · rw [if_pos hz, hz, skip_zero]
    rfl
  · rw [if_neg hz, locate_eq h hnodes]
    rfl

/-- `seek` is a walk from the first node. -/
theorem seek_eq (h : Ids s) (i : Fin n) (o : ℕ) :
    seek s i o = (skip (s.nodes i) (u32 o)).map fun w => ⟨u32 o, position i w.2.1, w.2.2⟩ := by
  rw [seek]
  cases hnodes : s.nodes i with
  | nil =>
    simp only [position, advance, zero_add]
    by_cases hz : u32 o = 0
    · rw [if_pos hz, hz]
      rfl
    · rw [if_neg hz]
      obtain ⟨k, hk⟩ := Nat.exists_eq_succ_of_ne_zero hz
      rw [hk]
      rfl
  | cons x xs =>
    have hsplit : s.nodes i = [] ++ x :: xs := hnodes
    rw [position, advance_eq h hsplit, zero_add]

/-! ### Changes of a list -/

variable {t : State n}

theorem Ids.congr (h : Ids s) (hnodes : ∀ i, t.nodes i = s.nodes i) (hnext : s.next ≤ t.next) : Ids t where
  nodup i := by
    rw [hnodes]
    exact h.nodup i
  apart i j x hx y hy := by
    rw [hnodes] at hx hy
    exact h.apart i j x hx y hy
  lt i x hx := by
    rw [hnodes] at hx
    exact lt_of_lt_of_le (h.lt i x hx) hnext

theorem Tracked.congr (h : Tracked s) (hnodes : ∀ i, t.nodes i = s.nodes i)
    (hlast : ∀ i, (t.lists i).lastP = (s.lists i).lastP) (hnext : s.next ≤ t.next) : Tracked t where
  ids := h.ids.congr hnodes hnext
  cached i := by
    rw [hnodes, hlast]
    exact h.cached i

/-- List `i` gets nodes of its own and new ones. -/
structure Own (s : State n) (i : Fin n) (xs : List Node) (next : ℕ) : Prop where
  nodup : (xs.map (·.id)).Nodup
  own : ∀ x ∈ xs, (∃ y ∈ s.nodes i, y.id = x.id) ∨ s.next ≤ x.id
  lt : ∀ x ∈ xs, x.id < next
  next : s.next ≤ next

theorem Ids.withNodes (h : Ids s) {len next : ℕ} (hx : Own s i xs next) :
    Ids (withNodes s i xs len next) where
  nodup j := by
    by_cases hj : j = i
    · rw [hj, nodes_withNodes_self]
      exact hx.nodup
    · rw [nodes_withNodes_of_ne hj]
      exact h.nodup j
  apart j k x hxj y hyk hid := by
    -- a node of `i` is an old one of `i`, or newer than all of the others
    have hmix : ∀ a ∈ xs, ∀ l, ∀ b ∈ s.nodes l, a.id = b.id → i = l := by
      intro a ha l b hb hab
      rcases hx.own a ha with ⟨c, hc, hca⟩ | hge
      · exact h.apart i l c hc b hb (hca.trans hab)
      · have hlt := h.lt l b hb
        omega
    by_cases hj : j = i <;> by_cases hk : k = i
    · rw [hj, hk]
    · rw [hj, nodes_withNodes_self] at hxj
      rw [nodes_withNodes_of_ne hk] at hyk
      rw [hj]
      exact hmix x hxj k y hyk hid
    · rw [nodes_withNodes_of_ne hj] at hxj
      rw [hk, nodes_withNodes_self] at hyk
      rw [hk]
      exact (hmix y hyk j x hxj hid.symm).symm
    · rw [nodes_withNodes_of_ne hj] at hxj
      rw [nodes_withNodes_of_ne hk] at hyk
      exact h.apart j k x hxj y hyk hid
  lt j x hxj := by
    by_cases hj : j = i
    · rw [hj, nodes_withNodes_self] at hxj
      exact hx.lt x hxj
    · rw [nodes_withNodes_of_ne hj] at hxj
      exact lt_of_lt_of_le (h.lt j x hxj) hx.next

theorem lastP_withNodes (s : State n) (i : Fin n) (xs : List Node) (len next : ℕ) (j : Fin n) :
    ((withNodes s i xs len next).lists j).lastP = (s.lists j).lastP := by
  rw [lists_withNodes]
  by_cases hj : j = i
  · rw [if_pos hj, hj]
  · rw [if_neg hj]

theorem Tracked.withNodes (h : Tracked s) {len next : ℕ}
    (hx : Own s i xs next) (hc : Cached i xs (s.lists i).lastP) : Tracked (withNodes s i xs len next) where
  ids := h.ids.withNodes hx
  cached j := by
    rw [lastP_withNodes]
    by_cases hj : j = i
    · rw [hj, nodes_withNodes_self]
      exact hc
    · rw [nodes_withNodes_of_ne hj]
      exact h.cached j

/-- The cached position of list `i` is at `end()`. -/
def Home (s : State n) (i : Fin n) : Prop := (s.lists i).lastP.p = .fin i

variable {it : Iter n}

theorem Cached.append (h : Cached i xs it) (zs : List Node) : Cached i (xs ++ zs) it := by
  rcases h with h | ⟨hlt, pre, x, ys, hskip, hp⟩
  · exact .inl h
  · exact .inr ⟨hlt, pre, x, ys ++ zs, skip_append zs hskip, hp⟩

theorem Cached.extend {as : List Node} {b b' : Node} (h : Cached i (as ++ [b]) it)
    (hid : b'.id = b.id) (hlen : b.ptr.len ≤ b'.ptr.len) : Cached i (as ++ [b']) it := by
  rcases h with h | ⟨hlt, pre, x, ys, hskip, hp⟩
  · exact .inl h
  · obtain ⟨x', ys', hskip', hid', -⟩ := skip_extend hid hlen hskip
    exact .inr ⟨hlt, pre, x', ys', hskip', by rw [hp, hid']⟩

theorem ids_mkNodes : ∀ (ps : List Ptr) (id : ℕ), (mkNodes id ps).map (·.id) = range' id ps.length
  | [], _ => rfl
  | p :: ps, id => by
    rw [mkNodes, map_cons, ids_mkNodes ps, length_cons, range'_succ]

variable {id : ℕ}

theorem mem_mkNodes {ps : List Ptr} {x : Node} (hx : x ∈ mkNodes id ps) : id ≤ x.id ∧ x.id < id + ps.length := by
  have hmem : x.id ∈ (mkNodes id ps).map (·.id) := mem_map.mpr ⟨x, hx, rfl⟩
  rwa [ids_mkNodes, mem_range'_1] at hmem

/-- New nodes behind the old ones. -/
theorem own_append (h : Ids s) (i : Fin n) (ps : List Ptr) :
    Own s i (s.nodes i ++ mkNodes s.next ps) (s.next + ps.length) := by
  refine ⟨?_, ?_, ?_, Nat.le_add_right _ _⟩
  · rw [map_append, nodup_append]
    refine ⟨h.nodup i, ?_, ?_⟩
    · rw [ids_mkNodes]
      exact nodup_range'
    · intro a ha b hb hab
      obtain ⟨x, hx, rfl⟩ := mem_map.mp ha
      obtain ⟨y, hy, rfl⟩ := mem_map.mp hb
      have h1 := h.lt i x hx
      have h2 := (mem_mkNodes hy).1
      omega
  · intro x hx
    rcases mem_append.mp hx with hx | hx
    · exact .inl ⟨x, hx, rfl⟩
    · exact .inr (mem_mkNodes hx).1
  · intro x hx
    rcases mem_append.mp hx with hx | hx
    · exact Nat.lt_of_lt_of_le (h.lt i x hx) (Nat.le_add_right _ _)
    · exact (mem_mkNodes hx).2

theorem Tracked.appendPtrs (h : Tracked s) (i : Fin n) (ps : List Ptr) (len : ℕ) :
    Tracked (appendPtrs s i ps len) :=
  h.withNodes (own_append h.ids i ps) ((h.cached i).append _)

variable {p : Ptr}

/-- `append(ptr, off, len)` adds a node, or extends the last one. -/
theorem pushRange_cases {ys : List Node} {off len : ℕ} (h : pushRange id xs p off len = some ys) :
    (∃ q, ys = xs ++ [⟨id, q⟩]) ∨ ∃ as b b', xs = as ++ [b] ∧ ys = as ++ [b'] ∧ b'.id = b.id := by
  have hnew : ∀ {zs}, ((p.sub off len).map fun q => xs ++ [⟨id, q⟩]) = some zs → ∃ q, zs = xs ++ [⟨id, q⟩] := by
    intro zs hzs
    obtain ⟨q, -, hq⟩ := map_eq_some_iff.mp hzs
    exact ⟨q, hq.symm⟩
  obtain ⟨-, h⟩ := ite_none_right_eq_some.mp h
  cases hlast : xs.getLast? with
  | none =>
    rw [hlast] at h
    exact .inl (hnew h)
  | some b =>
    rw [hlast] at h
    simp only at h
    by_cases hc : b.ptr.raw = p.raw ∧ b.ptr.stop = u32 (p.off + off)
    · rw [if_pos hc] at h
      obtain ⟨as, rfl⟩ := getLast?_eq_some_iff.mp hlast
      rw [dropLast_concat] at h
      exact .inr ⟨as, b, _, rfl, (some.inj h).symm, rfl⟩
    · rw [if_neg hc] at h
      exact .inl (hnew h)

/-- A list after `append(ptr, off, len)`, from a good pointer. -/
structure Pushed (s : State n) (i : Fin n) (len : ℕ) (t : State n) : Prop where
  wf : WF t
  tracked : Tracked t
  nodes : ∀ j, j ≠ i → t.nodes j = s.nodes j
  last : ∀ j, (t.lists j).lastP = (s.lists j).lastP
  total : total (t.nodes i) = total (s.nodes i) + len
  grows : ∀ x ∈ s.nodes i, ∃ x' ∈ t.nodes i, x'.id = x.id ∧ x.ptr.len ≤ x'.ptr.len

theorem appendRange_pushed {off len : ℕ} (hwf : WF s) (h : Tracked s)
    (hp : s.Good p) (hle : off + len ≤ p.len) (ht : appendRange s i p off len = some t) : Pushed s i len t := by
  obtain ⟨ys, hys, hgood, hbytes, htotal⟩ := appendRange_spec (i := i) hwf hp hle
  obtain ⟨zs, hzs, hform⟩ := map_eq_some_iff.mp ht
  have hzy : zs = ys := by
    have heq : withNodes s i zs (u32 ((s.lists i).len + len)) (s.next + 1) =
      withNodes s i ys (u32 ((s.lists i).len + len)) (s.next + 1) := hform.trans (some.inj (ht.symm.trans hys))
    have hnodes := congrArg (fun u => State.nodes u i) heq
    simpa only [nodes_withNodes_self] using hnodes
  subst hzy
  have hteq : t = withNodes s i zs (u32 ((s.lists i).len + len)) (s.next + 1) := hform.symm
  subst hteq
  refine ⟨?_, ?_, fun j hj => nodes_withNodes_of_ne hj, lastP_withNodes s i _ _ _, ?_, ?_⟩
  · refine hwf.withNodes hgood ?_
    have hl : (s.lists i).len = u32 (total (s.nodes i)) := hwf.len i
    rw [hl, u32_add_u32, htotal]
  · rcases pushRange_cases hzs with ⟨q, rfl⟩ | ⟨as, b, b', hxs, rfl, hid⟩
    · exact h.withNodes (own_append h.ids i [q]) ((h.cached i).append _)
    · have hlen : b.ptr.len ≤ b'.ptr.len := by
        rw [hxs, total_append, total_append, total_cons, total_cons] at htotal
        omega
      refine h.withNodes ⟨?_, ?_, ?_, Nat.le_succ _⟩ ?_
      · have hnodup := h.ids.nodup i
        rw [hxs, map_append, map_cons, map_nil] at hnodup
        rwa [map_append, map_cons, map_nil, hid]
      · intro x hx
        rcases mem_append.mp hx with hx | hx
        · exact .inl ⟨x, by rw [hxs]; exact mem_append_left _ hx, rfl⟩
        · rw [mem_singleton.mp hx]
          exact .inl ⟨b, by rw [hxs]; exact mem_append_right _ mem_cons_self, hid.symm⟩
      · intro x hx
        refine Nat.lt_succ_of_lt ?_
        rcases mem_append.mp hx with hx | hx
        · exact h.ids.lt i x (by rw [hxs]; exact mem_append_left _ hx)
        · rw [mem_singleton.mp hx, hid]
          exact h.ids.lt i b (by rw [hxs]; exact mem_append_right _ mem_cons_self)
      · exact Cached.extend (hxs ▸ h.cached i) hid hlen
  · rw [nodes_withNodes_self, htotal]
  · intro x hx
    rw [nodes_withNodes_self]
    rcases pushRange_cases hzs with ⟨q, rfl⟩ | ⟨as, b, b', hxs, rfl, hid⟩
    · exact ⟨x, mem_append_left _ hx, rfl, le_refl _⟩
    · rw [hxs] at hx
      rcases mem_append.mp hx with hx | hx
      · exact ⟨x, mem_append_left _ hx, rfl, le_refl _⟩
      · refine ⟨b', mem_append_right _ mem_cons_self, ?_, ?_⟩
        · rw [mem_singleton.mp hx, hid]
        · rw [mem_singleton.mp hx]
          rw [hxs, total_append, total_append, total_cons, total_cons] at htotal
          omega

section append

variable {s : State n} {i : Fin n}

theorem tracked_fillBuffer (h : Tracked s) (r l : ℕ) (d : Bytes) : Tracked (fillBuffer s i r l d) := by
  refine h.congr nodes_fillBuffer (fun j => ?_) le_rfl
  rw [lists_fillBuffer]
  by_cases hj : j = i
  · rw [if_pos hj, hj]
  · rw [if_neg hj]

theorem tracked_newAppendBuffer (h : Tracked s) (m : Machine) (len : ℕ) : Tracked (newAppendBuffer m s i len) := by
  refine h.congr (nodes_newAppendBuffer m len) (fun j => ?_) le_rfl
  simp only [newAppendBuffer, State.set, update_apply]
  by_cases hj : j = i
  · rw [if_pos hj, hj]
  · rw [if_neg hj]

theorem tracked_fillGap (hwf : WF s) (h : Tracked s) {data : Bytes} {r : State n × Bytes}
    (hr : fillGap s i data = some r) : WF r.1 ∧ Tracked r.1 := by
  by_cases hgap : gap s i = 0
  · rw [fillGap_zero hgap] at hr
    cases hr
    exact ⟨hwf, h⟩
  · obtain ⟨k, l, b, d, hab, hb, hd, hfit, hlt⟩ := gap_cases hwf hgap data
    rw [fillGap_eq hab hgap hd hlt] at hr
    obtain ⟨t, ht, rfl⟩ := map_eq_some_iff.mp hr
    have hpush := appendRange_pushed (hwf.fillBuffer hab hb hfit) (tracked_fillBuffer h k l d)
      (good_filled hab hb hfit hwf) (le_refl (l + d.length)) ht
    exact ⟨hpush.wf, hpush.tracked⟩

theorem tracked_appendLoop (m : Machine) : ∀ (k : ℕ) {s t : State n} {data : Bytes}, WF s → Tracked s →
    appendLoop m k s i data = some t → Tracked t
  | 0, s, t, data, hwf, h, ht => by
    obtain ⟨-, ⟨⟩⟩ := ite_none_right_eq_some.mp ht
    exact h
  | k + 1, s, t, data, hwf, h, ht => by
    rw [appendLoop] at ht
    by_cases hd : data = []
    · rw [if_pos hd] at ht
      cases ht
      exact h
    · rw [if_neg hd] at ht
      obtain ⟨r, hr, ht⟩ := bind_eq_some_iff.mp ht
      obtain ⟨hwf', h'⟩ := tracked_fillGap hwf h hr
      by_cases hd' : r.2 = []
      · rw [if_pos hd'] at ht
        cases ht
        exact h'
      · rw [if_neg hd'] at ht
        exact tracked_appendLoop m k (hwf'.newAppendBuffer m _) (tracked_newAppendBuffer h' m _) ht

end append

/-! ### Moves -/

section move

variable {s : State n} {i j : Fin n}

theorem tracked_clear (h : Tracked s) (hi : Home s i) : Tracked (clear s i) :=
  h.withNodes ⟨nodup_nil, nofun, nofun, le_refl _⟩ (.inl hi)

theorem home_clear (hj : Home s j) : Home (clear s i) j := by
  have hform : clear s i = withNodes s i [] 0 s.next := rfl
  rw [Home, hform, lastP_withNodes]
  exact hj

/-- The nodes of `j` are now at the end of `i`. -/
theorem nodes_claimAppend {t : State n} (hij : i ≠ j) (ht : claimAppend s i j = some t) (k : Fin n) :
    t.next = s.next ∧ (t.lists k).lastP = (s.lists k).lastP ∧
      t.nodes k = (if k = i then s.nodes i ++ s.nodes j else if k = j then [] else s.nodes k) := by
  rw [claimAppend, if_neg hij] at ht
  cases ht
  refine ⟨rfl, ?_⟩
  simp only [State.nodes, State.set, update_apply]
  by_cases hj : k = j
  · rw [if_pos hj, if_neg (fun hi => hij (hi.symm.trans hj)), if_pos hj, hj]
    exact ⟨rfl, rfl⟩
  · by_cases hi : k = i
    · rw [if_neg hj, if_pos hi, if_pos hi, hi]
      exact ⟨rfl, rfl⟩
    · rw [if_neg hj, if_neg hi, if_neg hi, if_neg hj]
      exact ⟨rfl, rfl⟩

theorem tracked_claimAppend {t : State n} (h : Tracked s) (hij : i ≠ j) (hj : Home s j)
    (ht : claimAppend s i j = some t) : Tracked t := by
  have hnodes := nodes_claimAppend hij ht
  -- where a node came from says where it is now
  have horig : ∀ k, ∀ x ∈ t.nodes k, ∃ o, x ∈ s.nodes o ∧ k = if o = j then i else o := by
    intro k x hx
    rw [(hnodes k).2.2] at hx
    by_cases hki : k = i
    · rw [if_pos hki] at hx
      rcases mem_append.mp hx with hx | hx
      · exact ⟨i, hx, by rw [if_neg hij, hki]⟩
      · exact ⟨j, hx, by rw [if_pos rfl, hki]⟩
    · rw [if_neg hki] at hx
      by_cases hkj : k = j
      · rw [if_pos hkj] at hx
        nomatch hx
      · rw [if_neg hkj] at hx
        exact ⟨k, hx, by rw [if_neg hkj]⟩
  refine ⟨⟨fun k => ?_, ?_, ?_⟩, fun k => ?_⟩
  · rw [(hnodes k).2.2]
    by_cases hki : k = i
    · rw [if_pos hki, map_append, nodup_append]
      refine ⟨h.ids.nodup i, h.ids.nodup j, ?_⟩
      intro a ha b hb hab
      obtain ⟨x, hx, rfl⟩ := mem_map.mp ha
      obtain ⟨y, hy, rfl⟩ := mem_map.mp hb
      exact hij (h.ids.apart i j x hx y hy hab)
    · rw [if_neg hki]
      by_cases hkj : k = j
      · rw [if_pos hkj]
        exact nodup_nil
      · rw [if_neg hkj]
        exact h.ids.nodup k
  · intro k l x hx y hy hid
    obtain ⟨o, ho, hk⟩ := horig k x hx
    obtain ⟨o', ho', hl⟩ := horig l y hy
    rw [hk, hl, h.ids.apart o o' x ho y ho' hid]
  · intro k x hx
    obtain ⟨o, ho, -⟩ := horig k x hx
    rw [(hnodes k).1]
    exact h.ids.lt o x ho
  · rw [(hnodes k).2.2, (hnodes k).2.1]
    by_cases hki : k = i
    · rw [if_pos hki, hki]
      exact (h.cached i).append _
    · rw [if_neg hki]
      by_cases hkj : k = j
      · rw [hkj]
        exact .inl hj
      · rw [if_neg hkj]
        exact h.cached k

theorem tracked_swap (h : Tracked s) (hh : i = j ∨ Home s i ∧ Home s j) : Tracked (swap s i j) := by
  have hnodes : ∀ k, (swap s i j).nodes k = s.nodes (Equiv.swap i j k) := by
    intro k
    rw [State.nodes, lists_swap, State.nodes]
  have hlast : ∀ k, ((swap s i j).lists k).lastP = (s.lists k).lastP := by
    intro k
    rw [lists_swap]
  refine ⟨⟨fun k => ?_, ?_, ?_⟩, fun k => ?_⟩
  · rw [hnodes]
    exact h.ids.nodup _
  · intro k l x hx y hy hid
    rw [hnodes] at hx hy
    exact (Equiv.swap i j).injective (h.ids.apart _ _ x hx y hy hid)
  · intro k x hx
    rw [hnodes] at hx
    exact h.ids.lt _ x hx
  · rw [hnodes, hlast]
    rcases hh with rfl | ⟨hi, hj⟩
    · rw [Equiv.swap_self]
      exact h.cached k
    · by_cases hki : k = i
      · rw [hki]
        exact .inl hi
      · by_cases hkj : k = j
        · rw [hkj]
          exact .inl hj
        · rw [Equiv.swap_apply_of_ne_of_ne hki hkj]
          exact h.cached k

theorem tracked_assign (h : Tracked s) (hh : i = j ∨ Home s i) : Tracked (assign s i j) := by
  by_cases hij : i = j
  · rw [assign, if_pos hij]
    exact h
  · rw [assign_of_ne hij]
    refine h.withNodes ⟨?_, fun x hx => .inr (mem_mkNodes hx).1, fun x hx => ?_, Nat.le_add_right _ _⟩
      (.inl (hh.resolve_left hij))
    swap
    · simpa using (mem_mkNodes hx).2
    rw [ids_mkNodes]
    exact nodup_range'

theorem tracked_rebuild {m : Machine} {t : State n} (h : Tracked s) (hi : Home s i) (ht : rebuild m s i = some t) :
    Tracked t := by
  obtain ⟨nb, -, rfl⟩ := map_eq_some_iff.mp ht
  have hx : Own s i [⟨s.next, ⟨some s.raws.length, 0, (s.lists i).len⟩⟩] (s.next + 1) := by
    refine ⟨nodup_singleton _, fun x hx => .inr ?_, fun x hx => ?_, Nat.le_succ _⟩
    · rw [mem_singleton.mp hx]
    · rw [mem_singleton.mp hx]
      exact Nat.lt_succ_self _
  have hw : Tracked (withNodes s i _ (s.lists i).len (s.next + 1)) := h.withNodes hx (.inl hi)
  exact hw.congr (fun _ => rfl) (fun _ => rfl) le_rfl

theorem tracked_cStr {m : Machine} {r : State n × Ptr} (h : Tracked s) (hi : (s.nodes i).length ≤ 1 ∨ Home s i)
    (hr : cStr m s i = some r) : Tracked r.1 := by
  rcases hxs : s.nodes i with _ | ⟨x, _ | ⟨y, ys⟩⟩
  · simp only [cStr, hxs] at hr
    cases hr
    exact h
  · simp only [cStr, hxs] at hr
    obtain ⟨-, ⟨⟩⟩ := ite_none_right_eq_some.mp hr
    exact h
  · have hhome : Home s i := by
      refine hi.resolve_left fun hle => ?_
      rw [hxs, length_cons, length_cons] at hle
      omega
    simp only [cStr, hxs] at hr
    obtain ⟨t, ht, hr⟩ := bind_eq_some_iff.mp hr
    obtain ⟨z, -, rfl⟩ := map_eq_some_iff.mp hr
    exact tracked_rebuild h hhome ht

end move

/-! ### Cuts -/

section cut

variable {s : State n} {i : Fin n}

/-- Some of the nodes of `i` stay, each with a part of its bytes. -/
theorem own_sublist (h : Ids s) {xs : List Node}
    (hsub : (xs.map (·.id)).Sublist ((s.nodes i).map (·.id))) : Own s i xs s.next := by
  have hmem : ∀ x ∈ xs, ∃ y ∈ s.nodes i, y.id = x.id := by
    intro x hx
    exact mem_map.mp (hsub.subset (mem_map.mpr ⟨x, hx, rfl⟩))
  refine ⟨(h.nodup i).sublist hsub, fun x hx => .inl (hmem x hx), fun x hx => ?_, le_refl _⟩
  obtain ⟨y, hy, hid⟩ := hmem x hx
  rw [← hid]
  exact h.lt i y hy

theorem tracked_setNodes (h : Tracked s) {xs : List Node} (gone : ℕ)
    (hsub : (xs.map (·.id)).Sublist ((s.nodes i).map (·.id))) (hc : Cached i xs (s.lists i).lastP) :
    Tracked (setNodes s i xs gone) :=
  h.withNodes (own_sublist h.ids hsub) hc

variable {claimBy : Option (Fin n)}

theorem tracked_claimPart {t : State n} (hwf : WF s) (h : Tracked s)
    (hi : claimBy ≠ some i) {p : Ptr} (hp : s.Good p) {off len : ℕ} (hle : off + len ≤ p.len)
    (ht : claimPart s claimBy p off len = some t) :
    WF t ∧ Tracked t ∧ t.nodes i = s.nodes i ∧ (t.lists i).lastP = (s.lists i).lastP := by
  cases claimBy with
  | none =>
    cases ht
    exact ⟨hwf, h, rfl, rfl⟩
  | some j =>
    have hij : i ≠ j := fun he => hi (congrArg some he.symm)
    have hpush := appendRange_pushed hwf h hp hle ht
    exact ⟨hpush.wf, hpush.tracked, hpush.nodes i hij, hpush.last i⟩

variable {x : Node}

/-- The round of `splice` that cuts the first bytes off a segment. -/
theorem tracked_cut (hi : claimBy ≠ some i) {pre rest : List Node}
    {t : State n} {fuel off len : ℕ} (hwf : WF s) (h : Tracked s) (hnodes : s.nodes i = pre ++ x :: rest)
    (hlen : 0 < len) (hpart : off + len < x.ptr.len)
    (hc : ∀ p, Cached i (pre ++ ⟨x.id, p⟩ :: rest) (s.lists i).lastP)
    (ht : spliceLoop claimBy i pre.length (fuel + 1) s off len = some t) : Tracked t := by
  have hx : s.Good x.ptr := (hwf.split hnodes).2 x mem_cons_self
  have hxlt := hx.lt hwf
  rw [spliceLoop, if_neg (ne_of_gt hlen), (segment_at hnodes).1, bind_some, u32_eq (by omega), if_pos hpart] at ht
  obtain ⟨u, hu, rfl⟩ := map_eq_some_iff.mp ht
  obtain ⟨-, htu, hun, hul⟩ := tracked_claimPart hwf h hi hx (le_of_lt hpart) hu
  rw [hun, hnodes, set_append_right _ _ (Nat.le_refl _), Nat.sub_self, set_cons_zero]
  refine tracked_setNodes htu _ ?_ ?_
  · rw [hun, hnodes, map_append, map_append, map_cons, map_cons]
  · rw [hul]
    exact hc _

/-- The rounds of `splice` leave alone a position in the nodes before. -/
theorem tracked_spliceLoop (hi : claimBy ≠ some i) (pre : List Node) :
    ∀ (rest : List Node) (s t : State n) (fuel off len : ℕ), WF s → Tracked s → s.nodes i = pre ++ rest →
    (off = 0 ∨ 0 < len ∧ ∃ x ys, rest = x :: ys ∧ off < x.ptr.len) → off + len ≤ total rest → off + len < 2 ^ 32 →
    Cached i pre (s.lists i).lastP → spliceLoop claimBy i pre.length fuel s off len = some t → Tracked t
  | rest, s, t, fuel, off, 0, hwf, h, hnodes, hin, hle, hlt, hc, ht => by
    have hts : t = s := by
      cases fuel <;> exact (some.inj ht).symm
    rw [hts]
    exact h
  | [], s, t, fuel, off, len + 1, hwf, h, hnodes, hin, hle, hlt, hc, ht => by
    rw [total_nil] at hle
    omega
  | x :: rest, s, t, 0, off, len + 1, hwf, h, hnodes, hin, hle, hlt, hc, ht => nomatch ht
  | x :: rest, s, t, fuel + 1, off, len + 1, hwf, h, hnodes, hin, hle, hlt, hc, ht => by
    by_cases hpart : off + (len + 1) < x.ptr.len
    · exact tracked_cut hi hwf h hnodes (Nat.succ_pos len) hpart (fun p => hc.append _) ht
    · have hx : s.Good x.ptr := (hwf.split hnodes).2 x mem_cons_self
      have hoff := le_of_inside (hin.imp_right And.right)
      rw [total_cons] at hle
      obtain ⟨hfit, h1, h2⟩ := past_segment hoff hpart (hx.lt hwf) hlt
      rw [spliceLoop, if_neg (Nat.succ_ne_zero len), (segment_at hnodes).1, bind_some, u32_eq hlt, if_neg hpart] at ht
      simp only [h1, h2] at ht
      obtain ⟨u, hu, ht⟩ := bind_eq_some_iff.mp ht
      obtain ⟨hwfu, htu, hun, hul⟩ := tracked_claimPart hwf h hi hx hfit hu
      rw [(segment_at (hun.trans hnodes)).2] at ht
      obtain ⟨hpre, hxs⟩ := hwfu.split (hun.trans hnodes)
      have hgood : u.GoodNodes (pre ++ rest) := hpre.append (forall_mem_cons.mp hxs).2
      have htotal : total (u.nodes i) = total (pre ++ rest) + x.ptr.len := by
        rw [hun, hnodes, total_append, total_append, total_cons]
        omega
      obtain ⟨hwf', -⟩ := setNodes_spec (i := i) hwfu x.ptr.len hgood htotal (by omega)
      have hc' : Cached i pre (u.lists i).lastP := by
        rw [hul]
        exact hc
      have htr : Tracked (setNodes u i (pre ++ rest) x.ptr.len) := by
        refine tracked_setNodes htu _ ?_ (hc'.append rest)
        rw [hun, hnodes, map_append, map_append, map_cons]
        exact (sublist_cons_self _ _).append_left _
      have hlast : ((setNodes u i (pre ++ rest) x.ptr.len).lists i).lastP = (u.lists i).lastP :=
        lastP_withNodes u i _ _ u.next i
      exact tracked_spliceLoop hi pre rest _ t fuel 0 _ hwf' htr nodes_withNodes_self (.inl rfl) (by omega) (by omega)
        (by rw [hlast]; exact hc') ht

/-- Where `splice` leaves the cached position alone: before the segment that `off`
is in, or at the first byte that goes if its segment stays. -/
def SpliceSafe (s : State n) (i : Fin n) (off len : ℕ) : Prop :=
  Home s i ∨ ∃ w ∈ (skip (s.nodes i) off).toList,
    (∃ x ∈ w.1, (s.lists i).lastP.p = .node x.id) ∨
      w.2.2 = 0 ∧ (s.lists i).lastP.pOff = 0 ∧
        ∃ x ∈ w.2.1.take 1, (s.lists i).lastP.p = .node x.id ∧ len < x.ptr.len

/-- A position in the nodes before a cut. -/
theorem cached_before {pre rest : List Node} {it : Iter n} (hnodup : ((pre ++ rest).map (·.id)).Nodup)
    (h : Cached i (pre ++ rest) it) (hx : x ∈ pre) (hp : it.p = .node x.id) : Cached i pre it := by
  rcases h with h | ⟨hlt, p0, y, ys, hskip, hy⟩
  · rw [hp] at h
    cases h
  · have hid : x.id = y.id := Pos.node.inj (hp.symm.trans hy)
    have hsplit := (skip_stop hskip).split
    -- `y` cannot be in `rest`, for it is the node `x`
    have hout : y ∉ rest := by
      intro hmem
      rw [map_append] at hnodup
      exact (nodup_append.mp hnodup).2.2 x.id (mem_map.mpr ⟨x, hx, rfl⟩) y.id
        (mem_map.mpr ⟨y, hmem, rfl⟩) hid
    rcases append_eq_append_iff.mp hsplit with ⟨a, -, hrest⟩ | ⟨c, hpre, hrest⟩
    · refine absurd ?_ hout
      rw [hrest]
      exact mem_append_right _ mem_cons_self
    · cases c with
      | nil =>
        refine absurd ?_ hout
        rw [← nil_append rest, ← hrest]
        exact mem_cons_self
      | cons z c =>
        obtain ⟨hzy, hys⟩ := cons.inj hrest
        subst hzy hpre
        rw [append_assoc, cons_append, hys] at hskip
        exact .inr ⟨hlt, p0, y, c, skip_head c hskip, hy⟩

theorem tracked_splice {t : State n} (hwf : WF s) (h : Tracked s) (hi : claimBy ≠ some i)
    {off len : ℕ} (hle : off + len ≤ total (s.nodes i)) (hlt : off + len < 2 ^ 32) (hsafe : SpliceSafe s i off len)
    (ht : splice s i off len claimBy = some t) : Tracked t := by
  simp only [splice] at ht
  obtain ⟨⟨-, hlen⟩, ht⟩ := ite_none_right_eq_some.mp ht
  obtain ⟨⟨pre, rest, r⟩, hskip, ht⟩ := bind_eq_some_iff.mp ht
  have hstop := skip_stop hskip
  have hsum : total (s.nodes i) = total pre + total rest := by rw [hstop.split, total_append]
  have hoff := hstop.off
  have hcases : Cached i pre (s.lists i).lastP ∨ r = 0 ∧ (s.lists i).lastP.pOff = 0 ∧
      ∃ x ys, rest = x :: ys ∧ (s.lists i).lastP.p = .node x.id ∧ len < x.ptr.len := by
    rcases hsafe with hh | ⟨w, hw, hsafe⟩
    · exact .inl (.inl hh)
    · rw [hskip] at hw
      rw [mem_toList.mp hw |> some.inj |>.symm] at hsafe
      rcases hsafe with ⟨x, hx, hp⟩ | ⟨hr, hpOff, x, hx, hp, hlenx⟩
      · have hc := h.cached i
        have hnodup := h.ids.nodup i
        rw [hstop.split] at hc hnodup
        exact .inl (cached_before hnodup hc hx hp)
      · refine .inr ⟨hr, hpOff, ?_⟩
        cases rest with
        | nil => cases hx
        | cons y ys =>
          rw [mem_singleton.mp hx] at hp hlenx
          exact ⟨y, ys, rfl, hp, hlenx⟩
  rcases hcases with hc | ⟨hr, hpOff, x, ys, hrest, hp, hlenx⟩
  · by_cases hr : r = 0
    · simp only [if_pos hr] at ht
      exact tracked_spliceLoop hi pre rest s t _ 0 len hwf h hstop.split (.inl rfl) (by omega) (by omega) hc ht
    · simp only [if_neg hr] at ht
      obtain ⟨x, ys, rfl, hrx⟩ := hstop.inside.resolve_left hr
      have hx : s.Good x.ptr := (hwf.split hstop.split).2 x mem_cons_self
      have hfit : 0 + r ≤ x.ptr.len := by omega
      rw [head?_cons, bind_some, hx.sub_eq hwf hfit, bind_some] at ht
      obtain ⟨f, hf⟩ : ∃ f : Node, f = ⟨s.next, ⟨x.ptr.raw, x.ptr.off + 0, r⟩⟩ := ⟨_, rfl⟩
      have hids : ∀ y ∈ pre ++ x :: ys, y ∈ s.nodes i := fun y hy => by rwa [hstop.split]
      have hperm : (pre ++ f :: x :: ys).Perm (f :: (pre ++ x :: ys)) := perm_middle
      have hown : Own s i (pre ++ f :: x :: ys) (s.next + 1) := by
        refine ⟨?_, fun y hy => ?_, fun y hy => ?_, Nat.le_succ _⟩
        · rw [(hperm.map _).nodup_iff, map_cons, nodup_cons, ← hstop.split]
          refine ⟨fun hmem => ?_, h.ids.nodup i⟩
          obtain ⟨y, hy, hyid⟩ := mem_map.mp hmem
          have hylt := h.ids.lt i y hy
          rw [hyid, hf] at hylt
          exact lt_irrefl _ hylt
        · rcases mem_cons.mp (hperm.mem_iff.mp hy) with rfl | hy
          · exact .inr (by rw [hf])
          · exact .inl ⟨y, hids y hy, rfl⟩
        · rcases mem_cons.mp (hperm.mem_iff.mp hy) with rfl | hy
          · rw [hf]
            exact Nat.lt_succ_self _
          · exact Nat.lt_succ_of_lt (h.ids.lt i y (hids y hy))
      have hgood : s.GoodNodes (pre ++ f :: x :: ys) := by
        intro y hy
        rcases mem_cons.mp (hperm.mem_iff.mp hy) with rfl | hy
        · rw [hf]
          exact hx.sub hfit
        · exact hwf.goodNodes i y (hids y hy)
      have htot : total (pre ++ f :: x :: ys) = total (s.nodes i) + r := by
        rw [total_append, total_cons, hf, hsum]
        show total pre + (r + total (x :: ys)) = _
        omega
      have hwf0 : WF (withNodes s i (pre ++ f :: x :: ys) (u32 ((s.lists i).len + r)) (s.next + 1)) := by
        refine hwf.withNodes hgood ?_
        have hl : (s.lists i).len = u32 (total (s.nodes i)) := hwf.len i
        rw [hl, u32_add_u32, htot]
      have htr0 : Tracked (withNodes s i (pre ++ f :: x :: ys) (u32 ((s.lists i).len + r)) (s.next + 1)) :=
        h.withNodes hown (hc.append _)
      have hsplit : pre ++ f :: x :: ys = (pre ++ [f]) ++ x :: ys := by
        rw [append_assoc]
        rfl
      refine tracked_spliceLoop hi (pre ++ [f]) (x :: ys) _ t ((len + 1) * ((s.nodes i).length + 1)) r len hwf0 htr0
        (nodes_withNodes_self.trans hsplit) (.inr ⟨hlen, x, ys, rfl, hrx⟩) (by omega) (by omega)
        (by rw [lastP_withNodes]; exact hc.append [f]) ?_
      rw [length_append, hf]
      exact ht
  · -- the position is at the first byte that goes
    subst hr hrest
    simp only [if_true] at ht
    have hfuel : (len + 1) * ((s.nodes i).length + 1) = (len + 1) * (s.nodes i).length + len + 1 := by
      rw [Nat.mul_succ]
      omega
    rw [hfuel] at ht
    refine tracked_cut hi hwf h hstop.split hlen (by omega) (fun p => ?_) ht
    rcases h.cached i with hh | ⟨hltc, p0, y, zs, hskipc, hy⟩
    · exact .inl hh
    · have hid : x.id = y.id := Pos.node.inj (hp.symm.trans hy)
      have hnodup := h.ids.nodup i
      have hsplit := (skip_stop hskipc).split
      -- the walk to the position has passed the same nodes
      have hpre : p0 = pre ∧ y :: zs = x :: ys := by
        have h1 := dropWhile_ne (hsplit ▸ hnodup)
        have h2 := dropWhile_ne (hstop.split ▸ hnodup)
        rw [← hsplit, ← hid] at h1
        rw [← hstop.split] at h2
        have htail := h1.symm.trans h2
        refine ⟨?_, htail⟩
        have happ := hsplit.symm.trans hstop.split
        rw [htail] at happ
        exact append_cancel_right happ
      rw [hpre.1, hpre.2, hpOff] at hskipc
      rw [hstop.split] at hskipc
      exact .inr ⟨hltc, pre, ⟨x.id, p⟩, ys, by rw [hpOff]; exact skip_congr _ hskipc, hp⟩

end cut

/-! ### Operations -/

/-- What an operation asks of the cached positions of its lists. -/
def Settled (s : State n) : Op n → Prop
  | .clear i => Home s i
  | .rebuild i => Home s i
  | .cStr i => (s.nodes i).length ≤ 1 ∨ Home s i
  | .claim i j => Home s i ∧ Home s j
  | .claimAppend _ j => Home s j
  | .swap i j => i = j ∨ Home s i ∧ Home s j
  | .assign i j => i = j ∨ Home s i
  | .substrOf i _ _ _ => Home s i
  | .splice i off len _ => SpliceSafe s i off len
  | _ => True

variable {m : Machine}

theorem tracked_apply {op : Op n} {out : Bytes} (hwf : WF s) (hs : (abs s).Small)
    (h : Tracked s) (hop : (spec m (abs s) op).isSome) (hset : Settled s op) (ht : apply m s op = some (t, out)) :
    Tracked t := by
  obtain ⟨⟨a', out'⟩, hspec⟩ := isSome_iff_exists.mp hop
  cases op with
  | create data =>
    cases ht
    exact h.congr (fun _ => rfl) (fun _ => rfl) le_rfl
  | sub k o l =>
    obtain ⟨p, -, ht⟩ := bind_eq_some_iff.mp ht
    obtain ⟨q, -, heq⟩ := map_eq_some_iff.mp ht
    cases heq
    exact h.congr (fun _ => rfl) (fun _ => rfl) le_rfl
  | append i data =>
    obtain ⟨u, hu, ⟨⟩⟩ := map_eq_some_iff.mp ht
    exact tracked_appendLoop m 2 hwf h hu
  | appendPtr i k =>
    obtain ⟨p, -, heq⟩ := map_eq_some_iff.mp ht
    cases heq
    exact h.appendPtrs i [p] p.len
  | appendRange i k off len =>
    obtain ⟨b, hb, hspec⟩ := bind_eq_some_iff.mp hspec
    obtain ⟨p, hp, hgood, rfl⟩ := held_spec hwf hb
    rw [hgood.length_bytes] at hspec
    obtain ⟨hle, -⟩ := ite_none_right_eq_some.mp hspec
    rw [apply, hp, bind_some] at ht
    obtain ⟨u, hu, ⟨⟩⟩ := map_eq_some_iff.mp ht
    exact (appendRange_pushed hwf h hgood hle hu).tracked
  | appendList i j =>
    obtain ⟨u, hu, heq⟩ := map_eq_some_iff.mp ht
    obtain ⟨-, hu⟩ := ite_none_left_eq_some.mp hu
    cases heq
    cases hu
    exact h.appendPtrs i _ _
  | appendZero i len =>
    cases ht
    have hraw : Tracked (addRaw s (replicate len 0)) := h.congr (fun _ => rfl) (fun _ => rfl) le_rfl
    exact hraw.appendPtrs i _ _
  | clear i =>
    cases ht
    exact tracked_clear h hset
  | claim i j =>
    obtain ⟨hij, -⟩ := ite_none_right_eq_some.mp hspec
    obtain ⟨u, hu, ⟨⟩⟩ := map_eq_some_iff.mp ht
    exact tracked_claimAppend (tracked_clear h hset.1) hij (home_clear hset.2) hu
  | claimAppend i j =>
    obtain ⟨hij, -⟩ := ite_none_right_eq_some.mp hspec
    obtain ⟨u, hu, ⟨⟩⟩ := map_eq_some_iff.mp ht
    exact tracked_claimAppend h hij hset hu
  | swap i j =>
    cases ht
    exact tracked_swap h hset
  | assign i j =>
    cases ht
    exact tracked_assign h hset
  | substrOf i j off len =>
    obtain ⟨u, hu, heq⟩ := map_eq_some_iff.mp ht
    obtain ⟨-, hu⟩ := ite_none_right_eq_some.mp hu
    obtain ⟨w, -, hu⟩ := bind_eq_some_iff.mp hu
    obtain ⟨qs, -, hu⟩ := map_eq_some_iff.mp hu
    cases heq
    rw [← hu]
    exact (tracked_clear h hset).appendPtrs i qs _
  | splice i off len claimBy =>
    obtain ⟨⟨hle, -⟩, hspec⟩ := ite_none_right_eq_some.mp hspec
    have hclaim : claimBy ≠ some i := by
      rintro rfl
      obtain ⟨hne, -⟩ := ite_none_right_eq_some.mp hspec
      exact hne rfl
    have hlt : (s.content i).length < 2 ^ 32 := hs i
    have hle' : off + len ≤ total (s.nodes i) := hle.trans_eq (hwf.length_content i)
    obtain ⟨u, hu, ⟨⟩⟩ := map_eq_some_iff.mp ht
    exact tracked_splice hwf h hclaim hle' (lt_of_le_of_lt hle hlt) hset hu
  | rebuild i =>
    obtain ⟨u, hu, ⟨⟩⟩ := map_eq_some_iff.mp ht
    exact tracked_rebuild h hset hu
  | cStr i =>
    obtain ⟨r, hr, ⟨⟩⟩ := map_eq_some_iff.mp ht
    exact tracked_cStr h hset hr
  | getByte i k =>
    obtain ⟨b, -, heq⟩ := map_eq_some_iff.mp ht
    cases heq
    exact h

/-! ### Copies -/

/-- A pool in which lists are byte strings and the cached positions are sound. -/
structure Sound (s : State n) : Prop where
  wf : WF s
  small : ∀ i, total (s.nodes i) < 2 ^ 32
  tracked : Tracked s

theorem Sound.abs_small (h : Sound s) : (abs s).Small := by
  intro i
  show (s.content i).length < 2 ^ 32
  rw [h.wf.length_content i]
  exact h.small i

section copy

variable {s : State n} {i : Fin n}

theorem setLastP_lists (s : State n) (i : Fin n) (it : Iter n) (j : Fin n) :
    (setLastP s i it).lists j = if j = i then { s.lists i with lastP := it } else s.lists j :=
  update_apply s.lists i _ j

theorem nodes_setLastP (s : State n) (i : Fin n) (it : Iter n) (j : Fin n) :
    (setLastP s i it).nodes j = s.nodes j := by
  rw [State.nodes, setLastP_lists]
  by_cases hj : j = i
  · rw [if_pos hj, hj, State.nodes]
  · rw [if_neg hj, State.nodes]

theorem appendBuffer_setLastP (s : State n) (i : Fin n) (it : Iter n) (j : Fin n) :
    (setLastP s i it).appendBuffer j = s.appendBuffer j := by
  rw [appendBuffer, setLastP_lists]
  by_cases hj : j = i
  · rw [if_pos hj, hj, appendBuffer]
  · rw [if_neg hj, appendBuffer]

variable {t : State n}

theorem WF.congr (h : WF s) (hraws : t.raws = s.raws) (hheld : t.held = s.held)
    (hnodes : ∀ j, t.nodes j = s.nodes j) (hlen : ∀ j, t.length j = s.length j)
    (hab : ∀ j, t.appendBuffer j = s.appendBuffer j) : WF t where
  small := by
    rw [hraws]
    exact h.small
  good p hp := by
    have hp' : s.Live p := by
      rcases hp with ⟨j, x, hx, hxp⟩ | hp
      · exact .inl ⟨j, x, by rwa [← hnodes], hxp⟩
      · exact .inr (by rwa [← hheld])
    refine ⟨by rw [hraws]; exact (h.good p hp').inside, fun j r hj => ?_⟩
    rw [hab] at hj ⊢
    exact (h.good p hp').used j r hj
  len j := by
    rw [hlen, hnodes]
    exact h.len j
  buffer j r hj := by
    rw [hab] at hj ⊢
    rw [hraws]
    exact h.buffer j r hj
  apart j k r hj hk := by
    rw [hab] at hj hk
    exact h.apart j k r hj hk

theorem Sound.setLastP (h : Sound s) {it : Iter n} (hc : Cached i (s.nodes i) it) : Sound (setLastP s i it) where
  wf := by
    refine h.wf.congr rfl rfl (nodes_setLastP s i it) (fun j => ?_) (appendBuffer_setLastP s i it)
    rw [State.length, setLastP_lists]
    by_cases hj : j = i
    · rw [if_pos hj, hj, State.length]
    · rw [if_neg hj, State.length]
  small j := by
    rw [nodes_setLastP]
    exact h.small j
  tracked :=
    { ids := h.tracked.ids.congr (nodes_setLastP s i it) le_rfl
      cached := fun j => by
        rw [nodes_setLastP, setLastP_lists]
        by_cases hj : j = i
        · rw [if_pos hj, hj]
          exact hc
        · rw [if_neg hj]
          exact h.tracked.cached j }

variable {o : ℕ}

theorem cached_position_of_skip {xs : List Node} {w : List Node × List Node × ℕ} (ho : o < 2 ^ 32)
    (h : skip xs o = some w) : Cached i xs ⟨o, position i w.2.1, w.2.2⟩ := by
  obtain ⟨pre, rest, r⟩ := w
  cases rest with
  | nil => exact .inl rfl
  | cons x ys => exact .inr ⟨ho, pre, x, ys, h, rfl⟩

theorem sound_seekLast (h : Sound s) (ht : seekLast s i o = some t) : Sound t := by
  obtain ⟨it, hit, rfl⟩ := map_eq_some_iff.mp ht
  rw [seek_eq h.tracked.ids] at hit
  obtain ⟨w, hw, rfl⟩ := map_eq_some_iff.mp hit
  exact h.setLastP (cached_position_of_skip (Nat.mod_lt _ (by decide)) hw)

/-- `advance` by bytes of the segment that the position is in. -/
theorem sound_advanceLast (h : Sound s) {q : Ptr} (hq : deref s (s.lists i).lastP.p = some q) {k : ℕ}
    (hk : (s.lists i).lastP.pOff + k ≤ q.len) (ht : advanceLast s i k = some t) : Sound t := by
  obtain ⟨it, hit, rfl⟩ := map_eq_some_iff.mp ht
  rcases h.tracked.cached i with hh | ⟨hlt, pre, x, ys, hskip, hp⟩
  · rw [hh] at hq
    cases hq
  · have hstop := skip_stop hskip
    have hoff := hstop.off
    have hsmall := h.small i
    rw [hstop.split, total_append, total_cons] at hsmall
    rw [hp, deref_eq h.tracked.ids hstop.split] at hq
    have hqx : x.ptr.len = q.len := congrArg Ptr.len (some.inj hq)
    have hit' : (s.lists i).lastP = ⟨(s.lists i).lastP.off, .node x.id, (s.lists i).lastP.pOff⟩ := by rw [← hp]
    rw [hit', advance_eq h.tracked.ids hstop.split, u32_eq (by omega), u32_eq (by omega)] at hit
    obtain ⟨w, hw, rfl⟩ := map_eq_some_iff.mp hit
    have hadd := skip_add k hskip
    rw [hw, map_some] at hadd
    have hc := cached_position_of_skip (i := i) (show (s.lists i).lastP.off + k < 2 ^ 32 by omega) hadd
    exact h.setLastP hc

theorem deref_of_mem (h : Ids s) {x : Node} (hx : x ∈ s.nodes i) : deref s (.node x.id) = some x.ptr := by
  obtain ⟨pre, ys, hsplit⟩ := append_of_mem hx
  exact deref_eq h hsplit

/-- What the loop of a copy needs from what it does with a part of a segment;
`room` is what it needs for the bytes that are left. -/
def Puts {α : Type} (put : State n → α → Ptr → ℕ → ℕ → Option (State n × α)) (i : Fin n)
    (room : ℕ → State n → Prop) : Prop :=
  (∀ len s it, room len s → room len (setLastP s i it)) ∧
    ∀ s a t b x len k, Sound s → room len s → x ∈ s.nodes i → (s.lists i).lastP.pOff + k ≤ x.ptr.len → k ≤ len →
      put s a x.ptr (s.lists i).lastP.pOff k = some (t, b) →
      Sound t ∧ room (len - k) t ∧ (t.lists i).lastP = (s.lists i).lastP ∧
        ∃ x' ∈ t.nodes i, x'.id = x.id ∧ x.ptr.len ≤ x'.ptr.len

section loop

variable {α : Type} {put : State n → α → Ptr → ℕ → ℕ → Option (State n × α)} {room : ℕ → State n → Prop}

theorem sound_copyLoop (hput : Puts put i room) : ∀ (fuel : ℕ) {s t : State n} {a b : α} {len : ℕ}, Sound s →
    room len s → copyLoop put i fuel s a len = some (t, b) → Sound t
  | 0, s, t, a, b, len, h, hroom, ht => by
    obtain ⟨-, ⟨⟩⟩ := ite_none_right_eq_some.mp ht
    exact h
  | fuel + 1, s, t, a, b, len, h, hroom, ht => by
    rw [copyLoop] at ht
    by_cases hz : len = 0
    · rw [if_pos hz] at ht
      cases ht
      exact h
    · rw [if_neg hz] at ht
      obtain ⟨p, hp, ht⟩ := bind_eq_some_iff.mp ht
      obtain ⟨⟨u, c⟩, hu, ht⟩ := bind_eq_some_iff.mp ht
      obtain ⟨v, hv, ht⟩ := bind_eq_some_iff.mp ht
      rcases h.tracked.cached i with hh | ⟨hlt, pre, x, ys, hskip, hpos⟩
      · rw [hh] at hp
        cases hp
      · have hstop := skip_stop hskip
        have hx : x ∈ s.nodes i := by
          rw [hstop.split]
          exact mem_append_right _ mem_cons_self
        have hlen := (h.wf.goodNodes i x hx).lt h.wf
        rw [hpos, deref_of_mem h.tracked.ids hx] at hp
        cases hp
        have hin : (s.lists i).lastP.pOff ≤ x.ptr.len := le_of_inside hstop.inside
        have husub : usub x.ptr.len (s.lists i).lastP.pOff = x.ptr.len - (s.lists i).lastP.pOff :=
          usub_eq hin (by omega)
        rw [husub] at hu hv ht
        obtain ⟨hsu, hroomu, hlast, x', hx', hid, hlen'⟩ :=
          hput.2 s a u c x len (min len (x.ptr.len - (s.lists i).lastP.pOff)) h hroom hx (by omega) (by omega) hu
        have hq : deref u (u.lists i).lastP.p = some x'.ptr := by
          rw [hlast, hpos, ← hid]
          exact deref_of_mem hsu.tracked.ids hx'
        have hsv := sound_advanceLast hsu hq (by rw [hlast]; omega) hv
        obtain ⟨it, -, rfl⟩ := map_eq_some_iff.mp hv
        exact sound_copyLoop hput fuel hsv (hput.1 _ u it hroomu) ht

theorem sound_iterCopy (hput : Puts put i room) {t : State n} {a b : α} {len : ℕ} (h : Sound s) (hroom : room len s)
    (ht : iterCopy put s i a len = some (t, b)) : Sound t := by
  simp only [iterCopy] at ht
  by_cases hh : (s.lists i).lastP.p = .fin i
  · rw [if_pos hh] at ht
    obtain ⟨u, hu, ht⟩ := bind_eq_some_iff.mp ht
    have hsu := sound_seekLast h hu
    obtain ⟨it, -, rfl⟩ := map_eq_some_iff.mp hu
    exact sound_copyLoop hput len hsu (hput.1 _ s it hroom) ht
  · rw [if_neg hh] at ht
    exact sound_copyLoop hput len h hroom ht

end loop

theorem puts_putBytes (i : Fin n) : Puts putBytes i fun _ _ => True := by
  refine ⟨fun _ _ _ _ => trivial, ?_⟩
  intro s a t b x len k h _ hx _ _ ht
  obtain ⟨c, -, heq⟩ := map_eq_some_iff.mp ht
  cases heq
  exact ⟨h, trivial, rfl, x, hx, rfl, le_refl _⟩

theorem puts_putList (i j : Fin n) : Puts (putList j) i fun len s => total (s.nodes j) + len < 2 ^ 32 := by
  refine ⟨fun len s it h => ?_, ?_⟩
  · simpa only [nodes_setLastP] using h
  intro s a t b x len k h hroom hx hk hkl ht
  obtain ⟨u, hu, ⟨⟩⟩ := map_eq_some_iff.mp ht
  have hpush := appendRange_pushed h.wf h.tracked (h.wf.goodNodes i x hx) hk hu
  have htotal := hpush.total
  refine ⟨⟨hpush.wf, fun l => ?_, hpush.tracked⟩, by omega, hpush.last i, ?_⟩
  · by_cases hl : l = j
    · rw [hl]
      omega
    · rw [hpush.nodes l hl]
      exact h.small l
  · by_cases hij : i = j
    · rw [hij] at hx ⊢
      exact hpush.grows x hx
    · exact ⟨x, by rwa [hpush.nodes i hij], rfl, le_refl _⟩

theorem getElem?_patchRaw {raws : Raws} {r pos k : ℕ} {b c d : Bytes} (hb : raws[r]? = some b)
    (hle : pos + d.length ≤ b.length) (hc : raws[k]? = some c) :
    ∃ c' : Bytes, (raws.modify r (patch · pos d))[k]? = some c' ∧ c'.length = c.length := by
  by_cases hk : r = k
  · subst hk
    have hcb : b = c := some.inj (hb.symm.trans hc)
    subst hcb
    exact ⟨patch b pos d, by simp [hb], length_patch hle⟩
  · exact ⟨c, by simp [hk, hc], rfl⟩

theorem State.Good.patchRaw {p : Ptr} {r pos : ℕ} {b d : Bytes} (hp : s.Good p) (hb : s.raws[r]? = some b)
    (hle : pos + d.length ≤ b.length) : State.Good { s with raws := s.raws.modify r (patch · pos d) } p := by
  obtain ⟨k, c, hk, hc, hcle⟩ := hp.inside
  obtain ⟨c', hc', hlen⟩ := getElem?_patchRaw hb hle hc
  exact ⟨⟨k, c', hk, hc', hlen ▸ hcle⟩, hp.used⟩

/-- Bytes inside a raw buffer are overwritten. -/
theorem WF.patchRaw (h : WF s) {r pos : ℕ} {b d : Bytes} (hb : s.raws[r]? = some b) (hle : pos + d.length ≤ b.length) :
    WF { s with raws := s.raws.modify r (patch · pos d) } := by
  refine ⟨?_, fun p hp => (h.good p hp).patchRaw hb hle, h.len, ?_, h.apart⟩
  · intro c hc
    obtain ⟨k, hk⟩ := mem_iff_getElem?.mp hc
    have hlt : k < s.raws.length := by
      have := (List.getElem?_eq_some_iff.mp hk).1
      rwa [length_modify] at this
    obtain ⟨c', hc', hlen⟩ := getElem?_patchRaw hb hle (getElem?_eq_getElem hlt)
    have hcc : c' = c := some.inj (hc'.symm.trans hk)
    rw [← hcc, hlen]
    exact h.small _ (getElem_mem hlt)
  · intro j k hj
    obtain ⟨h0, c, hc, hcle⟩ := h.buffer j k hj
    obtain ⟨c', hc', hlen⟩ := getElem?_patchRaw hb hle hc
    exact ⟨h0, c', hc', hlen ▸ hcle⟩

theorem puts_putIn (i : Fin n) : Puts putIn i fun _ _ => True := by
  refine ⟨fun _ _ _ _ => trivial, ?_⟩
  intro s src t b x len k h _ hx hk _ ht
  obtain ⟨raws, hraws, heq⟩ := map_eq_some_iff.mp ht
  obtain ⟨r, hr, hraws⟩ := bind_eq_some_iff.mp hraws
  obtain ⟨-, hraws⟩ := ite_none_right_eq_some.mp hraws
  obtain ⟨r', c, hr', hc, hle⟩ := (h.wf.goodNodes i x hx).inside
  have hrr : r' = r := some.inj (hr'.symm.trans hr)
  subst hrr
  have hfit : x.ptr.off + (s.lists i).lastP.pOff + (src.take k).length ≤ c.length := by
    rw [length_take]
    omega
  cases heq
  cases hraws
  refine ⟨⟨h.wf.patchRaw hc hfit, h.small, ?_⟩, trivial, rfl, x, hx, rfl, le_refl _⟩
  exact h.tracked.congr (fun _ => rfl) (fun _ => rfl) le_rfl

theorem sound_copyInSegments : ∀ (xs : List Node) {s t : State n} {left : ℕ}, Sound s →
    copyInSegments i xs s left = some t → Sound t
  | [], s, t, left, h, ht => by
    cases ht
    exact h
  | x :: xs, s, t, left, h, ht => by
    rw [copyInSegments] at ht
    obtain ⟨-, ht⟩ := ite_none_right_eq_some.mp ht
    obtain ⟨⟨u, c⟩, hu, ht⟩ := bind_eq_some_iff.mp ht
    have hsu := sound_iterCopy (puts_putIn i) h trivial hu
    by_cases hz : left - min x.ptr.len left = 0
    · rw [if_pos hz] at ht
      cases ht
      exact hsu
    · rw [if_neg hz] at ht
      exact sound_copyInSegments xs hsu ht

variable {off : ℕ}

theorem sound_toOffset (h : Sound s) (ht : toOffset s i off = some t) : Sound t := by
  rw [toOffset] at ht
  by_cases hne : (s.lists i).lastP.off ≠ off
  · rw [if_pos hne] at ht
    exact sound_seekLast h ht
  · rw [if_neg hne] at ht
    cases ht
    exact h

theorem nodes_toOffset (ht : toOffset s i off = some t) (j : Fin n) : t.nodes j = s.nodes j := by
  rw [toOffset] at ht
  by_cases hne : (s.lists i).lastP.off ≠ off
  · rw [if_pos hne] at ht
    obtain ⟨it, -, rfl⟩ := map_eq_some_iff.mp ht
    exact nodes_setLastP s i it j
  · rw [if_neg hne] at ht
    cases ht
    rfl

end copy

/-! ### Runs -/

/-- What is done with a pool: operations, and copies through the cached position. -/
inductive Act (n : ℕ)
  | op (o : Op n)
  | copy (i : Fin n) (off len : ℕ)
  | copyString (i : Fin n) (off len : ℕ)
  | copyList (i : Fin n) (off len : ℕ) (j : Fin n)
  | copyIn (i : Fin n) (off : ℕ) (src : Bytes)
  | copyInList (i : Fin n) (off len : ℕ) (j : Fin n)

def act (m : Machine) (s : State n) : Act n → Option (State n)
  | .op o => (apply m s o).map Prod.fst
  | .copy i off len => (copy s i off len).map Prod.fst
  | .copyString i off len => (copyString s i off len).map Prod.fst
  | .copyList i off len j => copyList s i off len j
  | .copyIn i off src => copyIn s i off src
  | .copyInList i off len j => copyInList s i off len j

/-- An operation is used as `spec` allows and finds the cached positions where it
may; a copy to a list leaves that one below 2^32 bytes. -/
def Allowed (m : Machine) (s : State n) : Act n → Prop
  | .op o => (spec m (abs s) o).isSome ∧ Settled s o
  | .copyList _ _ len j => (s.content j).length + len < 2 ^ 32
  | _ => True

instance (s : State n) (i : Fin n) : Decidable (Home s i) :=
  inferInstanceAs (Decidable ((s.lists i).lastP.p = .fin i))

instance (s : State n) (i : Fin n) (off len : ℕ) : Decidable (SpliceSafe s i off len) :=
  inferInstanceAs (Decidable (Home s i ∨ ∃ w ∈ (skip (s.nodes i) off).toList,
    (∃ x ∈ w.1, (s.lists i).lastP.p = .node x.id) ∨ w.2.2 = 0 ∧ (s.lists i).lastP.pOff = 0 ∧
      ∃ x ∈ w.2.1.take 1, (s.lists i).lastP.p = .node x.id ∧ len < x.ptr.len))

instance (s : State n) : ∀ op : Op n, Decidable (Settled s op)
  | .clear i | .rebuild i | .claimAppend _ i | .substrOf i _ _ _ => inferInstanceAs (Decidable (Home s i))
  | .cStr i => inferInstanceAs (Decidable ((s.nodes i).length ≤ 1 ∨ Home s i))
  | .claim i j => inferInstanceAs (Decidable (Home s i ∧ Home s j))
  | .swap i j => inferInstanceAs (Decidable (i = j ∨ Home s i ∧ Home s j))
  | .assign i j => inferInstanceAs (Decidable (i = j ∨ Home s i))
  | .splice i off len _ => inferInstanceAs (Decidable (SpliceSafe s i off len))
  | .create _ | .sub _ _ _ | .append _ _ | .appendPtr _ _ | .appendRange _ _ _ _ | .appendList _ _
  | .appendZero _ _ | .getByte _ _ => isTrue trivial

instance (m : Machine) (s : State n) : ∀ a : Act n, Decidable (Allowed m s a)
  | .op o => inferInstanceAs (Decidable ((spec m (abs s) o).isSome ∧ Settled s o))
  | .copyList _ _ len j => inferInstanceAs (Decidable ((s.content j).length + len < 2 ^ 32))
  | .copy _ _ _ | .copyString _ _ _ | .copyIn _ _ _ | .copyInList _ _ _ _ => isTrue trivial

theorem sound_act {a : Act n} (h : Sound s) (ha : Allowed m s a)
    (ht : act m s a = some t) : Sound t := by
  cases a with
  | op o =>
    obtain ⟨⟨u, out⟩, hu, rfl⟩ := map_eq_some_iff.mp ht
    obtain ⟨⟨a', out'⟩, hspec⟩ := isSome_iff_exists.mp ha.1
    obtain ⟨v, hv, hwf, habs, hsmall⟩ := apply_refines h.wf h.abs_small hspec
    have huv : v = u := congrArg Prod.fst (some.inj (hv.symm.trans hu))
    subst huv
    refine ⟨hwf, fun i => ?_, tracked_apply h.wf h.abs_small h.tracked ha.1 ha.2 hu⟩
    rw [← hwf.length_content i]
    rw [← habs] at hsmall
    exact hsmall i
  | copy i off len =>
    obtain ⟨⟨u, out⟩, hu, rfl⟩ := map_eq_some_iff.mp ht
    obtain ⟨-, hu⟩ := ite_none_right_eq_some.mp hu
    obtain ⟨v, hv, hu⟩ := bind_eq_some_iff.mp hu
    exact sound_iterCopy (puts_putBytes i) (sound_toOffset h hv) trivial hu
  | copyString i off len =>
    obtain ⟨⟨u, out⟩, hu, rfl⟩ := map_eq_some_iff.mp ht
    obtain ⟨v, hv, hu⟩ := bind_eq_some_iff.mp hu
    exact sound_iterCopy (puts_putBytes i) (sound_toOffset h hv) trivial hu
  | copyList i off len j =>
    obtain ⟨-, ht⟩ := ite_none_right_eq_some.mp ht
    obtain ⟨v, hv, ht⟩ := bind_eq_some_iff.mp ht
    obtain ⟨⟨u, x⟩, hu, rfl⟩ := map_eq_some_iff.mp ht
    have hroom : total (v.nodes j) + len < 2 ^ 32 := by
      rw [nodes_toOffset hv, ← h.wf.length_content j]
      exact ha
    exact sound_iterCopy (puts_putList i j) (sound_toOffset h hv) hroom hu
  | copyIn i off src =>
    obtain ⟨-, ht⟩ := ite_none_right_eq_some.mp ht
    obtain ⟨v, hv, ht⟩ := bind_eq_some_iff.mp ht
    obtain ⟨⟨u, x⟩, hu, rfl⟩ := map_eq_some_iff.mp ht
    exact sound_iterCopy (puts_putIn i) (sound_toOffset h hv) trivial hu
  | copyInList i off len j =>
    obtain ⟨v, hv, ht⟩ := bind_eq_some_iff.mp ht
    have hsv := sound_toOffset h hv
    by_cases hh : (v.lists i).lastP.p = .fin i
    · simp only [if_pos hh] at ht
      obtain ⟨u, hu, ht⟩ := bind_eq_some_iff.mp ht
      exact sound_copyInSegments _ (sound_seekLast hsv hu) ht
    · simp only [if_neg hh] at ht
      exact sound_copyInSegments _ hsv ht

theorem init_sound (n : ℕ) : Sound (init n) where
  wf := init_wf n
  small := fun i => show (0 : ℕ) < 2 ^ 32 by decide
  tracked :=
    { ids :=
        { nodup := fun i => nodup_nil
          apart := nofun
          lt := nofun }
      cached := fun i => .inl rfl }

/-- The five copies as a fresh seek to the offset would do them. -/
def SeeksFresh (s : State n) : Prop :=
  ∀ i off, (∀ len, copy s i off len = copyWith seekLast s i off len) ∧
    (∀ len, copyString s i off len = copyStringWith seekLast s i off len) ∧
    (∀ len j, copyList s i off len j = copyListWith seekLast s i off len j) ∧
    (∀ src, copyIn s i off src = copyInWith seekLast s i off src) ∧
    ∀ len j, copyInList s i off len j = copyInListWith seekLast s i off len j

theorem seekLast_seekLast (h : Ids s) {o : ℕ} (ht : seekLast s i o = some t) :
    seekLast t i (t.lists i).lastP.off = some t := by
  obtain ⟨it, hit, rfl⟩ := map_eq_some_iff.mp ht
  rw [seek_eq h] at hit
  obtain ⟨w, hw, rfl⟩ := map_eq_some_iff.mp hit
  have hids : Ids (setLastP s i ⟨u32 o, position i w.2.1, w.2.2⟩) :=
    { nodup := fun j => by rw [nodes_setLastP]; exact h.nodup j
      apart := fun j k x hx y hy => by
        rw [nodes_setLastP] at hx hy
        exact h.apart j k x hx y hy
      lt := fun j x hx => by
        rw [nodes_setLastP] at hx
        exact h.lt j x hx }
  have hu : u32 (u32 o) = u32 o := Nat.mod_mod _ _
  rw [setLastP_lists, if_pos rfl, seekLast, seek_eq hids, nodes_setLastP, hu, hw, map_some, map_some]
  simp only [setLastP, State.set, update_self, update_idem]

/-- A sound position that is not at `end()` is where a seek takes it. -/
theorem seekLast_self (h : Tracked s) (hh : ¬ Home s i) :
    seekLast s i (s.lists i).lastP.off = some s := by
  obtain ⟨hlt, pre, x, ys, hskip, hp⟩ := (h.cached i).resolve_left hh
  rw [seekLast, seek_eq h.ids, u32_eq hlt, hskip, map_some, map_some, position, ← hp]
  simp only [setLastP, State.set, update_eq_self]

/-- What comes after the position is taken to an offset does not see the difference,
if it seeks again from `end()`. -/
theorem bind_toOffset {β : Type} (h : Tracked s) (off : ℕ) (f : State n → Option β) :
    ((toOffset s i off).bind fun t => if (t.lists i).lastP.p = .fin i then (seekLast t i (t.lists i).lastP.off).bind f
      else f t) =
    (seekLast s i off).bind fun t => if (t.lists i).lastP.p = .fin i then (seekLast t i (t.lists i).lastP.off).bind f
      else f t := by
  by_cases hoff : (s.lists i).lastP.off = off
  · subst hoff
    rw [toOffset, if_neg (not_not.mpr rfl), bind_some]
    by_cases hh : (s.lists i).lastP.p = .fin i
    · rw [if_pos hh]
      cases ht : seekLast s i (s.lists i).lastP.off with
      | none => rfl
      | some t =>
        rw [bind_some, bind_some, seekLast_seekLast h.ids ht, bind_some, ite_self]
    · rw [if_neg hh, seekLast_self h hh, bind_some, if_neg hh]
  · rw [toOffset, if_pos hoff]

theorem seeksFresh_of_tracked (h : Tracked s) : SeeksFresh s := by
  intro i off
  have hput : ∀ {α : Type} (put : State n → α → Ptr → ℕ → ℕ → Option (State n × α)) (a : α) (len : ℕ),
      ((toOffset s i off).bind fun t => iterCopy put t i a len) = (seekLast s i off).bind fun t => iterCopy put t i a len :=
    fun put a len => bind_toOffset h off fun t => copyLoop put i len t a len
  refine ⟨fun len => ?_, fun len => ?_, fun len j => ?_, fun src => ?_, fun len j => ?_⟩
  · rw [copy, copyWith, copyWith, hput]
  · rw [copyString, copyStringWith, copyStringWith, hput]
  · have heq := congrArg (Option.map Prod.fst) (hput (putList j) () len)
    rw [map_bind, map_bind] at heq
    exact congrArg (fun r => if u32 (off + len) ≤ s.length i then r else none) heq
  · have heq := congrArg (Option.map Prod.fst) (hput putIn src src.length)
    rw [map_bind, map_bind] at heq
    exact congrArg (fun r => if u32 (off + src.length) ≤ s.length i then r else none) heq
  · exact bind_toOffset h off fun t => copyInSegments i (t.nodes j) t len

/-- **The cached position is never stale**, as long as the operations that change
the nodes of a list find its position where they may: in every state reached,
every copy at every offset is the one that a fresh seek would give. -/
theorem cached_position (m : Machine) (s : State n) (h : Run.Reach (act m) (Allowed m) (State.init n) s) :
    SeeksFresh s :=
  seeksFresh_of_tracked (h.inv Sound (init_sound n) fun _ _ _ hs ha hst => sound_act hs ha hst).tracked

/-- A copy, a `splice` behind the position, and a copy from where the first one
ended. -/
theorem cached_position_splice :
    ∃ s : State 2, Run.Reach (act page4k) (Allowed page4k) (State.init 2) s ∧ (s.lists 0).lastP.off = 3 ∧
      copy s 0 3 1 = copyWith seekLast s 0 3 1 ∧ (copy s 0 3 1).map Prod.snd = some [4] := by
  obtain ⟨s, hs, heq⟩ := map_eq_some_iff.mp (show
    ((Run.exec (act page4k) (Allowed page4k) [.op (.append 0 [1, 2, 3, 4, 5, 6]), .op (.append 1 [7]),
      .copy 0 1 2, .op (.appendList 0 1), .op (.splice 0 6 1 none)] (init 2)).map fun s =>
        ((s.lists 0).lastP.off, (copy s 0 3 1).map Prod.snd)) = some (3, some [4]) by decide +kernel)
  have hreach := Run.reach_of_exec hs
  simp only [Prod.mk.injEq] at heq
  exact ⟨s, hreach, heq.1, (cached_position page4k s hreach 0 3).1 1, heq.2⟩

/-- The buffers of a list are claimed by another one while its cached position is
in them: at offset 1 a copy then reads the other list. -/
theorem cached_position_stale :
    ∃ s : State 2, Run.Reach (act page4k) Run.anyAct (State.init 2) s ∧
      (copy s 0 1 1).map Prod.snd = some [2] ∧ (copyWith seekLast s 0 1 1).map Prod.snd = some [5] := by
  obtain ⟨s, hs, heq⟩ := map_eq_some_iff.mp (show
    ((Run.exec (act page4k) Run.anyAct [.op (.append 0 [1, 2, 3]), .copy 0 0 1, .op (.claimAppend 1 0),
      .op (.append 0 [4, 5, 6])] (init 2)).map fun s =>
        ((copy s 0 1 1).map Prod.snd, (copyWith seekLast s 0 1 1).map Prod.snd)) = some (some [2], some [5]) by
      decide +kernel)
  simp only [Prod.mk.injEq] at heq
  exact ⟨s, Run.reach_of_exec hs, heq.1, heq.2⟩

end Buffer
end Ceph
